/-
# TagMessaging.Rcu.Delivered -- the element delivered, and the kfree of the sender

The element that `rcu_list_search` returned is whole until somebody frees it: its entry and the
bytes of its message do not change. The sender that replaced it frees it as soon as no reader is
counted, and a receiver that copies from it is not. In the runs in which each element is freed after
its last use, what a receiver returns is a prefix of one message of its level; in other runs it
reads a freed element.
-/
import TagMessaging.Rcu.Receive

namespace TagMessaging.Rcu

open TagMessaging.Model TagMessaging.Lib.Transition TagMessaging.Lib.Segment

variable {τ : Type} {s s' : St τ} {t u : τ} {p : Pc} {xs ys : List Addr} {a : Addr}

/-! ## What the list holds -/

/-- The writer took `a` out of the list and has not freed it. -/
def Pc.TookOut (a : Addr) : Pc → Prop
  | .unlinked removed _ => removed = some a
  | .relinked removed _ => removed = some a
  | .flipped removed _ => removed = some a
  | .drained removed => removed = some a
  | .unlocked removed => removed = some a
  | _ => False

/-- `a` is in the list, or was and is not freed yet. -/
def Held (s : St τ) (a : Addr) : Prop :=
  (∃ xs, Seg (nextOf s.elements) s.list.head xs none ∧ a ∈ xs) ∨ ∃ t, (s.pc t).TookOut a

/-- The next statement of thread `t` links `a` in. -/
def Adds (s : St τ) (t : τ) (a : Addr) : Prop :=
  ∃ c r, s.pc t = .locked c ∧ c.newElement = some a ∧ c.relink s = .ok (some r)

theorem Pc.Defers.tookOut {e : Fin 2} (h : p.Defers e a) : p.TookOut a := by
  cases p with
  | unlinked => exact h
  | relinked | flipped => exact h.1
  | _ => exact h.elim

theorem InvAt.held_iff (h : InvAt s xs) : Held s a ↔ a ∈ xs ∨ ∃ t, (s.pc t).TookOut a := by
  refine or_congr_left ⟨?_, fun ha => ⟨xs, h.seg, ha⟩⟩
  rintro ⟨ys, hseg, ha⟩
  exact hseg.unique h.seg ▸ ha

/-- What a reader points to is held. -/
theorem InvAt.held_of_pointsTo (h : InvAt s xs) (hp : (s.pc u).PointsTo a) : Held s a := by
  obtain ⟨e, hc⟩ := hp.countedIn
  rw [h.held_iff]
  refine (h.pointers u a e hp hc).imp_right ?_
  rintro ⟨v, hv⟩
  exact ⟨v, hv.tookOut⟩

theorem InvAt.isSome_of_held (h : InvAt s xs) (ha : Held s a) : (s.elements a).isSome := by
  rcases h.held_iff.mp ha with hm | ⟨v, hv⟩
  · exact h.isSome hm
  · refine (h.owned v a ?_).1
    cases hp : s.pc v with
    | unlinked | relinked | flipped | drained | unlocked => simpa [hp, Pc.TookOut, Pc.Owns] using hv
    | _ => simp [hp, Pc.TookOut] at hv

section List

variable [DecidableEq τ]

/-- A step that leaves the list alone and takes nothing out of it. -/
theorem held_goto {s₁ : St τ} (helements : s₁.elements = s.elements)
    (hhead : s₁.list.head = s.list.head) (hpc : s₁.pc = s.pc)
    (hp : ∀ a, p.TookOut a → (s.pc t).TookOut a) (ha : Held (s₁.goto t p) a) : Held s a := by
  refine ha.imp ?_ ?_
  · rintro ⟨xs, hseg, hxs⟩
    refine ⟨xs, ?_, hxs⟩
    rw [← helements, ← hhead]
    exact hseg
  · rintro ⟨v, hv⟩
    rw [← hpc]
    exact ⟨v, of_goto (P := Pc.TookOut a) (by rw [hpc]; exact hp a) hv⟩

/-- The next statement of a writer that holds the lock. -/
theorem InvAt.held_relink {c : Change} (h : InvAt s xs) (hp : s.pc t = .locked c)
    (ha : Held (s.relink t c) a) : Held s a ∨ Adds s t a := by
  rcases h.relink_cases hp with ⟨key, b, rfl, hr⟩ | ⟨r, ys, hr, hrel, _⟩
  · simp only [St.relink, hr] at ha
    exact Or.inl (held_goto rfl rfl rfl (by simp [Pc.TookOut]) ha)
  · simp only [St.relink, hr] at ha
    rcases ha with ⟨zs, hseg, hzs⟩ | ⟨v, hv⟩
    · obtain rfl : zs = ys := hseg.unique hrel.spec.seg
      refine (hrel.mem a hzs).imp (fun hm => Or.inl ⟨xs, h.seg, hm⟩) fun hnew => ?_
      exact ⟨c, r, hp, hnew, hr⟩
    · rw [goto_pc] at hv
      split at hv
      · have hra : r.removed = some a := by cases c <;> exact hv
        exact Or.inl (Or.inl ⟨xs, h.seg, (hrel.removed a hra).1⟩)
      · exact Or.inl (Or.inr ⟨v, hv⟩)

/-- `kfree(removed)` gives up what its writer held. -/
theorem InvAt.held_kfree {removed : Ptr} (h : InvAt s xs) (hp : s.pc t = .unlocked removed)
    (ha : Held ((s.kfree removed).goto t .idle) a) : Held s a := by
  rw [(h.kfree hp).held_iff] at ha
  rw [h.held_iff]
  refine ha.imp_right ?_
  rintro ⟨v, hv⟩
  refine ⟨v, ?_⟩
  have hpc : (s.kfree removed).pc = s.pc := by cases removed <;> rfl
  rw [← hpc]
  exact of_goto (P := Pc.TookOut a) (by simp [Pc.TookOut]) hv

/-- The next statement of a thread: what the list holds after it, it held before it, unless the step
linked it in. -/
theorem InvAt.held_advance (h : InvAt s xs) (hs : Rcu.advance s t = some s') (ha : Held s' a) :
    Held s a ∨ Adds s t a := by
  cases hp : s.pc t with simp only [Rcu.advance, hp] at hs
  | idle | asleep key i e | lost e | wild => cases hs
  | locked c =>
      obtain rfl := Option.some.inj hs
      exact h.held_relink hp ha
  | unlocked removed =>
      obtain rfl := Option.some.inj hs
      exact Or.inl (h.held_kfree hp ha)
  | notifying i =>
      obtain rfl := Option.some.inj hs
      refine Or.inl (ha.imp_right ?_)
      rintro ⟨v, hv⟩
      refine ⟨v, ?_⟩
      by_cases hvt : v = t
      · simp [hvt, Pc.TookOut] at hv
      · simp only [hvt, if_false] at hv
        exact (wake_iff fun _ _ _ => Iff.rfl).mp hv
  | sampled key e =>
      split at hs <;> obtain rfl := Option.some.inj hs <;>
        exact Or.inl (held_goto rfl rfl rfl (by simp [Pc.TookOut]) ha)
  | queued key i e =>
      obtain rfl := Option.some.inj hs
      refine Or.inl (held_goto rfl rfl rfl (fun b => ?_) ha)
      split <;> simp [Pc.TookOut]
  | walking key e q =>
      obtain rfl := Option.some.inj hs
      refine Or.inl (held_goto rfl rfl rfl (fun b => ?_) ha)
      unfold St.hop
      split
      · simp [Pc.TookOut]
      · split
        · simp [Pc.TookOut]
        · split <;> simp [Pc.TookOut]
  | prepared c =>
      obtain ⟨_, ⟨⟩⟩ := Option.ite_none_right_eq_some.mp hs
      exact Or.inl (held_goto rfl rfl rfl (by simp [Pc.TookOut]) ha)
  | unlinked removed g | flipped removed g =>
      obtain ⟨_, ⟨⟩⟩ := Option.ite_none_left_eq_some.mp hs
      exact Or.inl (held_goto rfl rfl rfl (by simp [hp, Pc.TookOut]) ha)
  | signalled | woken | counted | leaving | returned | relinked | drained =>
      obtain rfl := Option.some.inj hs
      exact Or.inl (held_goto rfl rfl rfl (by simp [hp, Pc.TookOut]) ha)

/-! ## Entries -/

/-- The next statement of a thread leaves the entry of `a` alone, or is its `kfree`. -/
theorem InvAt.entry_advance (h : InvAt s xs) (hs : Rcu.advance s t = some s') (a : Addr) :
    entryAt s'.elements a = entryAt s.elements a ∨
      s.pc t = .unlocked (some a) ∧ entryAt s'.elements a = none := by
  cases hp : s.pc t with simp only [Rcu.advance, hp] at hs
  | idle | asleep key i e | lost e | wild => cases hs
  | locked c =>
      obtain rfl := Option.some.inj hs
      rcases h.relink_cases hp with ⟨key, b, rfl, hr⟩ | ⟨r, ys, hr, hrel, _⟩
      · simp only [St.relink, hr]
        exact Or.inl rfl
      · simp only [St.relink, hr]
        exact Or.inl (congrFun hrel.spec.entries a)
  | unlocked removed =>
      obtain rfl := Option.some.inj hs
      cases removed with
      | none => exact Or.inl rfl
      | some b =>
          by_cases hab : a = b
          · subst hab
            exact Or.inr ⟨rfl, by simp [St.kfree, St.goto, entryAt]⟩
          · exact Or.inl (by simp [St.kfree, St.goto, entryAt, hab])
  | sampled key e => split at hs <;> obtain rfl := Option.some.inj hs <;> exact Or.inl rfl
  | prepared c =>
      obtain ⟨_, ⟨⟩⟩ := Option.ite_none_right_eq_some.mp hs
      exact Or.inl rfl
  | unlinked removed g | flipped removed g =>
      obtain ⟨_, ⟨⟩⟩ := Option.ite_none_left_eq_some.mp hs
      exact Or.inl rfl
  | _ =>
      obtain rfl := Option.some.inj hs
      exact Or.inl rfl

/-- The first step of a call in the list leaves the entry of `a` alone, or fills the element in. -/
theorem entry_call {act : Act} (hs : Rcu.step s (t, act) = some s') (hact : act ≠ .advance)
    (a : Addr) :
    entryAt s'.elements a = entryAt s.elements a ∨ a = s.brk ∧ ∃ op kmallocFails x,
      act = .write op kmallocFails ∧ op.entry = some x ∧ entryAt s'.elements a = some x := by
  cases act with
  | advance => exact absurd rfl hact
  | search key =>
      obtain ⟨_, ⟨⟩⟩ := Option.ite_none_right_eq_some.mp hs
      exact Or.inl rfl
  | notify i =>
      obtain ⟨_, ⟨⟩⟩ := Option.ite_none_right_eq_some.mp hs
      exact Or.inl rfl
  | signal =>
      cases hp : s.pc t with simp only [Rcu.step, hp] at hs
      | asleep key i e =>
          obtain rfl := Option.some.inj hs
          exact Or.inl rfl
      | _ => cases hs
  | write op kmallocFails =>
      obtain ⟨_, ⟨⟩⟩ := Option.ite_none_right_eq_some.mp hs
      unfold St.write
      split
      · exact Or.inl rfl
      · next x hx =>
          split
          · exact Or.inl rfl
          · by_cases hab : a = s.brk
            · refine Or.inr ⟨hab, op, kmallocFails, x, rfl, hx, ?_⟩
              simp [St.allocate, St.goto, entryAt, Element.entry, hab]
            · exact Or.inl (by simp [St.allocate, St.goto, entryAt, hab])

/-- It links nothing in and takes nothing out. -/
theorem InvAt.held_call {act : Act} (h : InvAt s xs) (hs : Rcu.step s (t, act) = some s')
    (hact : act ≠ .advance) (ha : Held s' a) : Held s a := by
  cases act with
  | advance => exact absurd rfl hact
  | search key =>
      obtain ⟨_, ⟨⟩⟩ := Option.ite_none_right_eq_some.mp hs
      exact held_goto rfl rfl rfl (by simp [Pc.TookOut]) ha
  | notify i =>
      obtain ⟨_, ⟨⟩⟩ := Option.ite_none_right_eq_some.mp hs
      exact held_goto rfl rfl rfl (by simp [Pc.TookOut]) ha
  | signal =>
      cases hp : s.pc t with simp only [Rcu.step, hp] at hs
      | asleep key i e =>
          obtain rfl := Option.some.inj hs
          exact held_goto rfl rfl rfl (fun b => by split <;> simp [Pc.TookOut]) ha
      | _ => cases hs
  | write op kmallocFails =>
      obtain ⟨hp, ⟨⟩⟩ := Option.ite_none_right_eq_some.mp hs
      rw [(h.write hp).held_iff] at ha
      rw [h.held_iff]
      refine ha.imp_right ?_
      rintro ⟨v, hv⟩
      refine ⟨v, ?_⟩
      unfold St.write at hv
      split at hv
      · exact of_goto (P := Pc.TookOut a) (by simp [Pc.TookOut]) hv
      · split at hv
        · exact hv
        · exact of_goto (P := Pc.TookOut a) (by simp [Pc.TookOut]) hv

/-- It leaves the other threads where they are. -/
theorem pc_call {act : Act} (hs : Rcu.step s (t, act) = some s') (hact : act ≠ .advance)
    (hu : u ≠ t) : s'.pc u = s.pc u := by
  have stays : ∀ {s₁ : St τ} {p : Pc}, s₁.pc = s.pc → (s₁.goto t p).pc u = s.pc u := by
    intro s₁ p hpc
    rw [goto_pc, if_neg hu, hpc]
  cases act with
  | advance => exact absurd rfl hact
  | search key =>
      obtain ⟨_, ⟨⟩⟩ := Option.ite_none_right_eq_some.mp hs
      exact stays rfl
  | notify i =>
      obtain ⟨_, ⟨⟩⟩ := Option.ite_none_right_eq_some.mp hs
      exact stays rfl
  | signal =>
      cases hp : s.pc t with simp only [Rcu.step, hp] at hs
      | asleep key i e =>
          obtain rfl := Option.some.inj hs
          exact stays rfl
      | _ => cases hs
  | write op kmallocFails =>
      obtain ⟨_, ⟨⟩⟩ := Option.ite_none_right_eq_some.mp hs
      unfold St.write
      split
      · exact stays rfl
      · split
        · rfl
        · exact stays rfl

/-- Another thread stays where it is, or is woken. -/
theorem pc_advance (hs : Rcu.advance s t = some s') (hu : u ≠ t) :
    s'.pc u = s.pc u ∨ ∃ i, s'.pc u = (s.pc u).wake i := by
  have stays : ∀ {s₁ : St τ} {p : Pc}, s₁.pc = s.pc → (s₁.goto t p).pc u = s.pc u := by
    intro s₁ p hpc
    rw [goto_pc, if_neg hu, hpc]
  cases hp : s.pc t with simp only [Rcu.advance, hp] at hs
  | idle | asleep key i e | lost e | wild => cases hs
  | notifying i =>
      obtain rfl := Option.some.inj hs
      exact Or.inr ⟨i, if_neg hu⟩
  | locked c =>
      obtain rfl := Option.some.inj hs
      refine Or.inl ?_
      unfold St.relink
      split <;> exact stays rfl
  | unlocked removed =>
      obtain rfl := Option.some.inj hs
      cases removed <;> exact Or.inl (stays rfl)
  | sampled key e => split at hs <;> obtain rfl := Option.some.inj hs <;> exact Or.inl (stays rfl)
  | prepared c =>
      obtain ⟨_, ⟨⟩⟩ := Option.ite_none_right_eq_some.mp hs
      exact Or.inl (stays rfl)
  | unlinked removed g | flipped removed g =>
      obtain ⟨_, ⟨⟩⟩ := Option.ite_none_left_eq_some.mp hs
      exact Or.inl (stays rfl)
  | _ =>
      obtain rfl := Option.some.inj hs
      exact Or.inl (stays rfl)

end List

/-! ## The invariant of a room -/

/-- The element at `a` carries a message that was stored at `level`, and `P` of the two. -/
def Room.Serves (s : Room τ) (level : Int32) (a : Addr) (P : Entry → List UInt8 → Prop) : Prop :=
  ∃ x, entryAt s.list.elements a = some x ∧ x.level = level ∧
    (level, s.bytes x.message) ∈ s.stored ∧ P x (s.bytes x.message)

/-- `out` is the part of the message that is out. -/
def Part (r : Request) (bSize : Nat) (out : List UInt8) (x : Entry) (msg : List UInt8) : Prop :=
  bSize = min r.size x.size ∧ out.length ≤ bSize ∧ out <+: msg

/-- A thread in `rcu_list_search` looks for `level`, and what it has found is of that level. -/
def Room.Seeks (s : Room τ) (level : Int32) : Pc → Prop
  | .sampled key _ => key = level
  | .queued key _ _ => key = level
  | .asleep key _ _ => key = level
  | .woken key _ => key = level
  | .counted key _ => key = level
  | .walking key _ _ => key = level
  | .leaving _ (some a) => s.Serves level a fun _ _ => True
  | .returned (some a) => s.Serves level a fun _ _ => True
  | .leaving _ none => True
  | .returned none => True
  | _ => False

/-- A receiver, in the list at `p`, has what it has from one element of its level, which is not freed
yet. -/
def Room.Backs (s : Room τ) (p : Pc) : Use → Prop
  | .none => True
  | .searching r => s.Seeks r.level p
  | .found r a => s.Serves r.level a fun _ _ => True
  | .looping r a bSize out => s.Serves r.level a (Part r bSize out)
  | .copying r a bSize msg out =>
      s.Serves r.level a fun x m => x.message = msg ∧ Part r bSize out x m
  | .answered r bSize out => s.Whole r bSize out
  | .dangling => False

def Room.Sound (s : Room τ) (t : τ) : Prop := s.Backs (s.list.pc t) (s.use t)

/-- The element that the next statement of the thread frees. -/
def Pc.frees : Pc → Ptr
  | .unlocked removed => removed
  | _ => none

/-- The invariant of a room: what its elements, the history and its receivers have to do with each
other. -/
structure RoomInv [Fintype τ] (s : Room τ) : Prop where
  list : Inv s.list
  sized : ∀ a x, entryAt s.list.elements a = some x → x.size = (s.bytes x.message).length
  named : ∀ a x b, entryAt s.list.elements a = some x → x.message = some b → b < s.brk
  linked : ∀ a, Held s.list a → ∃ level, s.Serves level a fun _ _ => True
  sound : ∀ t, s.Sound t

/-- From `s` to `s'` no entry goes but that of the element freed, no message changes and the history
grows. -/
structure Keeps (s s' : Room τ) (freed : Ptr) : Prop where
  entries : ∀ a x, freed ≠ some a → entryAt s.list.elements a = some x →
    entryAt s'.list.elements a = some x
  bytes : ∀ b, b < s.brk → s'.buffers b = s.buffers b
  stored : ∀ m ∈ s.stored, m ∈ s'.stored

theorem Room.Seeks.wake {r : Room τ} {level : Int32} {i : Fin levelDeep}
    (hs : r.Seeks level p) :
    r.Seeks level (p.wake i) :=
  (wake_iff fun _ _ _ => Iff.rfl).mpr hs

section Keeps

variable [Fintype τ] {r r' : Room τ} {freed : Ptr} {level : Int32}
variable {P : Entry → List UInt8 → Prop}

theorem Keeps.bytes_message (hk : Keeps r r' freed) (h : RoomInv r) {x : Entry}
    (hx : entryAt r.list.elements a = some x) : r'.bytes x.message = r.bytes x.message := by
  cases hmsg : x.message with
  | none => rfl
  | some b => exact hk.bytes b (h.named a x b hx hmsg)

theorem Keeps.serves (hk : Keeps r r' freed) (h : RoomInv r) (ha : freed ≠ some a)
    (hs : r.Serves level a P) : r'.Serves level a P := by
  obtain ⟨x, hx, hl, hm, hp⟩ := hs
  have hbytes := hk.bytes_message h hx
  refine ⟨x, hk.entries a x ha hx, hl, ?_, ?_⟩
  · rw [hbytes]
    exact hk.stored _ hm
  · rw [hbytes]
    exact hp

theorem Keeps.seeks (hk : Keeps r r' freed) (h : RoomInv r) {p : Pc}
    (ha : ∀ a, p.PointsTo a ∨ p = .returned (some a) → freed ≠ some a) (hs : r.Seeks level p) :
    r'.Seeks level p := by
  cases p with
  | leaving e q =>
      cases q with
      | none => trivial
      | some a => exact Keeps.serves hk h (ha a (Or.inl rfl)) (P := fun _ _ => True) hs
  | returned q =>
      cases q with
      | none => trivial
      | some a => exact Keeps.serves hk h (ha a (Or.inr rfl)) (P := fun _ _ => True) hs
  | _ => exact hs

/-- A step that frees nothing the thread has still to read keeps what it has. -/
theorem Keeps.sound (hk : Keeps r r' freed) (h : RoomInv r) (huse : r'.use u = r.use u)
    (ha : ∀ a, (r.use u).Reads a → freed ≠ some a)
    (hseeks : ∀ q, r.use u = .searching q → r'.Seeks q.level (r'.list.pc u)) : r'.Sound u := by
  have hsound := h.sound u
  unfold Room.Sound at hsound ⊢
  rw [huse]
  cases hu : r.use u with rw [hu] at hsound
  | none => trivial
  | searching q => exact hseeks q hu
  | found q a => exact Keeps.serves (P := fun _ _ => True) hk h (ha a (by rw [hu]; rfl)) hsound
  | looping q a bSize out =>
      exact Keeps.serves (P := Part q bSize out) hk h (ha a (by rw [hu]; rfl)) hsound
  | copying q a bSize msg out =>
      exact Keeps.serves (P := fun x m => x.message = msg ∧ Part q bSize out x m) hk h
        (ha a (by rw [hu]; rfl)) hsound
  | answered q bSize out =>
      obtain ⟨msg, hm, hrest⟩ := hsound
      exact ⟨msg, hk.stored _ hm, hrest⟩
  | dangling => exact hsound

/-- The buffer of a new message is one more. -/
theorem RoomInv.keep (h : RoomInv r) (msg : List UInt8) : RoomInv (r.keep msg) := by
  have hk : Keeps r (r.keep msg) none :=
    ⟨fun _ _ _ hx => hx, fun b hb => Function.update_of_ne (Nat.ne_of_lt hb) .., fun _ hm => hm⟩
  refine ⟨h.list, fun a x hx => ?_, fun a x b hx hb => ?_, fun a ha => ?_, fun u => ?_⟩
  · rw [hk.bytes_message h hx]
    exact h.sized a x hx
  · exact Nat.lt_succ_of_lt (h.named a x b hx hb)
  · obtain ⟨level, hserves⟩ := h.linked a ha
    exact ⟨level, hk.serves h (by simp) hserves⟩
  · refine hk.sound h rfl (by simp) fun q hq => ?_
    have hsound := h.sound u
    rw [Room.Sound, hq] at hsound
    exact hk.seeks h (by simp) hsound

theorem roomInv_initial : RoomInv (Room.initial : Room τ) where
  list := inv_initial
  sized := fun _ _ hx => by cases hx
  named := fun _ _ _ hx => by cases hx
  linked := by
    rintro a (⟨xs, hseg, ha⟩ | ⟨u, hu⟩)
    · obtain rfl : xs = [] := hseg.unique (seg_nil.mpr rfl)
      cases ha
    · exact hu.elim
  sound := fun _ => trivial

end Keeps

section Steps

variable {r r' : Room τ}

theorem Pc.eq_unlocked (h : p.frees = some a) : p = .unlocked (some a) := by
  cases p with
  | unlocked removed => exact congrArg Pc.unlocked h
  | _ => cases h

theorem stored_subset_link (r : Room τ) (t : τ) {m : Int32 × List UInt8} (hm : m ∈ r.stored) :
    m ∈ r.link t := by
  unfold Room.link
  split
  · split
    · exact List.mem_append_left _ hm
    · exact hm
  · exact hm

/-- The message of an element that is linked in enters the history. -/
theorem mem_link {x : Entry} (h : Adds r.list t a) (hx : entryAt r.list.elements a = some x) :
    (x.level, r.bytes x.message) ∈ r.link t := by
  obtain ⟨c, rl, hp, hnew, hr⟩ := h
  simp [Room.link, hp, hr, hnew, hx]

/-- In a state the guard admits, the next statement frees nothing that anybody has still to read. -/
theorem RoomInv.not_freed [Fintype τ] (h : RoomInv r)
    (hfree : ∀ a, r.list.pc t = .unlocked (some a) → ∀ u, ¬ r.Uses u a) {a : Addr}
    (ha : (r.list.pc u).PointsTo a ∨ r.Uses u a) : (r.list.pc t).frees ≠ some a := by
  intro hfrees
  have hp : r.list.pc t = .unlocked (some a) := Pc.eq_unlocked hfrees
  obtain ⟨_, xs, hat⟩ := h.list
  rcases ha with hpt | huse
  · exact hat.graceKept.1 t a hp u hpt
  · exact hfree a hp u huse

variable [DecidableEq τ]

theorem inList_eq (hs : r.inList t = some r') : ∃ list, Rcu.advance r.list t = some list ∧
    r' = { r with list := list, stored := r.link t } := by
  obtain ⟨list, hl, rfl⟩ := Option.map_eq_some_iff.mp hs
  exact ⟨list, hl, rfl⟩

theorem inList_goto (r : Room τ) (t : τ) (use : Use) :
    (r.inList t).map (·.goto t use) = (r.goto t use).inList t := by
  unfold Room.inList
  rw [Option.map_map]
  rfl

variable [Fintype τ]

/-- A thread that goes on alone, outside the list. -/
theorem RoomInv.goto {use : Use} (h : RoomInv r) (hs : r.Backs (r.list.pc t) use) :
    RoomInv (r.goto t use) where
  list := h.list
  sized := h.sized
  named := h.named
  linked := h.linked
  sound := by
    intro u
    have huse : (r.goto t use).use u = if u = t then use else r.use u := Function.update_apply ..
    show r.Backs (r.list.pc u) ((r.goto t use).use u)
    rw [huse]
    split
    · subst_vars
      exact hs
    · exact h.sound u

theorem keeps_inList (h : RoomInv r) (hs : r.inList t = some r') :
    Keeps r r' (r.list.pc t).frees := by
  obtain ⟨_, xs, hat⟩ := h.list
  obtain ⟨list, hl, rfl⟩ := inList_eq hs
  refine ⟨fun a x ha hx => ?_, fun _ _ => rfl, fun m hm => stored_subset_link r t hm⟩
  rcases hat.entry_advance hl a with he | ⟨hp, _⟩
  · exact he.trans hx
  · exact absurd (by rw [hp]; rfl) ha

/-- The part of the invariant that is not about the receivers. -/
theorem RoomInv.store (h : RoomInv r) (hc : Covered r.list (t, .advance))
    (hs : r.inList t = some r') (hsound : ∀ u, r'.Sound u) : RoomInv r' := by
  have hk := keeps_inList h hs
  obtain ⟨hcounts, xs, hat⟩ := h.list
  obtain ⟨list, hl, rfl⟩ := inList_eq hs
  have hlist : Inv list := Inv.step (l := (t, .advance)) h.list hc hl
  have hentry : ∀ a x, entryAt list.elements a = some x → entryAt r.list.elements a = some x := by
    intro a x hx
    rcases hat.entry_advance hl a with he | ⟨_, hnone⟩
    · exact he.symm.trans hx
    · rw [hnone] at hx
      cases hx
  refine ⟨hlist, fun a x hx => h.sized a x (hentry a x hx),
    fun a x b hx => h.named a x b (hentry a x hx), fun a ha => ?_, hsound⟩
  obtain ⟨_, ys, hat'⟩ := hlist
  obtain ⟨x, hx⟩ : ∃ x, entryAt list.elements a = some x := by
    obtain ⟨el, hel⟩ := Option.isSome_iff_exists.mp (hat'.isSome_of_held ha)
    exact ⟨el.entry, by rw [entryAt, hel]; rfl⟩
  refine ⟨x.level, x, hx, rfl, ?_, trivial⟩
  rcases hat.held_advance hl ha with hold | hadds
  · obtain ⟨level, y, hy, rfl, hm, _⟩ := h.linked a hold
    obtain rfl : y = x := Option.some.inj (hy.symm.trans (hentry a x hx))
    exact stored_subset_link r t hm
  · exact mem_link hadds (hentry a x hx)

/-- The next statement of a search keeps what it is for: it ends at an element of its level. -/
theorem seeks_inList {level : Int32} (h : RoomInv r) (hc : Covered r.list (t, .advance))
    (hs : r.inList t = some r') (hseek : r.Seeks level (r.list.pc t))
    (hne : ∀ q, r.list.pc t ≠ .returned q) : r'.Seeks level (r'.list.pc t) := by
  have hk := keeps_inList h hs
  obtain ⟨hcounts, xs, hat⟩ := h.list
  obtain ⟨list, hl, rfl⟩ := inList_eq hs
  cases hp : r.list.pc t with simp only [Rcu.advance, hp] at hl
  | idle | asleep => cases hl
  | sampled key e =>
      obtain ⟨i, hi⟩ := Option.isSome_iff_exists.mp (show (readyIndex key).isSome by
        simpa [Covered, hp] using hc)
      simp only [hi, Option.some.injEq] at hl
      subst hl
      rw [goto_pc_self]
      rw [hp] at hseek
      exact hseek
  | queued key i e =>
      obtain rfl := Option.some.inj hl
      rw [goto_pc_self]
      rw [hp] at hseek
      split <;> exact hseek
  | woken key e | counted key e =>
      obtain rfl := Option.some.inj hl
      rw [goto_pc_self]
      rw [hp] at hseek
      exact hseek
  | walking key e q =>
      obtain rfl := Option.some.inj hl
      rw [goto_pc_self]
      rw [hp] at hseek hk
      obtain rfl : key = level := hseek
      cases q with
      | none => trivial
      | some a =>
          have hpt : (r.list.pc t).PointsTo a := by simp [hp, Pc.PointsTo]
          have hheld : Held r.list a := hat.held_of_pointsTo hpt
          obtain ⟨el, hel⟩ := Option.isSome_iff_exists.mp (hat.isSome_of_held hheld)
          -- the walk ends at the first element of its level
          by_cases hl : el.level = key
          · have hhop : r.list.hop key e (some a) = .leaving e (some a) := by
              simp [St.hop, hel, hl]
            obtain ⟨level, hserves⟩ := h.linked a hheld
            obtain ⟨x, hx, rfl, _⟩ := id hserves
            obtain rfl : el.entry = x := by
              rw [entryAt, hel] at hx
              exact Option.some.inj hx
            have hkept := hk.serves h (by simp [Pc.frees]) hserves
            rw [hhop]
            exact hl ▸ hkept
          · have hhop : r.list.hop key e (some a) = .walking key e el.next := by
              simp [St.hop, hel, hl]
            rw [hhop]
            rfl
  | leaving e q =>
      obtain rfl := Option.some.inj hl
      rw [goto_pc_self]
      rw [hp] at hseek hk
      cases q with
      | none => trivial
      | some a => exact Keeps.serves (P := fun _ _ => True) hk h (by simp [Pc.frees]) hseek
  | returned q => exact absurd hp (hne q)
  | _ =>
      rw [hp] at hseek
      exact hseek.elim

/-- The next statement of thread `t` in the list. -/
theorem RoomInv.inList (h : RoomInv r) (hok : FreedAfterUse r (t, .advance))
    (hs : r.inList t = some r')
    (hself : ∀ q, r.use t = .searching q → r'.Seeks q.level (r'.list.pc t)) : RoomInv r' := by
  obtain ⟨hc, hfree⟩ : Covered r.list (t, .advance) ∧
      ∀ a, r.list.pc t = .unlocked (some a) → ∀ u, ¬ r.Uses u a := ⟨hok.1, fun a => hok.2 a rfl⟩
  refine h.store hc hs fun u => ?_
  have hk := keeps_inList h hs
  obtain ⟨list, hl, rfl⟩ := inList_eq hs
  refine hk.sound h rfl (fun a ha => h.not_freed hfree (Or.inr (Or.inr ha))) fun q hq => ?_
  by_cases hu : u = t
  · subst hu
    exact hself q hq
  · have hsound := h.sound u
    rw [Room.Sound, hq] at hsound
    have hkept := hk.seeks h (fun a ha => h.not_freed hfree (ha.imp_right Or.inl)) hsound
    rcases pc_advance hl hu with he | ⟨i, he⟩
    · exact he.symm ▸ hkept
    · exact he.symm ▸ hkept.wake

/-- The return of `rcu_list_search`: what it found is what the receiver goes on with. -/
theorem RoomInv.found {use : Use} {found : Ptr} (h : RoomInv r)
    (hp : r.list.pc t = .returned found) (huse : ∀ q, use ≠ .searching q)
    (hs : (r.inList t).map (·.goto t use) = some r') (hback : r.Backs (.returned found) use) :
    RoomInv r' := by
  rw [inList_goto] at hs
  have hgoto : RoomInv (r.goto t use) := h.goto (hp ▸ hback)
  refine hgoto.inList ⟨?_, fun a _ ha => ?_⟩ hs fun q hq => ?_
  · show Covered r.list (t, .advance)
    simp [Covered, hp]
  · exact absurd (hp.symm.trans ha) (by simp)
  · exact absurd ((Function.update_self ..).symm.trans hq) (huse q)

/-- The next statement of thread `t`. -/
theorem RoomInv.advance (h : RoomInv r) (hok : FreedAfterUse r (t, .advance))
    (hs : r.advance t = some r') : RoomInv r' := by
  have hsound := h.sound t
  rw [Room.Sound] at hsound
  cases hu : r.use t with (rw [hu] at hsound; simp only [Room.advance, hu] at hs)
  | none | answered q bSize out =>
      refine h.inList hok hs fun q hq => ?_
      rw [hu] at hq
      cases hq
  | searching q =>
      have hseeks : (∀ found, r.list.pc t ≠ .returned found) → r.inList t = some r' →
          RoomInv r' := by
        intro hne hs
        refine h.inList hok hs fun q' hq => ?_
        rw [hu] at hq
        obtain rfl := Use.searching.inj hq
        exact seeks_inList h hok.1 hs hsound hne
      cases hp : r.list.pc t with simp only [hp] at hs
      | returned found =>
          rw [hp] at hsound
          cases found with
          | none => exact h.found hp (by simp) hs trivial
          | some a => exact h.found hp (by simp) hs hsound
      | _ => exact hseeks (by simp [hp]) hs
  | found q a =>
      obtain ⟨x, hx, hl, hm, -⟩ := hsound
      obtain ⟨el, hel, rfl⟩ := Option.map_eq_some_iff.mp hx
      simp only [hel, Option.some.injEq] at hs
      subst hs
      exact h.goto ⟨el.entry, hx, hl, hm, rfl, Nat.zero_le _, List.nil_prefix⟩
  | looping q a bSize out =>
      obtain ⟨x, hx, hl, hm, hsize, hle, hout⟩ := hsound
      obtain ⟨el, hel, rfl⟩ := Option.map_eq_some_iff.mp hx
      split at hs
      · simp only [hel, Option.some.injEq] at hs
        subst hs
        exact h.goto ⟨el.entry, hx, hl, hm, rfl, hsize, hle, hout⟩
      · -- all bytes are out: what was copied is the whole prefix
        next hdone =>
          obtain rfl := Option.some.inj hs
          have hlength : out.length = bSize := by omega
          refine h.goto ⟨_, hm, ?_, ?_⟩
          · rw [hsize, h.sized a _ hx]
          · rw [← hlength]
            exact List.prefix_iff_eq_take.mp hout
  | copying q a bSize msg out => cases hs
  | dangling => exact hsound.elim

/-- A message that fits its entry: its length is the size, and its buffer is in use. -/
def Room.Fits (s : Room τ) (x : Entry) : Prop :=
  x.size = (s.bytes x.message).length ∧ ∀ b, x.message = some b → b < s.brk

/-- The first step of a call in the list. -/
theorem RoomInv.call {act : Act} {list : St τ} (h : RoomInv r)
    (hs : Rcu.step r.list (t, act) = some list) (hact : act ≠ .advance)
    (hc : Covered r.list (t, act))
    (hfits : ∀ op kmallocFails x, act = .write op kmallocFails → op.entry = some x → r.Fits x)
    (hself : ∀ q, r.use t = .searching q →
      Room.Seeks { r with list := list } q.level (list.pc t)) :
    RoomInv { r with list := list } := by
  have hlist : Inv list := Inv.step (l := (t, act)) h.list hc hs
  obtain ⟨_, xs, hat⟩ := h.list
  have hk : Keeps r { r with list := list } none := by
    refine ⟨fun a x _ hx => ?_, fun _ _ => rfl, fun _ hm => hm⟩
    rcases entry_call hs hact a with he | ⟨rfl, _⟩
    · exact he.trans hx
    · rw [entryAt, hat.fresh _ (le_refl _)] at hx
      cases hx
  have hentry : ∀ a x, entryAt list.elements a = some x → r.Fits x := by
    intro a x hx
    rcases entry_call hs hact a with he | ⟨_, op, kmallocFails, y, hop, hy, hnew⟩
    · have hold : entryAt r.list.elements a = some x := he.symm.trans hx
      exact ⟨h.sized a x hold, fun b => h.named a x b hold⟩
    · obtain rfl : y = x := Option.some.inj (hnew.symm.trans hx)
      exact hfits op kmallocFails y hop hy
  refine ⟨hlist, fun a x hx => (hentry a x hx).1, fun a x b hx => (hentry a x hx).2 b,
    fun a ha => ?_, fun u => ?_⟩
  · obtain ⟨level, hserves⟩ := h.linked a (hat.held_call hs hact ha)
    exact ⟨level, hk.serves h (by simp) hserves⟩
  · refine hk.sound h rfl (by simp) fun q hq => ?_
    by_cases hu : u = t
    · subst hu
      exact hself q hq
    · have hsound := h.sound u
      rw [Room.Sound, hq] at hsound
      show Room.Seeks _ q.level (list.pc u)
      rw [pc_call hs hact hu]
      exact hk.seeks h (by simp) hsound

theorem RoomInv.free_call {act : Act} (h : RoomInv r) (hs : r.call t act = some r')
    (hact : act ≠ .advance) (hc : Covered r.list (t, act))
    (hfits : ∀ op kmallocFails x, act = .write op kmallocFails → op.entry = some x → r.Fits x) :
    RoomInv r' := by
  obtain ⟨hfree, hs⟩ := Option.ite_none_right_eq_some.mp hs
  obtain ⟨list, hl, rfl⟩ := Option.map_eq_some_iff.mp hs
  refine h.call hl hact hc hfits fun q hq => ?_
  rw [hq] at hfree
  exact hfree.elim

/-- One step keeps the invariant. -/
theorem RoomInv.step {l : τ × Call} (h : RoomInv r) (hok : FreedAfterUse r l)
    (hs : r.step l = some r') : RoomInv r' := by
  obtain ⟨t, c⟩ := l
  cases c with
  | advance => exact h.advance hok hs
  | copied n =>
      have hsound := h.sound t
      rw [Room.Sound] at hsound
      cases hu : r.use t with (rw [hu] at hsound; simp only [Room.step, hu] at hs)
      | copying q a bSize msg out =>
          obtain ⟨hn, hs⟩ := Option.ite_none_right_eq_some.mp hs
          obtain rfl := Option.some.inj hs
          obtain ⟨x, hx, hl, hm, rfl, hsize, hle, hout⟩ := hsound
          refine h.goto ⟨x, hx, hl, hm, hsize, ?_, ?_⟩
          · -- the next bytes of the message follow those that are out
            rw [List.length_append]
            have htake := List.length_take_le n ((r.bytes x.message).drop out.length)
            omega
          · obtain ⟨rest, hrest⟩ := hout
            rw [← hrest, List.drop_left]
            exact (List.prefix_append_right_inj out).mpr (List.take_prefix n rest)
      | _ => cases hs
  | receive q =>
      obtain ⟨r₁, hcall, rfl⟩ := Option.map_eq_some_iff.mp hs
      have h₁ : RoomInv r₁ := h.free_call hcall (by simp) trivial (by simp)
      refine h₁.goto ?_
      obtain ⟨_, hcall⟩ := Option.ite_none_right_eq_some.mp hcall
      obtain ⟨list, hl, rfl⟩ := Option.map_eq_some_iff.mp hcall
      obtain ⟨_, ⟨⟩⟩ := Option.ite_none_right_eq_some.mp hl
      show Room.Seeks _ q.level ((r.list.goto t _).pc t)
      rw [goto_pc_self]
      rfl
  | send level msg kmallocFails =>
      refine (h.keep msg).free_call hs (by simp) trivial ?_
      rintro op kf x ⟨⟩ ⟨⟩
      refine ⟨?_, fun b hb => ?_⟩
      · simp [Room.keep, Room.bytes]
      · obtain rfl := Option.some.inj hb
        exact Nat.lt_succ_self _
  | insert level kmallocFails =>
      refine h.free_call hs (by simp) trivial ?_
      rintro op kf x ⟨⟩ ⟨⟩
      exact ⟨rfl, fun b hb => by cases hb⟩
  | notify i => exact h.free_call hs (by simp) trivial (by simp)
  | signal =>
      obtain ⟨list, hl, rfl⟩ := Option.map_eq_some_iff.mp hs
      refine h.call hl (by simp) hok.1 (by simp) fun q hq => ?_
      have hsound := h.sound t
      rw [Room.Sound, hq] at hsound
      cases hp : r.list.pc t with simp only [Rcu.step, hp] at hl
      | asleep key i e =>
          obtain rfl := Option.some.inj hl
          -- under the guard a signal finds the flag set, and the search goes on as if woken
          have hready : r.list.list.ready i = 1 := by simpa [Graced, Covered, hp] using hok.1
          rw [goto_pc_self, if_pos hready]
          rw [hp] at hsound
          exact hsound
      | _ => cases hl

/-- In every run in which the grace period works and each element is freed after its last use, for
any number of receivers and senders, no call reads a freed element, and what it returns is a prefix
of one message that was stored at its level. -/
theorem delivered_whole (h : Reached (room τ) FreedAfterUse r) : Delivered r := by
  have hinv : RoomInv r := by
    refine h.invariant ?_ fun _ _ _ hi hok hs => hi.step hok hs
    rintro _ rfl
    exact roomInv_initial
  refine ⟨fun t ht => ?_, fun t q bSize out ht => ?_⟩
  · have hsound := hinv.sound t
    rw [Room.Sound, ht] at hsound
    exact hsound
  · have hsound := hinv.sound t
    rw [Room.Sound, ht] at hsound
    exact hsound

end Steps

/-! ## Runs of three threads -/

instance Graced.decidable (s : Room (Fin 3)) (l : Fin 3 × Call) : Decidable (Graced s l) := by
  obtain ⟨t, c⟩ := l
  rcases c <;> dsimp only [Graced] <;> infer_instance

instance Room.Uses.decidable (s : Room (Fin 3)) (t : Fin 3) (a : Addr) :
    Decidable (s.Uses t a) :=
  inferInstanceAs (Decidable (_ ∨ _))

theorem freedAfterUse_iff {s : Room τ} {l : τ × Call} :
    FreedAfterUse s l ↔ Graced s l ∧
      (l.2 = .advance → ∀ a ∈ (s.list.pc l.1).frees, ∀ u, ¬ s.Uses u a) := by
  refine and_congr_right fun _ => ⟨fun h hl a ha => h a hl (Pc.eq_unlocked ha), fun h a hl ha => ?_⟩
  exact h hl a (by rw [ha]; rfl)

instance FreedAfterUse.decidable (s : Room (Fin 3)) (l : Fin 3 × Call) :
    Decidable (FreedAfterUse s l) :=
  decidable_of_iff' _ freedAfterUse_iff

/-- Thread `t` executes `n` statements. -/
def proceed (t : Fin 3) (n : Nat) : List (Fin 3 × Call) := List.replicate n (t, .advance)

/-- Thread 1 sets the room up, thread 0 waits at level 5 and thread 1 sends to it. -/
def sentToReceiver : List (Fin 3 × Call) :=
  (1, .insert 5 false) :: proceed 1 6 ++ (0, .receive ⟨5, 10⟩) :: proceed 0 2 ++
    (1, .send 5 [104, 105] false) :: proceed 1 6 ++ (1, .notify level5) :: proceed 1 1

/-- Under the guard: thread 0 copies the two bytes one after the other and returns. -/
theorem delivered_whole_send : ∃ s, Reached (room (Fin 3)) FreedAfterUse s ∧
    s.use 0 = .answered ⟨5, 10⟩ 2 [104, 105] ∧ Delivered s := by
  obtain ⟨s, hs, hp⟩ : ∃ s, Reached (room (Fin 3)) FreedAfterUse s ∧
      s.use 0 = .answered ⟨5, 10⟩ 2 [104, 105] :=
    exists_reached_of_replay Room.step Room.initial
      (sentToReceiver ++ proceed 0 8 ++ [(0, .copied 1), (0, .advance), (0, .copied 1)] ++
        proceed 0 1) (by decide +kernel)
  exact ⟨s, hs, hp, delivered_whole hs⟩

/-- Without it, although the grace period works: thread 0 has copied one byte when thread 1 sends
again. No reader is counted, thread 1 frees the element, and thread 0 reads its `message`. -/
theorem freed_while_copying : ∃ s, Reached (room (Fin 3)) Graced s ∧
    s.use 0 = .dangling ∧ ¬ Delivered s := by
  obtain ⟨s, hs, hp⟩ : ∃ s, Reached (room (Fin 3)) Graced s ∧ s.use 0 = .dangling :=
    exists_reached_of_replay Room.step Room.initial
      (sentToReceiver ++ proceed 0 8 ++ [(0, .copied 1)] ++
        (1, .send 5 [33] false) :: proceed 1 6 ++ proceed 0 1) (by decide +kernel)
  exact ⟨s, hs, hp, fun h => h.alive 0 hp⟩

end TagMessaging.Rcu
