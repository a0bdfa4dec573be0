/-
# TagMessaging.Rcu.HalfLinked -- the two stores of an inner replacement

`rcu_list_replace` links an inner element in with two stores: `elem->next = new_element;`, and only
then `new_element->next = removed->next;`. In `Steps` they are one step. Here they are two, and the
second is kept in `half` until it is done: the list ends at the new element in between. Head
replacements, insertions and removals publish with their last store and stay one step.

A reader that follows the link of the new element in between falls off the list. As long as none
does, every state reached stands for a state reached by the coarse steps, the one with the second
store done, so that what is proved of those holds here.
-/
import TagMessaging.Rcu.Searches

namespace TagMessaging.Rcu

open TagMessaging.Model TagMessaging.Lib.Transition TagMessaging.Lib.Segment

/-! ## The first store -/

/-- The relinking of `rcu_list_replace` up to `elem->next = new_element;`, with `removed->next`,
which the next statement stores; `none` where the routine replaces no inner element. -/
def linkReplace (elements : Addr → Option Element) (fuel : Nat) (head : Ptr) (key : Int32)
    (newElement : Addr) : Except Fault (Option (Relinked × Ptr)) :=
  match head with
  | none => .ok none
  | some elem => do
      let e ← derefElement elements (some elem)
      if e.level = key then
        pure none
      else
        match ← findBefore elements key fuel (some elem) with
        | none => pure none
        | some q => do
            let eq ← derefElement elements (some q)
            let er ← derefElement elements eq.next
            pure (some
              ({ elements := setNext elements q (some newElement)
                 head := head
                 removed := eq.next }, er.next))

/-- Both stores are the relinking. -/
theorem relinkReplace_of_link {elements : Addr → Option Element} {fuel : Nat} {head p : Ptr}
    {key : Int32} {new : Addr} {r : Relinked}
    (h : linkReplace elements fuel head key new = .ok (some (r, p))) :
    relinkReplace elements fuel head key new =
      .ok (some { r with elements := setNext r.elements new p }) := by
  cases head with
  | none => cases h
  | some elem =>
      unfold linkReplace at h
      unfold relinkReplace
      simp only [bind, Except.bind] at h ⊢
      cases he : derefElement elements (some elem) with
      | error x =>
          rw [he] at h
          cases h
      | ok e =>
          rw [he] at h
          simp only at h ⊢
          by_cases hlevel : e.level = key
          · rw [if_pos hlevel] at h
            cases h
          · rw [if_neg hlevel] at h ⊢
            cases hwalk : findBefore elements key fuel (some elem) with
            | error x =>
                rw [hwalk] at h
                cases h
            | ok found =>
                rw [hwalk] at h
                cases found with
                | none => cases h
                | some q =>
                    simp only at h ⊢
                    cases hq : derefElement elements (some q) with
                    | error x =>
                        rw [hq] at h
                        cases h
                    | ok eq =>
                        rw [hq] at h
                        simp only at h ⊢
                        cases hr : derefElement elements eq.next with
                        | error x =>
                            rw [hr] at h
                            cases h
                        | ok er =>
                            rw [hr] at h
                            obtain ⟨rfl, rfl⟩ := Prod.mk.inj (Option.some.inj (Except.ok.inj h))
                            rfl

/-! ## States and steps -/

/-- A state of the list, and the store that is ahead of the writer of an inner replacement: the
writer, the new element and what goes into its `next` field. -/
structure Halves (τ : Type) where
  list : St τ
  half : Option (τ × Addr × Ptr)

variable {τ : Type}

/-- `new->next = p;` -/
def St.storeNext (s : St τ) (new : Addr) (p : Ptr) : St τ :=
  { s with elements := setNext s.elements new p }

/-- The state with the second store done. -/
def Halves.full (f : Halves τ) : St τ :=
  match f.half with
  | none => f.list
  | some (_, new, p) => f.list.storeNext new p

variable {s s' : St τ} {f f' : Halves τ} {t u : τ} {new : Addr} {p : Ptr} {xs : List Addr}

/-! ## The second store beside other steps -/

/-- The store leaves a hop alone that does not follow the link. -/
theorem hop_storeNext {key : Int32} {e : Fin 2} {q : Ptr}
    (h : q = some new → levelAt s.elements key new = true) :
    (s.storeNext new p).hop key e q = s.hop key e q := by
  cases q with
  | none => rfl
  | some a =>
      by_cases ha : a = new
      · subst ha
        obtain ⟨el, hel, hlevel⟩ := levelAt_iff.mp (h rfl)
        have hel' : (s.storeNext a p).elements a = some { el with next := p } := by
          simp [St.storeNext, setNext, hel]
        simp only [St.hop, hel, hel', hlevel, if_true]
      · have hsame : (s.storeNext new p).elements a = s.elements a := setNext_of_ne ha
        simp only [St.hop, hsame]

/-- The store of the new element and the `kfree` of another. -/
theorem kfree_storeNext {b : Addr} (hb : b ≠ new) :
    (s.storeNext new p).kfree (some b) = (s.kfree (some b)).storeNext new p := by
  have hcomm : setNext (Function.update s.elements b none) new p =
      Function.update (setNext s.elements new p) b none := by
    rw [setNext, setNext, Function.update_of_ne hb.symm, Function.update_comm hb.symm]
  simp only [St.kfree, St.storeNext, hcomm]

/-- The store of the new element and the allocation of another. -/
theorem allocate_storeNext (x : Entry) (hb : s.brk ≠ new) :
    (s.storeNext new p).allocate x = (s.allocate x).storeNext new p := by
  have hcomm : ∀ el, setNext (Function.update s.elements s.brk el) new p =
      Function.update (setNext s.elements new p) s.brk el := by
    intro el
    rw [setNext, setNext, Function.update_of_ne hb.symm, Function.update_comm hb.symm]
  simp only [St.allocate, St.storeNext, hcomm]

/-! ## Steps in halves -/

variable [DecidableEq τ]

/-- The statement of a writer at its relinking: the first store of an inner replacement, and all of
the relinking elsewhere. -/
def Halves.link (s : St τ) (t : τ) : Change → Halves τ
  | .replace key new =>
      match linkReplace s.elements s.brk s.list.head key new with
      | .ok (some (r, p)) =>
          { list := ({ s with elements := r.elements, list := { s.list with head := r.head } }).goto t
              (.relinked r.removed s.list.epoch)
            half := some (t, new, p) }
      | _ => { list := s.relink t (.replace key new), half := none }
  | c => { list := s.relink t c, half := none }

/-- With the second store done it is the coarse relinking. -/
theorem Halves.full_link (s : St τ) (t : τ) (c : Change) :
    (Halves.link s t c).full = s.relink t c := by
  cases c with
  | insert a => rfl
  | remove key => rfl
  | replace key new =>
      cases hlink : linkReplace s.elements s.brk s.list.head key new with
      | error x =>
          simp only [Halves.link, hlink]
          rfl
      | ok first =>
      cases first with
      | none =>
          simp only [Halves.link, hlink]
          rfl
      | some first =>
          obtain ⟨r, p⟩ := first
          have hr := relinkReplace_of_link hlink
          simp only [Halves.link, hlink, St.relink, Change.relink, hr]
          rfl

theorem step_locked {c : Change} (hp : s.pc t = .locked c) :
    Rcu.step s (t, .advance) = some (s.relink t c) := by
  show Rcu.advance s t = _
  simp only [Rcu.advance, hp]

/-- The next statement of thread `t`. -/
def Halves.advance (f : Halves τ) (t : τ) : Option (Halves τ) :=
  match f.half with
  | some (u, new, p) =>
      if t = u then some { list := f.list.storeNext new p, half := none }
      else (Rcu.advance f.list t).map fun s => { list := s, half := f.half }
  | none =>
      match f.list.pc t with
      | .locked c => some (Halves.link f.list t c)
      | _ => (Rcu.advance f.list t).map fun s => { list := s, half := none }

/-- One step of one thread. -/
def Halves.step (f : Halves τ) : τ × Act → Option (Halves τ)
  | (t, .advance) => f.advance t
  | lab => (Rcu.step f.list lab).map fun s => { list := s, half := f.half }

/-- The list, with inner replacements in two stores. -/
def halves (τ : Type) [DecidableEq τ] : System (Halves τ) (τ × Act) :=
  System.ofStep { list := initial, half := none } Halves.step

/-- No reader follows the link of a new element that is not stored yet. -/
def Stays (f : Halves τ) : τ × Act → Prop
  | (t, .advance) =>
      match f.half, f.list.pc t with
      | some (_, new, _), .walking key _ (some a) =>
          a = new → levelAt f.list.elements key new = true
      | _, _ => True
  | _ => True

/-- The guard: that of the coarse steps, and no reader on a link that is not there. -/
def Published (f : Halves τ) (lab : τ × Act) : Prop := Covered f.list lab ∧ Stays f lab

/-! ## The coarse steps answer -/

/-- Steps of the threads that neither relink nor free the new element nor follow its link. -/
theorem advance_storeNext (hs : Rcu.advance s t = some s') (hlocked : ∀ c, s.pc t ≠ .locked c)
    (hfree : s.pc t ≠ .unlocked (some new))
    (hstays : ∀ key e, s.pc t = .walking key e (some new) → levelAt s.elements key new = true) :
    Rcu.advance (s.storeNext new p) t = some (s'.storeNext new p) := by
  have hpc : (s.storeNext new p).pc t = s.pc t := rfl
  cases hp : s.pc t with simp only [Rcu.advance, hpc, hp] at hs ⊢
  | idle | asleep key i e | lost e | wild => cases hs
  | locked c => exact absurd hp (hlocked c)
  | sampled key e =>
      split at hs <;> obtain rfl := Option.some.inj hs <;> rfl
  | walking key e q =>
      obtain rfl := Option.some.inj hs
      rw [hop_storeNext fun hq => hstays key e (hq ▸ hp)]
      rfl
  | prepared c =>
      obtain ⟨hfree, ⟨⟩⟩ := Option.ite_none_right_eq_some.mp hs
      exact if_pos hfree
  | unlinked removed g | flipped removed g =>
      obtain ⟨hwait, ⟨⟩⟩ := Option.ite_none_left_eq_some.mp hs
      exact if_neg hwait
  | unlocked removed =>
      obtain rfl := Option.some.inj hs
      cases removed with
      | none => rfl
      | some b =>
          have hb : b ≠ new := by
            rintro rfl
            exact hfree hp
          rw [kfree_storeNext hb]
          rfl
  | _ =>
      obtain rfl := Option.some.inj hs
      rfl

/-- The calls, and the signal. -/
theorem call_storeNext {act : Act} (hs : Rcu.step s (t, act) = some s') (hact : act ≠ .advance)
    (hb : s.brk ≠ new) :
    Rcu.step (s.storeNext new p) (t, act) = some (s'.storeNext new p) := by
  have hpc : (s.storeNext new p).pc t = s.pc t := rfl
  cases act with
  | advance => exact absurd rfl hact
  | search key =>
      obtain ⟨hp, ⟨⟩⟩ := Option.ite_none_right_eq_some.mp hs
      exact if_pos hp
  | notify i =>
      obtain ⟨hp, ⟨⟩⟩ := Option.ite_none_right_eq_some.mp hs
      exact if_pos hp
  | signal =>
      cases hp : s.pc t with simp only [Rcu.step, hpc, hp] at hs ⊢
      | asleep key i e =>
          obtain rfl := Option.some.inj hs
          rfl
      | _ => cases hs
  | write op kmallocFails =>
      obtain ⟨hp, ⟨⟩⟩ := Option.ite_none_right_eq_some.mp hs
      have hwrite : (s.storeNext new p).write t op kmallocFails =
          (s.write t op kmallocFails).storeNext new p := by
        cases op with
        | remove key => rfl
        | insert x | replace x =>
            cases kmallocFails with
            | true => rfl
            | false =>
                show ((s.storeNext new p).allocate x).goto t _ = _
                rw [allocate_storeNext x hb]
                rfl
      rw [← hwrite]
      exact if_pos hp

/-! ## Runs in halves -/

/-- What the threads did not do themselves: a writer at its epoch stays there. -/
theorem pc_relinked {act : Act} {removed : Ptr} {g : Fin 2} (hs : Rcu.step s (t, act) = some s')
    (hu : u ≠ t) (hp : s.pc u = .relinked removed g) : s'.pc u = .relinked removed g := by
  by_cases hact : act = .advance
  · subst hact
    rcases pc_advance hs hu with hpc | ⟨i, hpc⟩
    · rw [hpc, hp]
    · rw [hpc, hp]
      rfl
  · rw [pc_call hs hact hu, hp]

/-- The writer whose second store is ahead has relinked, and its element is in the list that the
store completes. -/
structure Halves.Pending (f : Halves τ) (u : τ) (new : Addr) : Prop where
  relinked : ∃ removed g, f.list.pc u = .relinked removed g
  linked : ∃ xs, Seg (nextOf f.full.elements) f.full.list.head xs none ∧ new ∈ xs

/-- A step of another thread, or of the writer where nothing is ahead, is answered in the state with
the store done. -/
theorem Halves.full_step {act : Act} (hat : InvAt f.full xs) (hhalf : f.half = some (u, new, p))
    (hpend : f.Pending u new) (hstays : Stays f (t, act)) (hs : Rcu.step f.list (t, act) = some s')
    (hut : u ≠ t) : Rcu.step f.full (t, act) = some (s'.storeNext new p) := by
  obtain ⟨list, half⟩ := f
  subst hhalf
  obtain ⟨⟨removed, g, hrelinked⟩, ys, hys, hnew⟩ := hpend
  change list.pc u = .relinked removed g at hrelinked
  have hnewxs : new ∈ xs := by
    rw [hat.seg.unique hys]
    exact hnew
  by_cases hact : act = .advance
  · subst hact
    refine advance_storeNext hs ?_ ?_ ?_
    · -- the writer with the store ahead is in the critical section
      intro c hc
      change list.pc t = .locked c at hc
      have ht : (list.pc t).InSection := by simp [hc, Pc.InSection]
      have hu : (list.pc u).InSection := by simp [hrelinked, Pc.InSection]
      exact hut (hat.eq_of_section ht hu).symm
    · intro hfree
      change list.pc t = .unlocked (some new) at hfree
      have howns : (list.pc t).Owns new := by simp [hfree, Pc.Owns]
      exact (hat.owned t new howns).2 hnewxs
    · intro key e hwalk
      change list.pc t = .walking key e (some new) at hwalk
      simpa [Stays, hwalk] using hstays
  · refine call_storeNext hs hact ?_
    have hlt : new < list.brk := hat.lt_brk (hat.isSome hnewxs)
    exact Nat.ne_of_gt hlt

/-- The same with what the two states have in common kept: the writer has still its store ahead. -/
theorem Halves.Pending.step {act : Act} (hpend : f.Pending u new) (hat : InvAt f.full xs)
    (hhalf : f.half = some (u, new, p)) (hs : Rcu.step f.list (t, act) = some s')
    (hfull : Rcu.step f.full (t, act) = some (s'.storeNext new p)) (hut : u ≠ t) :
    Halves.Pending { list := s', half := f.half } u new := by
  obtain ⟨⟨removed, g, hrelinked⟩, ys, hys, hnew⟩ := hpend
  obtain rfl := hat.seg.unique hys
  have hpc : f.full.pc = f.list.pc := by simp only [Halves.full, hhalf]; rfl
  have hact : ∀ c, act = .advance → f.full.pc t ≠ .locked c := by
    intro c _ hc
    have ht : (f.full.pc t).InSection := by simp [hc, Pc.InSection]
    have hu : (f.full.pc u).InSection := by simp [hpc, hrelinked, Pc.InSection]
    exact hut (hat.eq_of_section ht hu).symm
  obtain ⟨hhead, hsame⟩ := hat.frame hfull hact
  refine ⟨⟨removed, g, pc_relinked hs hut hrelinked⟩, xs, ?_, hnew⟩
  have hfull' : Halves.full { list := s', half := f.half } = s'.storeNext new p := by
    simp only [Halves.full, hhalf]
  rw [hfull', hhead]
  exact hat.seg.congr fun a ha => by rw [nextOf, hsame a (.inl ha), nextOf]

/-- The state with the second store done is reached by the coarse steps. -/
structure Halves.Stands (f : Halves τ) : Prop where
  reached : Reached (rcuList τ) Covered f.full
  pending : ∀ u new p, f.half = some (u, new, p) → f.Pending u new

theorem Halves.stands_of_none (hhalf : f.half = none) (h : Reached (rcuList τ) Covered f.list) :
    f.Stands := by
  refine ⟨?_, ?_⟩
  · have hfull : f.full = f.list := by simp only [Halves.full, hhalf]
    rw [hfull]
    exact h
  · intro u new p hsome
    rw [hhalf] at hsome
    cases hsome

theorem Halves.stands_initial {f : Halves τ} (h : (halves τ).init f) : f.Stands := by
  obtain rfl := h
  exact stands_of_none rfl (.start rfl)

section Runs

variable [Fintype τ]

/-- The relinking of a writer, in one store or with the second one ahead. -/
theorem Halves.Stands.link {c : Change} (h : Reached (rcuList τ) Covered s)
    (hp : s.pc t = .locked c) (hok : Covered s (t, .advance)) : (Halves.link s t c).Stands := by
  have hreached : Reached (rcuList τ) Covered (Halves.link s t c).full := by
    rw [full_link]
    exact h.step hok (step_locked hp)
  refine ⟨hreached, fun u new' p' hhalf => ?_⟩
  cases c with
  | insert a => cases hhalf
  | remove key => cases hhalf
  | replace key new =>
      cases hlink : linkReplace s.elements s.brk s.list.head key new with
      | error x => simp [Halves.link, hlink] at hhalf
      | ok first =>
      cases first with
      | none => simp [Halves.link, hlink] at hhalf
      | some first =>
          obtain ⟨r, p⟩ := first
          simp only [Halves.link, hlink] at hhalf ⊢
          obtain ⟨rfl, rfl, rfl⟩ : t = u ∧ new = new' ∧ p = p' := by simpa using hhalf
          refine ⟨⟨r.removed, s.list.epoch, goto_pc_self ..⟩, ?_⟩
          -- the element that replaces another is in the list
          have hr := relinkReplace_of_link hlink
          obtain ⟨⟨_, xs, hat⟩, _⟩ := sound_of_reached h
          rcases hat.edit hp with ⟨_, _, _, hearly, _⟩ | ⟨r', ys, hr', hspec, hedit⟩
          · rw [Change.relink, hr] at hearly
            cases hearly
          · obtain rfl := Option.some.inj (Except.ok.inj (hr.symm.trans hr'))
            refine ⟨ys, hspec.seg, ?_⟩
            generalize r.removed = removed at hedit
            cases hedit with
            | replace => simp

/-- What the coarse steps make of a step in halves, on the state with the store done: the same step,
or none where the step is that store. -/
def Halves.Makes (f : Halves τ) (lab : τ × Act) (f' : Halves τ) : Prop :=
  (Covered f.full lab ∧ Rcu.step f.full lab = some f'.full) ∨
    (lab.2 = .advance ∧ f'.full = f.full)

/-- A step with no store ahead. -/
theorem Halves.Stands.step_whole {lab : τ × Act} (h : f.Stands) (hhalf : f.half = none)
    (hcovered : Covered f.list lab) (hs : f.step lab = some f') : f'.Stands ∧ f.Makes lab f' := by
  obtain ⟨t, act⟩ := lab
  have hfull : f.full = f.list := by simp only [Halves.full, hhalf]
  have hreached : Reached (rcuList τ) Covered f.list := hfull ▸ h.reached
  have hcoarse : ∀ s', Rcu.step f.list (t, act) = some s' →
      Halves.Stands { list := s', half := none } ∧
        f.Makes (t, act) { list := s', half := none } := by
    intro s' hs'
    refine ⟨stands_of_none rfl (hreached.step hcovered hs'), .inl ?_⟩
    rw [hfull]
    exact ⟨hcovered, hs'⟩
  cases act with
  | advance =>
      simp only [Halves.step, Halves.advance, hhalf] at hs
      split at hs
      · rename_i c hp
        obtain rfl := Option.some.inj hs
        refine ⟨Stands.link hreached hp hcovered, .inl ?_⟩
        rw [hfull, full_link]
        exact ⟨hcovered, step_locked hp⟩
      · obtain ⟨s', hs', rfl⟩ := Option.map_eq_some_iff.mp hs
        exact hcoarse s' hs'
  | _ =>
      obtain ⟨s', hs', rfl⟩ := Option.map_eq_some_iff.mp hs
      rw [hhalf]
      exact hcoarse s' hs'

/-- A step in halves. -/
theorem Halves.Stands.step {lab : τ × Act} (h : f.Stands) (hok : Published f lab)
    (hs : f.step lab = some f') : f'.Stands ∧ f.Makes lab f' := by
  obtain ⟨hcovered, hstays⟩ := hok
  cases hhalf : f.half with
  | none => exact h.step_whole hhalf hcovered hs
  | some ahead =>
      obtain ⟨t, act⟩ := lab
      obtain ⟨u, new, p⟩ := ahead
      have hpend := h.pending u new p hhalf
      obtain ⟨⟨_, xs, hat⟩, _⟩ := sound_of_reached h.reached
      have hfull : f.full = f.list.storeNext new p := by simp only [Halves.full, hhalf]
      -- a step of another thread
      have hother : ∀ s', Rcu.step f.list (t, act) = some s' → u ≠ t →
          Halves.Stands { list := s', half := f.half } ∧
            f.Makes (t, act) { list := s', half := f.half } := by
        intro s' hs' hut
        have hstep := full_step hat hhalf hpend hstays hs' hut
        have hfull' : Halves.full { list := s', half := f.half } = s'.storeNext new p := by
          simp only [Halves.full, hhalf]
        have hcovered' : Covered f.full (t, act) := by
          rw [hfull]
          exact hcovered
        rw [← hfull'] at hstep
        refine ⟨⟨h.reached.step hcovered' hstep, fun v new' p' hhalf' => ?_⟩,
          .inl ⟨hcovered', hstep⟩⟩
        obtain ⟨rfl, rfl, rfl⟩ : u = v ∧ new = new' ∧ p = p' := by
          simpa [hhalf] using hhalf'
        exact hpend.step hat hhalf hs' (hfull' ▸ hstep) hut
      cases act with
      | advance =>
          simp only [Halves.step, Halves.advance, hhalf] at hs
          by_cases hut : t = u
          · rw [if_pos hut] at hs
            obtain rfl := Option.some.inj hs
            exact ⟨stands_of_none rfl (hfull ▸ h.reached), .inr ⟨rfl, hfull.symm⟩⟩
          · rw [if_neg hut] at hs
            obtain ⟨s', hs', rfl⟩ := Option.map_eq_some_iff.mp hs
            rw [← hhalf]
            exact hother s' hs' fun huv => hut huv.symm
      | _ =>
          obtain ⟨s', hs', rfl⟩ := Option.map_eq_some_iff.mp hs
          refine hother s' hs' ?_
          rintro rfl
          obtain ⟨removed, g, hp⟩ := hpend.relinked
          simp [Rcu.step, hp] at hs'

theorem Halves.stands_of_reached (h : Reached (halves τ) Published f) : f.Stands :=
  h.invariant (fun _ => stands_initial) fun _ _ _ hi hok hs => (hi.step hok hs).1

/-- **An inner replacement may take two stores.** In every run that stays clear of the epoch race, the
signal and the levels there are not, and in which no reader follows the link of a new element before
it is stored, for any number of threads: the state with the store done is one the coarse steps
reach, under the same guard but for the link. -/
theorem replacements_published (h : Reached (halves τ) Published f) :
    Reached (rcuList τ) Covered f.full :=
  (Halves.stands_of_reached h).reached

end Runs

instance (f : Halves (Fin 3)) (lab : Fin 3 × Act) : Decidable (Stays f lab) := by
  rcases lab with ⟨t, act⟩
  rcases act <;> dsimp only [Stays] <;> first | infer_instance | (split <;> infer_instance)

instance (f : Halves (Fin 3)) (lab : Fin 3 × Act) : Decidable (Published f lab) :=
  inferInstanceAs (Decidable (_ ∧ _))

def level3 : Fin levelDeep := 3

/-- Thread 1 inserts elements at the levels 5, 3 and 4. -/
def threeInserted : List (Fin 3 × Act) :=
  inserted ++ (1, .write (.insert ⟨3, none, 0⟩) false) :: statements 1 6 ++
    (1, .write (.insert ⟨4, none, 0⟩) false) :: statements 1 6

/-- Thread 0 searches the level and looks at the first element when thread 1 replaces the second
one, up to its first store. -/
def overtaken (key : Int32) (i : Fin levelDeep) : List (Fin 3 × Act) :=
  threeInserted ++ (0, .search key) :: statements 0 2 ++ (2, .notify i) :: statements 2 1 ++
    statements 0 3 ++ (1, .write (.replace ⟨3, none, 1⟩) false) :: statements 1 2

/-- The reader finds the new element when its link is not stored yet. -/
theorem replacements_published_found : ∃ f : Halves (Fin 3),
    (f.half = some (1, 3, some 0) ∧ f.list.pc 0 = .leaving 1 (some 3)) ∧
      Reached (rcuList (Fin 3)) Covered f.full := by
  obtain ⟨f, hf, hp⟩ : ∃ f : Halves (Fin 3), Reached (halves (Fin 3)) Published f ∧
      (f.half = some (1, 3, some 0) ∧ f.list.pc 0 = .leaving 1 (some 3)) :=
    exists_reached_of_replay Halves.step _ (overtaken 3 level3 ++ statements 0 2) (by decide +kernel)
  exact ⟨f, hp, replacements_published hf⟩

/-- The reader of another level follows the link: it is told that level 5 is not in the list, which
it is, before the second store and after it. -/
example : ∃ f : Halves (Fin 3), Reached (halves (Fin 3)) (fun f => Covered f.list) f ∧
    f.list.pc 0 = .returned none ∧ f.half = some (1, 3, some 0) ∧
    findLevel f.full.elements 5 f.full.brk f.full.list.head = .ok (some 0) :=
  exists_reached_of_replay Halves.step _ (overtaken 5 level5 ++ statements 0 4) (by decide +kernel)

end TagMessaging.Rcu
