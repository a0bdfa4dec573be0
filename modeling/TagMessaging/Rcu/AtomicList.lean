/-
# TagMessaging.Rcu.AtomicList -- the writers refine a list that is written atomically

The abstract object is a sequence of entries and one pending write for each thread. A write takes
effect in one step, some time between its call and its return: `rcu_list_insert` puts its entry in
front, `rcu_list_replace` puts it in the place of the first one of its level, `rcu_list_remove` takes
the first one of the level out. Every step of `rcu-list.c` is one of that object with the same label
(`Represents.step`): a write takes effect at its relinking, and the element it allocated keeps the
entry until then.
-/
import TagMessaging.Rcu.Edits

namespace TagMessaging.Rcu

open TagMessaging.Model TagMessaging.Lib.Transition TagMessaging.Lib.Segment
open TagMessaging.Lib.FirstMatch

/-! ## The object -/

/-- What a write does to the sequence of entries. -/
def Write.apply : Write → List Entry → List Entry
  | .insert x, es => x :: es
  | .replace x, es => replaceFirst (fun y => y.level == x.level) x es
  | .remove key, es => es.eraseP fun y => y.level == key

/-- The entries, and the writes that were called and have not taken effect. -/
structure AtomicList (τ : Type) where
  entries : List Entry
  pending : τ → Option Write

variable {τ : Type}

/-- The state of the object before any call. -/
def AtomicList.initial : AtomicList τ := { entries := [], pending := fun _ => none }

/-- The steps of the object, under the labels of `rcu-list.c`. -/
inductive AtomicList.Step [DecidableEq τ] (l : AtomicList τ) : τ × Act → AtomicList τ → Prop
  /-- A write is called. -/
  | call (t : τ) (op : Write) (kmallocFails : Bool) : l.pending t = none →
      Step l (t, .write op kmallocFails) { l with pending := Function.update l.pending t (some op) }
  /-- A write is called, and there is no memory for its entry. -/
  | noMemory (t : τ) (op : Write) : op.entry.isSome → Step l (t, .write op true) l
  /-- The write of a thread takes effect. -/
  | effect (t : τ) (op : Write) : l.pending t = some op →
      Step l (t, .advance)
        { entries := op.apply l.entries, pending := Function.update l.pending t none }
  | advance (t : τ) : Step l (t, .advance) l
  | search (t : τ) (key : Int32) : Step l (t, .search key) l
  | notify (t : τ) (i : Fin levelDeep) : Step l (t, .notify i) l
  | signal (t : τ) : Step l (t, .signal) l

/-- The object. -/
def atomicList (τ : Type) [DecidableEq τ] : System (AtomicList τ) (τ × Act) where
  init := fun l => l = AtomicList.initial
  step := AtomicList.Step

/-! ## The abstraction -/

/-- The change of a writer that has not relinked yet. -/
def Pc.change : Pc → Option Change
  | .prepared c => some c
  | .locked c => some c
  | _ => none

/-- The change is that of the call, and its element carries the entry of the call. -/
def Write.Fits (elements : Addr → Option Element) : Write → Change → Prop
  | .insert x, .insert a => entryAt elements a = some x
  | .replace x, .replace key a => key = x.level ∧ entryAt elements a = some x
  | .remove key, .remove key' => key' = key
  | _, _ => False

/-- The writes pending in the object are those that have not relinked yet. -/
def Pends (elements : Addr → Option Element) : Option Change → Option Write → Prop
  | some c, some op => op.Fits elements c
  | none, none => True
  | _, _ => False

/-- The object that a state of `rcu-list.c` stands for: the entries along the list, and the writes
between their call and their relinking. -/
structure Represents (s : St τ) (l : AtomicList τ) : Prop where
  entries : ∃ xs, Seg (nextOf s.elements) s.list.head xs none ∧
    xs.map (entryAt s.elements) = l.entries.map some
  pending : ∀ t, Pends s.elements (s.pc t).change (l.pending t)

variable {s s' : St τ} {l : AtomicList τ} {t u : τ} {xs ys : List Addr} {es : List Entry}
variable {elements elements' : Addr → Option Element} {c : Change} {op : Write} {p : Pc}

theorem Pc.owns_of_change {a : Addr} (h : p.change = some c) (ha : c.newElement = some a) :
    p.Owns a := by
  cases p with
  | prepared c' | locked c' =>
      obtain rfl := Option.some.inj h
      exact ha
  | _ => cases h

/-- Whether a write fits depends on the entry of its element. -/
theorem Write.Fits.congr (h : op.Fits elements c)
    (heq : ∀ a, c.newElement = some a → entryAt elements' a = entryAt elements a) :
    op.Fits elements' c := by
  cases op with
  | insert x =>
      cases c with
      | insert a => exact (heq a rfl).trans h
      | _ => exact h.elim
  | replace x =>
      cases c with
      | replace key a => exact ⟨h.1, (heq a rfl).trans h.2⟩
      | _ => exact h.elim
  | remove key => cases c <;> exact h

/-! ## The relinking is the effect -/

/-- Entries of elements without the key. -/
theorem entries_of_absent {key : Int32} (h : xs.map (entryAt elements) = es.map some)
    (habs : ∀ b ∈ xs, ¬ LevelIs elements key b) : ∀ y ∈ es, (y.level == key) = false := by
  intro y hy
  have hin : some y ∈ xs.map (entryAt elements) := by
    rw [h]
    exact List.mem_map_of_mem hy
  obtain ⟨b, hb, hby⟩ := List.mem_map.mp hin
  refine beq_eq_false_iff_ne.mpr fun hlevel => habs b hb ?_
  exact levelIs_iff_entryAt.mpr ⟨y, hby, hlevel⟩

/-- The list is cut at the first element with the key, and so are its entries. -/
theorem entries_of_first {pre post : List Addr} {a : Addr} {key : Int32}
    (h : (pre ++ a :: post).map (entryAt elements) = es.map some)
    (hpre : ∀ b ∈ pre, ¬ LevelIs elements key b) (ha : LevelIs elements key a) :
    ∃ es₁ x es₂, es = es₁ ++ x :: es₂ ∧ (∀ y ∈ es₁, (y.level == key) = false) ∧
      (x.level == key) = true ∧ pre.map (entryAt elements) = es₁.map some ∧
      post.map (entryAt elements) = es₂.map some := by
  rw [List.map_append] at h
  obtain ⟨es₁, rest, rfl, hes₁, hrest⟩ := List.append_eq_map_iff.mp h
  cases rest with
  | nil => simp at hrest
  | cons x es₂ =>
      rw [List.map_cons, List.map_cons, List.cons.injEq] at hrest
      refine ⟨es₁, x, es₂, rfl, entries_of_absent hes₁.symm hpre, ?_, hes₁.symm, hrest.2.symm⟩
      obtain ⟨y, hy, hlevel⟩ := levelIs_iff_entryAt.mp ha
      obtain rfl : y = x := Option.some.inj (hy.symm.trans hrest.1.symm)
      exact beq_iff_eq.mpr hlevel

/-- An edit does to the entries what the write of the call does. -/
theorem Edit.entries {removed : Ptr} (he : Edit elements c xs ys removed)
    (h : xs.map (entryAt elements) = es.map some) (hfit : op.Fits elements c) :
    ys.map (entryAt elements) = (op.apply es).map some := by
  cases he with
  | insert =>
      cases op with
      | insert x =>
          have hx : entryAt elements _ = some x := hfit
          rw [List.map_cons, h, hx]
          rfl
      | _ => exact hfit.elim
  | @replace key new a pre post hpre ha =>
      cases op with
      | replace x =>
          obtain ⟨rfl, hx⟩ := hfit
          obtain ⟨es₁, y, es₂, rfl, hes₁, hy, hpre', hpost'⟩ := entries_of_first h hpre ha
          rw [Write.apply, replaceFirst_append hes₁ hy, List.map_append, List.map_append,
            List.map_cons, List.map_cons, hpre', hpost', hx]
      | _ => exact hfit.elim
  | @remove key a pre post hpre ha =>
      cases op with
      | remove key' =>
          obtain rfl : key = key' := hfit
          obtain ⟨es₁, y, es₂, rfl, hes₁, hy, hpre', hpost'⟩ := entries_of_first h hpre ha
          have herase : (es₁ ++ y :: es₂).eraseP (fun y => y.level == key) = es₁ ++ es₂ := by
            rw [List.eraseP_append_right _ fun b hb => by simp [hes₁ b hb],
              List.eraseP_cons_of_pos (p := fun z : Entry => z.level == key) hy]
          rw [Write.apply, herase, List.map_append, List.map_append, hpre', hpost']
      | _ => exact hfit.elim
  | @absent key xs habs =>
      cases op with
      | remove key' =>
          obtain rfl : key = key' := hfit
          have hkeep : es.eraseP (fun y => y.level == key) = es :=
            List.eraseP_of_forall_not fun y hy => by simp [entries_of_absent h habs y hy]
          rw [Write.apply, hkeep, h]
      | _ => exact hfit.elim

/-! ## The other steps -/

theorem change_wake (i : Fin levelDeep) : (p.wake i).change = p.change :=
  (wake_iff (P := fun q => q.change = p.change) fun _ _ _ => Iff.rfl).mpr rfl

theorem change_relinked (c : Change) (removed : Ptr) (g : Fin 2) :
    (c.relinked removed g).change = none := by
  cases c <;> rfl

theorem change_hop (key : Int32) (e : Fin 2) (q : Ptr) : (s.hop key e q).change = none := by
  unfold St.hop
  split
  · rfl
  · split
    · rfl
    · split <;> rfl

theorem represents_initial : Represents (initial : St τ) AtomicList.initial :=
  ⟨⟨[], rfl, rfl⟩, fun _ => trivial⟩

variable [DecidableEq τ]

/-- A thread keeps its change until it relinks. -/
theorem change_advance (hs : Rcu.advance s t = some s') (ht : ∀ c, s.pc t ≠ .locked c) :
    (s'.pc t).change = (s.pc t).change := by
  cases hp : s.pc t with simp only [Rcu.advance, hp] at hs
  | idle | asleep key i e | lost e | wild => cases hs
  | locked c => exact absurd hp (ht c)
  | sampled key e => split at hs <;> obtain rfl := Option.some.inj hs <;> simp [Pc.change]
  | queued key i e =>
      obtain rfl := Option.some.inj hs
      rw [goto_pc_self]
      split <;> rfl
  | walking key e q =>
      obtain rfl := Option.some.inj hs
      rw [goto_pc_self, change_hop]
      rfl
  | prepared c =>
      obtain ⟨_, ⟨⟩⟩ := Option.ite_none_right_eq_some.mp hs
      simp [Pc.change]
  | unlinked removed g | flipped removed g =>
      obtain ⟨_, ⟨⟩⟩ := Option.ite_none_left_eq_some.mp hs
      simp [Pc.change]
  | unlocked removed =>
      obtain rfl := Option.some.inj hs
      simp [Pc.change]
  | notifying i =>
      obtain rfl := Option.some.inj hs
      simp [Pc.change]
  | _ =>
      obtain rfl := Option.some.inj hs
      simp [Pc.change]

/-- A step that calls no writer and relinks nothing leaves every thread its change. -/
theorem change_step {act : Act} (hs : Rcu.step s (t, act) = some s')
    (hwrite : ∀ op kmallocFails, act ≠ .write op kmallocFails)
    (hlocked : ∀ c, act = .advance → s.pc t ≠ .locked c) (u : τ) :
    (s'.pc u).change = (s.pc u).change := by
  by_cases hu : u = t
  · subst hu
    cases act with
    | advance => exact change_advance hs fun c => hlocked c rfl
    | write op kmallocFails => exact absurd rfl (hwrite op kmallocFails)
    | search key =>
        obtain ⟨hp, ⟨⟩⟩ := Option.ite_none_right_eq_some.mp hs
        simp [hp, Pc.change]
    | notify i =>
        obtain ⟨hp, ⟨⟩⟩ := Option.ite_none_right_eq_some.mp hs
        simp [hp, Pc.change]
    | signal =>
        cases hp : s.pc u with simp only [Rcu.step, hp] at hs
        | asleep key i e =>
            obtain rfl := Option.some.inj hs
            rw [goto_pc_self]
            split <;> rfl
        | _ => cases hs
  · by_cases hact : act = .advance
    · subst hact
      rcases pc_advance hs hu with hpc | ⟨i, hpc⟩
      · rw [hpc]
      · rw [hpc, change_wake]
    · rw [pc_call hs hact hu]

/-- The element of a thread that has not relinked keeps its entry. -/
theorem InvAt.entry_pending {act : Act} {a : Addr} (h : InvAt s xs)
    (hs : Rcu.step s (t, act) = some s') (hc : (s.pc u).change = some c)
    (ha : c.newElement = some a) : entryAt s'.elements a = entryAt s.elements a := by
  have howns := Pc.owns_of_change hc ha
  by_cases hact : act = .advance
  · subst hact
    rcases h.entry_advance hs a with hsame | ⟨hp, _⟩
    · exact hsame
    · obtain rfl := h.distinct u t a howns (by simp [hp, Pc.Owns])
      rw [hp] at hc
      cases hc
  · rcases entry_call hs hact a with hsame | ⟨rfl, _⟩
    · exact hsame
    · exact absurd (h.lt_brk (h.owned u _ howns).1) (Nat.lt_irrefl _)

theorem Pends.congr {change : Option Change} {pending : Option Write}
    (h : Pends elements change pending)
    (heq : ∀ c a, change = some c → c.newElement = some a →
      entryAt elements' a = entryAt elements a) :
    Pends elements' change pending := by
  cases change with
  | none => cases pending <;> exact h
  | some c =>
      cases pending with
      | none => exact h
      | some op => exact Write.Fits.congr h fun a ha => heq c a rfl ha

/-- A step that calls no writer and relinks nothing changes nothing of the object. -/
theorem Represents.stutter {act : Act} (hat : InvAt s xs) (h : Represents s l)
    (hs : Rcu.step s (t, act) = some s')
    (hwrite : ∀ op kmallocFails, act ≠ .write op kmallocFails)
    (hlocked : ∀ c, act = .advance → s.pc t ≠ .locked c) : Represents s' l := by
  obtain ⟨hhead, hsame⟩ := hat.frame hs hlocked
  refine ⟨?_, fun u => ?_⟩
  · obtain ⟨ys, hseg, hentries⟩ := h.entries
    obtain rfl := hseg.unique hat.seg
    refine ⟨ys, ?_, ?_⟩
    · rw [hhead]
      exact hseg.congr fun a ha => by rw [nextOf, hsame a (.inl ha), nextOf]
    · rw [← hentries]
      exact List.map_congr_left fun a ha => by rw [entryAt, hsame a (.inl ha), entryAt]
  · rw [change_step hs hwrite hlocked u]
    exact (h.pending u).congr fun c a hc ha => hat.entry_pending hs hc ha

/-- The relinking. -/
theorem Represents.relink (hat : InvAt s xs) (h : Represents s l) (hp : s.pc t = .locked c) :
    ∃ l', AtomicList.Step l (t, .advance) l' ∧ Represents (s.relink t c) l' := by
  obtain ⟨ys, hseg, hentries⟩ := h.entries
  obtain rfl := hseg.unique hat.seg
  have hpend := h.pending t
  rw [hp] at hpend
  cases hop : l.pending t with
  | none =>
      rw [hop] at hpend
      exact hpend.elim
  | some op =>
      rw [hop] at hpend
      have hfit : op.Fits s.elements c := hpend
      refine ⟨_, .effect t op hop, ?_⟩
      have hpending : ∀ {s₁ : St τ} {p : Pc}, s₁.pc = s.pc → p.change = none →
          entryAt s₁.elements = entryAt s.elements → ∀ u, Pends (s₁.goto t p).elements
            ((s₁.goto t p).pc u).change (Function.update l.pending t none u) := by
        intro s₁ p hpc hnone hsame u
        by_cases hu : u = t
        · subst hu
          rw [goto_pc_self, hnone, Function.update_self]
          trivial
        · rw [goto_pc, if_neg hu, Function.update_of_ne hu, hpc]
          exact (h.pending u).congr fun _ a _ _ => congrFun hsame a
      rcases hat.edit hp with ⟨key, new, rfl, hr, habs⟩ | ⟨r, zs, hr, hspec, hedit⟩
      · -- the early return: there is nothing to replace
        simp only [St.relink, hr]
        cases op with
        | replace x =>
            obtain ⟨rfl, hx⟩ := hfit
            refine ⟨⟨ys, hseg, ?_⟩, hpending rfl rfl rfl⟩
            have hkeep : (Write.replace x).apply l.entries = l.entries :=
              replaceFirst_of_absent (entries_of_absent hentries habs)
            show ys.map (entryAt s.elements) = ((Write.replace x).apply l.entries).map some
            rw [hkeep, hentries]
        | _ => exact hfit.elim
      · simp only [St.relink, hr]
        refine ⟨⟨zs, hspec.seg, ?_⟩, hpending rfl (change_relinked ..) hspec.entries⟩
        show zs.map (entryAt r.elements) = _
        rw [hspec.entries]
        exact hedit.entries hentries hfit

/-- The call of a writer. -/
theorem Represents.write {kmallocFails : Bool} (hat : InvAt s xs) (h : Represents s l)
    (hp : s.pc t = .idle) :
    ∃ l', AtomicList.Step l (t, .write op kmallocFails) l' ∧
      Represents (s.write t op kmallocFails) l' := by
  -- an idle thread has no write pending
  have hnone : l.pending t = none := by
    have hpend := h.pending t
    rw [hp] at hpend
    cases hop : l.pending t with
    | none => rfl
    | some op =>
        rw [hop] at hpend
        exact hpend.elim
  -- a call changes no element that is there: the entries and the other pending writes stay
  have hcall : ∀ {s₁ : St τ} {c : Change}, s₁.pc = s.pc → s₁.list.head = s.list.head →
      (∀ a, (s.elements a).isSome → s₁.elements a = s.elements a) → op.Fits s₁.elements c →
      Represents (s₁.goto t (.prepared c))
        { l with pending := Function.update l.pending t (some op) } := by
    intro s₁ c hpc hhead hsame hfit
    obtain ⟨ys, hseg, hentries⟩ := h.entries
    obtain rfl := hseg.unique hat.seg
    refine ⟨⟨ys, ?_, ?_⟩, fun u => ?_⟩
    · show Seg (nextOf s₁.elements) s₁.list.head ys none
      rw [hhead]
      exact hseg.congr fun a ha => by rw [nextOf, hsame a (hat.isSome ha), nextOf]
    · rw [← hentries]
      refine List.map_congr_left fun a ha => ?_
      show entryAt s₁.elements a = _
      rw [entryAt, hsame a (hat.isSome ha), entryAt]
    · by_cases hu : u = t
      · subst hu
        rw [goto_pc_self]
        show Pends _ _ (Function.update l.pending u (some op) u)
        rw [Function.update_self]
        exact hfit
      · rw [goto_pc, if_neg hu]
        show Pends _ _ (Function.update l.pending t (some op) u)
        rw [Function.update_of_ne hu, hpc]
        refine (h.pending u).congr fun c a hc ha => ?_
        show entryAt s₁.elements a = _
        rw [entryAt, hsame a (hat.owned u a (Pc.owns_of_change hc ha)).1, entryAt]
  have hfresh : ∀ x a, (s.elements a).isSome → (s.allocate x).elements a = s.elements a := by
    intro x a ha
    exact Function.update_of_ne (Nat.ne_of_lt (hat.lt_brk ha)) ..
  have hfilled : ∀ x, entryAt (s.allocate x).elements s.brk = some x := by
    intro x
    simp [St.allocate, entryAt, Element.entry]
  cases op with
  | remove key => exact ⟨_, .call t _ _ hnone, hcall rfl rfl (fun _ _ => rfl) rfl⟩
  | insert x =>
      cases kmallocFails with
      | true => exact ⟨l, .noMemory t _ rfl, h⟩
      | false => exact ⟨_, .call t _ _ hnone, hcall rfl rfl (hfresh x) (hfilled x)⟩
  | replace x =>
      cases kmallocFails with
      | true => exact ⟨l, .noMemory t _ rfl, h⟩
      | false => exact ⟨_, .call t _ _ hnone, hcall rfl rfl (hfresh x) ⟨rfl, hfilled x⟩⟩

/-- Every step of the list is one of the object. -/
theorem Represents.step {act : Act} (hat : InvAt s xs) (h : Represents s l)
    (hs : Rcu.step s (t, act) = some s') :
    ∃ l', AtomicList.Step l (t, act) l' ∧ Represents s' l' := by
  cases act with
  | write op kmallocFails =>
      obtain ⟨hp, ⟨⟩⟩ := Option.ite_none_right_eq_some.mp hs
      exact h.write hat hp
  | advance =>
      by_cases hlocked : ∃ c, s.pc t = .locked c
      · obtain ⟨c, hp⟩ := hlocked
        have hs' : Rcu.advance s t = some s' := hs
        simp only [Rcu.advance, hp] at hs'
        obtain rfl := Option.some.inj hs'
        exact h.relink hat hp
      · exact ⟨l, .advance t, h.stutter hat hs (by simp) fun c _ hc => hlocked ⟨c, hc⟩⟩
  | search key => exact ⟨l, .search t key, h.stutter hat hs (by simp) (by simp)⟩
  | notify i => exact ⟨l, .notify t i, h.stutter hat hs (by simp) (by simp)⟩
  | signal => exact ⟨l, .signal t, h.stutter hat hs (by simp) (by simp)⟩

end TagMessaging.Rcu
