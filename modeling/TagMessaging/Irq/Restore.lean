/-
# TagMessaging.Irq.Restore -- which interrupt state a writer restores

`write_lock` keeps the writers of one list apart, so between its store in `flags` and its restore
from there a writer can only lose the variable to a writer of another list. `Agreed` is the guard
that says this does no harm: whoever stores a state in `flags` finds there, for the writers of other
lists that have still to restore, the same state. Under it every writer restores what it saved.
Without it a CPU that entered with interrupts on leaves with them off.
-/
import TagMessaging.Irq.Steps

namespace TagMessaging.Irq

open TagMessaging.Model TagMessaging.Rcu TagMessaging.Lib.Transition

variable {κ ι : Type} {s s' : St κ ι} {t u : κ} {p : Pc ι} {k : Task ι} {l : ι} {on : Bool}

/-- The operation of a CPU between its store in `flags` and its restore from there. -/
def Pc.keeps : Pc ι → Option (Task ι)
  | .locked k _ | .unlinked k _ _ | .relinked k _ _ | .flipped k _ _ | .drained k _ => some k
  | _ => none

/-- The CPU is between `write_lock` and `write_unlock` of the list. -/
def Pc.Holds (l : ι) : Pc ι → Prop
  | .entered k _ _ | .locked k _ | .unlinked k _ _ | .relinked k _ _ | .flipped k _ _
  | .drained k _ => k.list = l
  | _ => False

/-- A CPU that stores the state it saved finds that the writers of other lists, which have still to
restore theirs, saved the same. -/
def Agreed (s : St κ ι) : κ × Act ι → Prop
  | (t, .advance) =>
      match s.pc t with
      | .entered k _ saved =>
          ∀ u, ∀ k' ∈ (s.pc u).keeps, k'.list ≠ k.list → k'.before = saved
      | _ => True
  | _ => True

/-- Every operation that has returned left its CPU as it found it. -/
def Restored (s : St κ ι) : Prop := ∀ t k, s.pc t = .returned k → s.irq t = k.before

/-- The interrupt state of a CPU, where it is known. -/
def Pc.AsSaved (on : Bool) : Pc ι → Prop
  | .prepared k _ | .unlocked k _ | .returned k => on = k.before
  | .entered k _ saved => saved = k.before
  | _ => True

/-- Locks are held by the CPUs inside, `flags` holds what each of them will restore, and outside the
lock interrupts are as they were. -/
structure Kept (s : St κ ι) : Prop where
  holds : ∀ u l, (s.pc u).Holds l → s.lock l = some u
  keeps : ∀ u, ∀ k ∈ (s.pc u).keeps, s.flags = k.before
  irq : ∀ u, (s.pc u).AsSaved (s.irq u)

theorem kept_initial : Kept (initial : St κ ι) :=
  ⟨fun _ _ h => h.elim, fun _ _ h => by simp [initial, Pc.keeps] at h, fun _ => trivial⟩

/-- A CPU that will restore holds the lock of its list. -/
theorem Pc.holds_of_keeps (h : k ∈ p.keeps) : p.Holds k.list := by
  cases p with
  | locked k' | unlinked k' | relinked k' | flipped k' | drained k' =>
      obtain rfl : k' = k := Option.some.inj h
      exact rfl
  | _ => cases h

variable [DecidableEq κ]

@[simp] theorem goto_pc_self : (s.goto t p).pc t = p := Function.update_self ..

theorem goto_pc_of_ne (h : u ≠ t) : (s.goto t p).pc u = s.pc u := Function.update_of_ne h ..

/-- A step of one CPU: what has to be seen of the CPU itself and of the others. -/
theorem Kept.step (h : Kept s) (hpc : s'.pc = s.pc)
    (hlock : ∀ u l, u ≠ t → (s.pc u).Holds l → s'.lock l = some u)
    (hflags : ∀ u k, u ≠ t → k ∈ (s.pc u).keeps → s'.flags = k.before)
    (hirq : ∀ u, u ≠ t → s'.irq u = s.irq u)
    (hp : ∀ l, p.Holds l → s'.lock l = some t) (hk : ∀ k ∈ p.keeps, s'.flags = k.before)
    (hi : p.AsSaved (s'.irq t)) : Kept (s'.goto t p) := by
  have hother : ∀ u, u ≠ t → (s'.goto t p).pc u = s.pc u := by
    intro u hu
    rw [goto_pc_of_ne hu, hpc]
  refine ⟨fun u l hl => ?_, fun u k hkeep => ?_, fun u => ?_⟩
  · by_cases hu : u = t
    · subst hu
      rw [goto_pc_self] at hl
      exact hp l hl
    · rw [hother u hu] at hl
      exact hlock u l hu hl
  · by_cases hu : u = t
    · subst hu
      rw [goto_pc_self] at hkeep
      exact hk k hkeep
    · rw [hother u hu] at hkeep
      exact hflags u k hu hkeep
  · by_cases hu : u = t
    · subst hu
      rw [goto_pc_self]
      exact hi
    · rw [hother u hu]
      show (s.pc u).AsSaved (s'.irq u)
      rw [hirq u hu]
      exact h.irq u

/-- A step that touches neither locks nor `flags` nor the interrupt state. -/
theorem Kept.pass (h : Kept s) (hpc : s'.pc = s.pc) (hlock : s'.lock = s.lock)
    (hflags : s'.flags = s.flags) (hirq : s'.irq = s.irq)
    (hp : ∀ l, p.Holds l → (s.pc t).Holds l) (hk : ∀ k ∈ p.keeps, k ∈ (s.pc t).keeps)
    (hi : p.AsSaved (s.irq t)) : Kept (s'.goto t p) := by
  refine h.step hpc ?_ ?_ ?_ ?_ ?_ ?_
  · intro u l _ hl
    rw [hlock]
    exact h.holds u l hl
  · intro u k _ hkeep
    rw [hflags]
    exact h.keeps u k hkeep
  · intro u _
    rw [hirq]
  · intro l hl
    rw [hlock]
    exact h.holds t l (hp l hl)
  · intro k hkeep
    rw [hflags]
    exact h.keeps t k (hk k hkeep)
  · rw [hirq]
    exact hi

variable [DecidableEq ι]

/-- Where a writer stands after its relinking. -/
theorem relink_pc (r : Rcu.St κ) (t : κ) (c : Rcu.Change) :
    (r.relink t c).pc t = .wild ∨ (r.relink t c).pc t = .idle ∨
      ∃ removed g, (r.relink t c).pc t = c.relinked removed g := by
  unfold Rcu.St.relink
  split
  · exact .inl (Rcu.goto_pc_self ..)
  · exact .inr (.inl (Rcu.goto_pc_self ..))
  · exact .inr (.inr ⟨_, _, Rcu.goto_pc_self ..⟩)

/-- The relinking, whatever it finds. -/
theorem Kept.relink {c : Rcu.Change} (h : Kept s) (hp : s.pc t = .locked k c) :
    Kept (s.relink t k c) := by
  unfold St.relink St.take
  rcases relink_pc (s.on k.list) t c with hpc | hpc | ⟨removed, g, hpc⟩ <;> rw [hpc]
  · exact h.pass rfl rfl rfl rfl (fun _ hl => hl.elim) (fun _ hk => by cases hk) trivial
  · exact h.pass rfl rfl rfl rfl (fun _ hl => hl.elim) (fun _ hk => by cases hk) trivial
  · refine h.pass rfl rfl rfl rfl ?_ ?_ ?_
    · intro l hl
      rw [hp]
      cases c <;> exact hl
    · intro k' hkeep
      rw [hp]
      cases c <;> exact hkeep
    · cases c <;> exact trivial

/-- Where a writer stands after its call. -/
theorem write_pc (r : Rcu.St κ) (t : κ) (op : Write) (kmallocFails : Bool) (hidle : r.pc t = .idle) :
    (r.write t op kmallocFails).pc t = .idle ∨
      ∃ c, (r.write t op kmallocFails).pc t = .prepared c := by
  unfold Rcu.St.write
  split
  · exact .inr ⟨_, Rcu.goto_pc_self ..⟩
  · split
    · exact .inl hidle
    · exact .inr ⟨_, Rcu.goto_pc_self ..⟩

/-- The next statement of a CPU. -/
theorem kept_advance (h : Kept s) (hok : Agreed s (t, .advance)) (hs : advance s t = some s') :
    Kept s' := by
  cases hp : s.pc t with simp only [advance, hp] at hs
  | idle | wild => cases hs
  | prepared k c =>
      obtain ⟨hfree, ⟨⟩⟩ := Option.ite_none_right_eq_some.mp hs
      have hirq : s.irq t = k.before := by
        have hi := h.irq t
        rwa [hp] at hi
      refine h.step rfl ?_ ?_ ?_ ?_ ?_ ?_
      · intro u l _ hl
        -- the lock was free, so nobody is inside this list
        have hne : l ≠ k.list := by
          rintro rfl
          simp [h.holds u _ hl] at hfree
        simp [hne, h.holds u l hl]
      · exact fun u k' _ hkeep => h.keeps u k' hkeep
      · exact fun u hu => Function.update_of_ne hu ..
      · rintro l rfl
        exact Function.update_self ..
      · exact fun _ hkeep => by cases hkeep
      · exact hirq
  | entered k c saved =>
      obtain rfl := Option.some.inj hs
      have hsaved : saved = k.before := by
        have hi := h.irq t
        rwa [hp] at hi
      have hagreed : ∀ u, ∀ k' ∈ (s.pc u).keeps, k'.list ≠ k.list → k'.before = saved := by
        simpa only [Agreed, hp] using hok
      refine h.step rfl ?_ ?_ ?_ ?_ ?_ ?_
      · exact fun u l _ hl => h.holds u l hl
      · intro u k' hu hkeep
        refine (hagreed u k' hkeep fun hlist => hu ?_).symm
        -- two writers of one list would both hold its lock
        have hheld := h.holds u _ (Pc.holds_of_keeps hkeep)
        rw [hlist, h.holds t k.list (by rw [hp]; exact rfl)] at hheld
        exact (Option.some.inj hheld).symm
      · exact fun _ _ => rfl
      · intro l hl
        refine h.holds t l ?_
        rw [hp]
        exact hl
      · intro k' hkeep
        obtain rfl : k = k' := Option.some.inj hkeep
        exact hsaved
      · trivial
  | locked k c =>
      obtain rfl := Option.some.inj hs
      exact h.relink hp
  | unlinked k removed g =>
      obtain ⟨_, ⟨⟩⟩ := Option.ite_none_left_eq_some.mp hs
      exact h.pass rfl rfl rfl rfl (fun _ hl => by rw [hp]; exact hl)
        (fun _ hk => by rw [hp]; exact hk) trivial
  | relinked k removed g =>
      obtain rfl := Option.some.inj hs
      exact h.pass rfl rfl rfl rfl (fun _ hl => by rw [hp]; exact hl)
        (fun _ hk => by rw [hp]; exact hk) trivial
  | flipped k removed g =>
      obtain ⟨_, ⟨⟩⟩ := Option.ite_none_left_eq_some.mp hs
      exact h.pass rfl rfl rfl rfl (fun _ hl => by rw [hp]; exact hl)
        (fun _ hk => by rw [hp]; exact hk) trivial
  | drained k removed =>
      obtain rfl := Option.some.inj hs
      refine h.step rfl ?_ ?_ ?_ ?_ ?_ ?_
      · intro u l hu hl
        have hne : l ≠ k.list := by
          rintro rfl
          have hheld := h.holds u _ hl
          rw [h.holds t k.list (by rw [hp]; exact rfl)] at hheld
          exact hu (Option.some.inj hheld).symm
        simp [hne, h.holds u l hl]
      · exact fun u k' _ hkeep => h.keeps u k' hkeep
      · exact fun u hu => Function.update_of_ne hu ..
      · exact fun _ hl => hl.elim
      · exact fun _ hkeep => by cases hkeep
      · show Function.update s.irq t s.flags t = k.before
        rw [Function.update_self]
        exact h.keeps t k (by rw [hp]; exact rfl)
  | unlocked k removed =>
      obtain rfl := Option.some.inj hs
      have hirq : s.irq t = k.before := by
        have hi := h.irq t
        rwa [hp] at hi
      exact h.pass rfl rfl rfl rfl (fun _ hl => hl.elim) (fun _ hk => by cases hk) hirq
  | returned k =>
      obtain rfl := Option.some.inj hs
      exact h.pass rfl rfl rfl rfl (fun _ hl => hl.elim) (fun _ hk => by cases hk) trivial

/-- One step of any CPU or reader. -/
theorem kept_step {x : κ × Act ι} (h : Kept s) (hok : Agreed s x) (hs : step s x = some s') :
    Kept s' := by
  obtain ⟨t, act⟩ := x
  cases act with
  | advance => exact kept_advance h hok hs
  | write l op kmallocFails =>
      obtain ⟨_, ⟨⟩⟩ := Option.ite_none_right_eq_some.mp hs
      unfold St.write St.take
      rcases write_pc (s.on l) t op kmallocFails rfl with hpc | ⟨c, hpc⟩ <;> rw [hpc]
      · exact h.pass rfl rfl rfl rfl (fun _ hl => hl.elim) (fun _ hk => by cases hk) trivial
      · exact h.pass rfl rfl rfl rfl (fun _ hl => hl.elim) (fun _ hk => by cases hk) rfl
  | setIrq on =>
      obtain ⟨hp, ⟨⟩⟩ := Option.ite_none_right_eq_some.mp hs
      refine ⟨h.holds, h.keeps, fun u => ?_⟩
      by_cases hu : u = t
      · subst hu
        show (s.pc u).AsSaved _
        rw [hp]
        exact trivial
      · show (s.pc u).AsSaved (Function.update s.irq t on u)
        rw [Function.update_of_ne hu]
        exact h.irq u
  | reader l e d =>
      obtain rfl := Option.some.inj hs
      exact ⟨h.holds, h.keeps, h.irq⟩

/-- **Writers restore the interrupt state they saved**, in every run in which no writer stores a
state in `flags` that differs from one a writer of another list has still to restore. -/
theorem interrupts_restored (h : Reached (writers κ ι) Agreed s) : Restored s := by
  have hkept : Kept s := by
    refine h.invariant (I := Kept) ?_ fun _ _ _ hI hok hs => kept_step hI hok hs
    rintro _ rfl
    exact kept_initial
  intro t k hp
  have hirq := hkept.irq t
  rwa [hp] at hirq

/-! ## Runs of two CPUs on two lists -/

instance (s : St (Fin 2) (Fin 2)) (x : Fin 2 × Act (Fin 2)) : Decidable (Agreed s x) := by
  obtain ⟨t, act⟩ := x
  rcases act <;> dsimp only [Agreed] <;> try infer_instance
  generalize s.pc t = p
  rcases p <;> dsimp only <;> infer_instance

/-- CPU `t` takes `n` statements. -/
def statements (t : Fin 2) (n : Nat) : List (Fin 2 × Act (Fin 2)) :=
  List.replicate n (t, .advance)

/-- An insertion in the list `l` up to the store in `flags`. -/
def insertion (t l : Fin 2) : List (Fin 2 × Act (Fin 2)) :=
  (t, .write l (.insert ⟨3, none, 0⟩) false) :: statements t 2

/-- Both CPUs have interrupts on, and their insertions overlap. -/
theorem interrupts_restored_overlap : ∃ s : St (Fin 2) (Fin 2),
    Reached (writers (Fin 2) (Fin 2)) Agreed s ∧
      (s.pc 0 = .returned ⟨0, true⟩ ∧ s.pc 1 = .returned ⟨1, true⟩) ∧ Restored s := by
  obtain ⟨s, hs, hp⟩ : ∃ s : St (Fin 2) (Fin 2), Reached (writers (Fin 2) (Fin 2)) Agreed s ∧
      (s.pc 0 = .returned ⟨0, true⟩ ∧ s.pc 1 = .returned ⟨1, true⟩) :=
    exists_reached_of_replay step initial
      (insertion 0 0 ++ insertion 1 1 ++ statements 0 5 ++ statements 1 5) (by decide +kernel)
  exact ⟨s, hs, hp, interrupts_restored hs⟩

/-- CPU 0 has interrupts on; CPU 1 enters with them off, as `new_TAG_Service` does, and stores its
state in `flags` before CPU 0 restores from there. CPU 0 returns with interrupts off. -/
theorem interrupts_left_off : ∃ s : St (Fin 2) (Fin 2),
    Reached (writers (Fin 2) (Fin 2)) Always s ∧ s.pc 0 = .returned ⟨0, true⟩ ∧ s.irq 0 = false :=
  exists_reached_of_replay step initial
    (insertion 0 0 ++ (1, .setIrq false) :: insertion 1 1 ++ statements 0 5) (by decide +kernel)

end TagMessaging.Irq
