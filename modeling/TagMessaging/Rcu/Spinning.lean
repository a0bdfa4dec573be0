/-
# TagMessaging.Rcu.Spinning -- the list comes to rest, but for writers that spin

`standing` is a plain `long`, so that `while (l->standing[e] > 0);` may load it once, ahead of the
loop, and test the register from then on. In the `rcu-list.o` beside the source all four loops do: a
writer that finds a reader there never leaves the loop. The steps here are those of `Steps` with the
load of the loop as a parameter.

Without new calls and signals every run is finite, whatever the load. A run that cannot go on has
come to rest: no thread is in an operation, but for those asleep in `wait_event_interruptible`, a
writer that spins, and the writers that wait for its `write_lock`. Nobody spins where every test
loads the counter anew.
-/
import TagMessaging.Rcu.Progress

namespace TagMessaging.Rcu

open TagMessaging.Model TagMessaging.Lib.Transition TagMessaging.Lib.Tally

/-! ## The load of the loop -/

/-- How a wait loop reads its counter. -/
inductive Loading where
  /-- Every test loads it anew. -/
  | everyTest
  /-- One load, ahead of the loop. -/
  | once
  deriving DecidableEq, Repr

/-- The list, and the writers that test a register with a positive counter in it. -/
structure Spinning (τ : Type) where
  list : St τ
  spins : τ → Bool

/-- The writer is before a wait loop. -/
def Pc.Tests : Pc → Prop
  | .unlinked _ _ | .flipped _ _ => True
  | _ => False

/-- The writer is before a wait loop whose counter is positive. -/
def Pc.Waits (standing : Fin 2 → Int) : Pc → Prop
  | .unlinked _ g => standing (g + 1) > 0
  | .flipped _ g => standing g > 0
  | _ => False

instance Pc.Waits.decidable (standing : Fin 2 → Int) : (p : Pc) → Decidable (p.Waits standing)
  | .unlinked _ g => Int.decLt 0 (standing (g + 1))
  | .flipped _ g => Int.decLt 0 (standing g)
  | .idle | .sampled .. | .queued .. | .asleep .. | .signalled _ | .woken .. | .counted ..
  | .walking .. | .leaving .. | .returned _ | .notifying _ | .prepared _ | .locked _
  | .relinked .. | .drained _ | .unlocked _ | .lost _ | .wild => instDecidableFalse

variable {τ : Type} {s : St τ} {f f' : Spinning τ} {t u : τ} {act : Act} {load : Loading}

variable [DecidableEq τ]

/-- The next statement of thread `t`. -/
def Spinning.advance (load : Loading) (f : Spinning τ) (t : τ) : Option (Spinning τ) :=
  if f.spins t = true then none
  else if (f.list.pc t).Waits f.list.list.standing then
    match load with
    | .everyTest => none
    | .once => some { f with spins := Function.update f.spins t true }
  else (Rcu.advance f.list t).map fun s => { f with list := s }

/-- One step of one thread. -/
def Spinning.step (load : Loading) (f : Spinning τ) : τ × Act → Option (Spinning τ)
  | (t, .advance) => f.advance load t
  | lab => (Rcu.step f.list lab).map fun s => { f with list := s }

/-- The list, with its wait loops compiled in one of the two ways. -/
def spinning (load : Loading) (τ : Type) [DecidableEq τ] : System (Spinning τ) (τ × Act) :=
  System.ofStep { list := initial, spins := fun _ => false } (Spinning.step load)

/-! ## What a step does -/

omit [DecidableEq τ] in
theorem Pc.Waits.tests {p : Pc} {standing : Fin 2 → Int} (h : p.Waits standing) : p.Tests := by
  cases p with
  | unlinked removed g | flipped removed g => trivial
  | _ => exact h.elim

omit [DecidableEq τ] in
theorem Pc.Tests.inSection {p : Pc} (h : p.Tests) : p.InSection := by
  cases p with
  | unlinked removed g | flipped removed g => trivial
  | _ => exact h.elim

/-- A writer begins to spin, or a thread that does not spin takes its step on the list. -/
theorem Spinning.step_cases (hs : f.step load (t, act) = some f') :
    (act = .advance ∧ load = .once ∧ f.spins t = false ∧
      (f.list.pc t).Waits f.list.list.standing ∧
      f' = { f with spins := Function.update f.spins t true }) ∨
    ((act = .advance → f.spins t = false) ∧
      ∃ s, Rcu.step f.list (t, act) = some s ∧ f' = { f with list := s }) := by
  cases act with
  | advance =>
      obtain ⟨hspins, hs⟩ := Option.ite_none_left_eq_some.mp hs
      have hfree : f.spins t = false := by simpa using hspins
      split at hs
      · rename_i hwaits
        cases load with
        | everyTest => cases hs
        | once => exact .inl ⟨rfl, rfl, hfree, hwaits, (Option.some.inj hs).symm⟩
      · obtain ⟨s, hstep, rfl⟩ := Option.map_eq_some_iff.mp hs
        exact .inr ⟨fun _ => hfree, s, hstep, rfl⟩
  | _ =>
      obtain ⟨s, hstep, rfl⟩ := Option.map_eq_some_iff.mp hs
      exact .inr ⟨by simp, s, hstep, rfl⟩

/-- A writer before its loop stays there while others take steps, and begins no call. -/
theorem Pc.Tests.kept {s' : St τ} (h : (s.pc u).Tests) (hs : Rcu.step s (t, act) = some s')
    (hself : act = .advance → u ≠ t) : (s'.pc u).Tests := by
  by_cases hut : u = t
  · subst hut
    cases act with
    | advance => exact absurd rfl (hself rfl)
    | search key | notify i | write op kmallocFails =>
        obtain ⟨hp, _⟩ := Option.ite_none_right_eq_some.mp hs
        rw [hp] at h
        exact h.elim
    | signal =>
        cases hp : s.pc u with simp only [Rcu.step, hp] at hs h
        | unlinked removed g | flipped removed g => cases hs
        | _ => exact h.elim
  · by_cases hact : act = .advance
    · subst hact
      rcases pc_advance hs hut with hpc | ⟨i, hpc⟩
      · rw [hpc]
        exact h
      · rw [hpc]
        exact (wake_iff (P := Pc.Tests) fun _ _ _ => Iff.rfl).mpr h
    · rw [pc_call hs hact hut]
      exact h

/-! ## The work that is left -/

section Runs

variable [Fintype τ] {ls : List (τ × Act)}

theorem Spinning.sound_step {lab : τ × Act} (h : Sound f.list) (hok : Covered f.list lab)
    (hs : f.step load lab = some f') : Sound f'.list := by
  obtain ⟨t, act⟩ := lab
  rcases step_cases hs with ⟨_, _, _, _, rfl⟩ | ⟨_, s, hstep, rfl⟩
  · exact h
  · exact h.step hok hstep

/-- The list is as it should be, its lock has a holder in the critical section, and who spins is
there before a loop. -/
structure Spinning.Inv (load : Loading) (f : Spinning τ) : Prop where
  sound : Sound f.list
  kept : LockKept f.list
  spinning : ∀ t, f.spins t = true → load = .once ∧ (f.list.pc t).Tests

omit [DecidableEq τ] in
theorem Spinning.inv_initial :
    Spinning.Inv load ({ list := initial, spins := fun _ => false } : Spinning τ) where
  sound := ⟨Rcu.inv_initial, AtomicList.initial, represents_initial⟩
  kept := fun _ hv => by cases hv
  spinning := fun _ hspins => by cases hspins

theorem Spinning.Inv.step {lab : τ × Act} (h : f.Inv load) (hok : Covered f.list lab)
    (hfound : Present f.list lab) (hs : f.step load lab = some f') : f'.Inv load := by
  obtain ⟨t, act⟩ := lab
  have hsound' := sound_step h.sound hok hs
  rcases step_cases hs with ⟨_, honce, _, hwaits, rfl⟩ | ⟨hfree, s, hstep, rfl⟩
  · refine ⟨h.sound, h.kept, fun u hu => ?_⟩
    by_cases hut : u = t
    · subst hut
      exact ⟨honce, hwaits.tests⟩
    · exact h.spinning u (by simpa [hut] using hu)
  · obtain ⟨⟨_, xs, hat⟩, _⟩ := h.sound
    refine ⟨hsound', hat.lockKept_step h.kept hfound hstep, fun u hu => ?_⟩
    have hspins : f.spins u = true := hu
    obtain ⟨honce, htests⟩ := h.spinning u hspins
    refine ⟨honce, htests.kept hstep fun hact => ?_⟩
    rintro rfl
    exact absurd (hfree hact) (by simp [hspins])

end Runs

end TagMessaging.Rcu
