/-
# TagMessaging.Lib.Transition -- labelled transition systems and guarded runs

A system is a set of initial states and a labelled step relation. `Run S ok ls s` says that the
labels `ls`, taken one after the other from an initial state, lead to `s`, and that each of them
was taken in a state where the guard `ok` admits it. The guard is a parameter because most
properties of a racy program hold only of the runs that stay clear of the race: with the trivial
guard `Run` is plain reachability.

The rules a client needs are `Run.invariant` (a property of the initial states that every admitted
step keeps holds in every state reached), `Run.simulate` (a system whose steps another one answers
has only runs of the other), `Run.simulate_paired` (the same with a relation that holds at every
state of the two runs) and `Run.weaken` (a stronger guard admits fewer runs). A system whose
labels resolve every choice is given by an executable step function; then a concrete run is replayed
with `replay`.

A `Path` is the part of a run between two of its states, and `Sometime` says that a property held
in a state on it: what an operation of several steps answers is judged against the states between
its first step and its last.
-/
import Mathlib

namespace TagMessaging.Lib.Transition

/-- A labelled transition system over the states `σ` with the labels `ι`. -/
structure System (σ ι : Type*) where
  init : σ → Prop
  step : σ → ι → σ → Prop

variable {σ σ' ι : Type*} {S : System σ ι} {T : System σ' ι} {ok ok' : σ → ι → Prop} {I : σ → Prop}
variable {s s' : σ} {ls : List ι}

/-- The runs of `S` all of whose steps are admitted by `ok`, newest label last. -/
inductive Run (S : System σ ι) (ok : σ → ι → Prop) : List ι → σ → Prop
  | start {s : σ} : S.init s → Run S ok [] s
  | step {ls : List ι} {s s' : σ} {l : ι} :
      Run S ok ls s → ok s l → S.step s l s' → Run S ok (ls ++ [l]) s'

/-- The guard that admits every step. -/
def Always (_ : σ) (_ : ι) : Prop := True

/-- `s` is reached by some run whose steps `ok` admits. -/
def Reached (S : System σ ι) (ok : σ → ι → Prop) (s : σ) : Prop := ∃ ls, Run S ok ls s

theorem Reached.start (h : S.init s) : Reached S ok s := ⟨[], .start h⟩

theorem Reached.step {l : ι} (h : Reached S ok s) (hok : ok s l) (hs : S.step s l s') :
    Reached S ok s' := by
  obtain ⟨ls, hr⟩ := h
  exact ⟨ls ++ [l], hr.step hok hs⟩

/-- What holds initially and is kept by every admitted step holds in every state reached. -/
theorem Run.invariant (hinit : ∀ s, S.init s → I s)
    (hstep : ∀ s l s', I s → ok s l → S.step s l s' → I s') (h : Run S ok ls s) : I s := by
  induction h with
  | start h0 => exact hinit _ h0
  | step _ hok hs ih => exact hstep _ _ _ ih hok hs

theorem Reached.invariant (hinit : ∀ s, S.init s → I s)
    (hstep : ∀ s l s', I s → ok s l → S.step s l s' → I s') (h : Reached S ok s) : I s := by
  obtain ⟨_, hr⟩ := h
  exact hr.invariant hinit hstep

/-- A guard that admits more has more runs. -/
theorem Run.weaken (hok : ∀ s l, ok s l → ok' s l) (h : Run S ok ls s) : Run S ok' ls s := by
  induction h with
  | start h0 => exact .start h0
  | step _ hl hs ih => exact ih.step (hok _ _ hl) hs

theorem Reached.weaken (hok : ∀ s l, ok s l → ok' s l) (h : Reached S ok s) :
    Reached S ok' s := by
  obtain ⟨ls, hr⟩ := h
  exact ⟨ls, hr.weaken hok⟩

/-- A guard that holds wherever an invariant of the admitted steps does. -/
theorem Run.strengthen (hinit : ∀ s, S.init s → I s)
    (hstep : ∀ s l s', I s → ok s l → S.step s l s' → I s')
    (hok : ∀ s l, I s → ok s l → ok' s l) (h : Run S ok ls s) : Run S ok' ls s := by
  induction h with
  | start h0 => exact .start h0
  | step hrun hl hs ih => exact ih.step (hok _ _ (hrun.invariant hinit hstep) hl) hs

/-- Forward simulation: when every admitted step of `S` is answered by an admitted step of `T` with
the same label, every admitted run of `S` is one of `T`. -/
theorem Run.simulate_admitted {okT : σ' → ι → Prop} {Q : σ → σ' → Prop}
    (hinit : ∀ s, S.init s → ∃ t, T.init t ∧ Q s t)
    (hstep : ∀ s l s' t, Q s t → ok s l → S.step s l s' → okT t l ∧ ∃ t', T.step t l t' ∧ Q s' t')
    (h : Run S ok ls s) : ∃ t, Run T okT ls t ∧ Q s t := by
  induction h with
  | start h0 =>
      obtain ⟨t, ht, hrel⟩ := hinit _ h0
      exact ⟨t, .start ht, hrel⟩
  | step _ hok hs ih =>
      obtain ⟨t, hrun, hrel⟩ := ih
      obtain ⟨hokT, t', ht, hrel'⟩ := hstep _ _ _ t hrel hok hs
      exact ⟨t', hrun.step hokT ht, hrel'⟩

/-- Forward simulation by a system without a guard. -/
theorem Run.simulate {Q : σ → σ' → Prop} (hinit : ∀ s, S.init s → ∃ t, T.init t ∧ Q s t)
    (hstep : ∀ s l s' t, Q s t → ok s l → S.step s l s' → ∃ t', T.step t l t' ∧ Q s' t')
    (h : Run S ok ls s) : ∃ t, Run T Always ls t ∧ Q s t :=
  h.simulate_admitted hinit fun s l s' t hrel hok hs => ⟨trivial, hstep s l s' t hrel hok hs⟩

/-! ## Two runs side by side -/

/-- The two systems take each label together, and after each the states are in the relation. -/
def System.paired (S : System σ ι) (T : System σ' ι) (Q : σ → σ' → Prop) : System (σ × σ') ι where
  init := fun x => S.init x.1 ∧ T.init x.2 ∧ Q x.1 x.2
  step := fun x l x' => S.step x.1 l x'.1 ∧ T.step x.2 l x'.2 ∧ Q x'.1 x'.2

/-- Forward simulation, with what the relation says at every state of the two runs. -/
theorem Run.simulate_paired {P Q : σ → σ' → Prop} (htells : ∀ s t, P s t → Q s t)
    (hinit : ∀ s, S.init s → ∃ t, T.init t ∧ P s t)
    (hstep : ∀ s l s' t, P s t → ok s l → S.step s l s' → ∃ t', T.step t l t' ∧ P s' t')
    (h : Run S ok ls s) :
    ∃ t, Run (S.paired T Q) (fun x l => ok x.1 l) ls (s, t) ∧ P s t := by
  induction h with
  | start h0 =>
      obtain ⟨t, ht, hrel⟩ := hinit _ h0
      exact ⟨t, .start ⟨h0, ht, htells _ _ hrel⟩, hrel⟩
  | step _ hok hs ih =>
      obtain ⟨t, hrun, hrel⟩ := ih
      obtain ⟨t', ht, hrel'⟩ := hstep _ _ _ t hrel hok hs
      exact ⟨t', hrun.step hok ⟨hs, ht, htells _ _ hrel'⟩, hrel'⟩

/-- The second of the two runs. -/
theorem Run.second {Q : σ → σ' → Prop} {okP : σ × σ' → ι → Prop} {x : σ × σ'}
    (h : Run (S.paired T Q) okP ls x) : Run T Always ls x.2 := by
  induction h with
  | start h0 => exact .start h0.2.1
  | step _ _ hs ih => exact ih.step trivial hs.2.1

/-- The relation at their last states, as at every state before. -/
theorem Run.related {Q : σ → σ' → Prop} {okP : σ × σ' → ι → Prop} {x : σ × σ'}
    (h : Run (S.paired T Q) okP ls x) : Q x.1 x.2 := by
  induction h with
  | start h0 => exact h0.2.2
  | step _ _ hs _ => exact hs.2.2

/-! ## Parts of runs -/

/-- The labels `ls`, each of them admitted, lead from `s` to `s'`; newest label last. -/
inductive Path (S : System σ ι) (ok : σ → ι → Prop) (s : σ) : List ι → σ → Prop
  | refl : Path S ok s [] s
  | step {ls : List ι} {s' s'' : σ} {l : ι} :
      Path S ok s ls s' → ok s' l → S.step s' l s'' → Path S ok s (ls ++ [l]) s''

theorem Path.invariant (hs : I s) (hstep : ∀ s l s', I s → ok s l → S.step s l s' → I s')
    (h : Path S ok s ls s') : I s' := by
  induction h with
  | refl => exact hs
  | step _ hok hl ih => exact hstep _ _ _ ih hok hl

/-- A run and a path from the state it reaches. -/
theorem Reached.path (h : Reached S ok s) (hpath : Path S ok s ls s') : Reached S ok s' :=
  hpath.invariant h fun _ _ _ h hok hs => h.step hok hs

/-- On the path from `s` to `s'` there is a state with the property `M`. -/
def Sometime (S : System σ ι) (ok : σ → ι → Prop) (M : σ → Prop) (s : σ) (ls : List ι) (s' : σ) :
    Prop :=
  ∃ ls₁ ls₂ m, ls = ls₁ ++ ls₂ ∧ Path S ok s ls₁ m ∧ Path S ok m ls₂ s' ∧ M m

variable {M : σ → Prop}

theorem Sometime.now (h : Path S ok s ls s') (hm : M s') : Sometime S ok M s ls s' :=
  ⟨ls, [], s', (List.append_nil ls).symm, h, .refl, hm⟩

theorem Sometime.step {l : ι} {s'' : σ} (h : Sometime S ok M s ls s') (hok : ok s' l)
    (hs : S.step s' l s'') : Sometime S ok M s (ls ++ [l]) s'' := by
  obtain ⟨ls₁, ls₂, m, rfl, h₁, h₂, hm⟩ := h
  exact ⟨ls₁, ls₂ ++ [l], m, List.append_assoc .., h₁, h₂.step hok hs, hm⟩

/-! ## Executable systems -/

/-- The system of an executable step function: `none` where the label is not enabled. -/
def System.ofStep (s₀ : σ) (f : σ → ι → Option σ) : System σ ι where
  init := fun s => s = s₀
  step := fun s l s' => f s l = some s'

instance (s : σ) (l : ι) : Decidable (Always s l) := isTrue trivial

/-- Take the labels one after the other; `none` as soon as one is not enabled or not admitted. -/
def replay (ok : σ → ι → Prop) [∀ s l, Decidable (ok s l)] (f : σ → ι → Option σ) :
    σ → List ι → Option σ
  | s, [] => some s
  | s, l :: ls => if ok s l then (f s l).bind fun s' => replay ok f s' ls else none

variable {s₀ : σ} {f : σ → ι → Option σ} [∀ s l, Decidable (ok s l)]

theorem run_of_replay {ls' : List ι} (hs : Run (System.ofStep s₀ f) ok ls s)
    (h : replay ok f s ls' = some s') : Run (System.ofStep s₀ f) ok (ls ++ ls') s' := by
  induction ls' generalizing s ls with
  | nil =>
      rw [replay, Option.some.injEq] at h
      rw [List.append_nil]
      exact h ▸ hs
  | cons l ls' ih =>
      obtain ⟨hok, hrest⟩ := Option.ite_none_right_eq_some.mp h
      obtain ⟨t, hst, hrest⟩ := Option.bind_eq_some_iff.mp hrest
      rw [List.append_cons]
      exact ih (hs.step hok hst) hrest

theorem reached_of_replay (hs : Reached (System.ofStep s₀ f) ok s)
    (h : replay ok f s ls = some s') : Reached (System.ofStep s₀ f) ok s' := by
  obtain ⟨ls₀, hrun⟩ := hs
  exact ⟨ls₀ ++ ls, run_of_replay hrun h⟩

theorem path_of_replay {ls' : List ι} (hs : Path (System.ofStep s₀ f) ok s ls s')
    {s'' : σ} (h : replay ok f s' ls' = some s'') :
    Path (System.ofStep s₀ f) ok s (ls ++ ls') s'' := by
  induction ls' generalizing s' ls with
  | nil =>
      rw [replay, Option.some.injEq] at h
      rw [List.append_nil]
      exact h ▸ hs
  | cons l ls' ih =>
      obtain ⟨hok, hrest⟩ := Option.ite_none_right_eq_some.mp h
      obtain ⟨t, hst, hrest⟩ := Option.bind_eq_some_iff.mp hrest
      rw [List.append_cons]
      exact ih (hs.step hok hst) hrest

/-- A replayed path leads to a state with a decidable property. -/
theorem exists_path_of_replay {P : σ → Prop} [DecidablePred P]
    (h : (replay ok f s ls).any (fun s => decide (P s)) = true) :
    ∃ s', Path (System.ofStep s₀ f) ok s ls s' ∧ P s' := by
  cases hr : replay ok f s ls with
  | none => simp [hr] at h
  | some s' => exact ⟨s', path_of_replay .refl hr, by simpa [hr] using h⟩

/-- A replayed run shows that a state with a decidable property is reached. -/
theorem Reached.exists_of_replay {P : σ → Prop} [DecidablePred P]
    (hs : Reached (System.ofStep s₀ f) ok s) (ls : List ι)
    (h : (replay ok f s ls).any (fun s => decide (P s)) = true) :
    ∃ s', Reached (System.ofStep s₀ f) ok s' ∧ P s' := by
  cases hr : replay ok f s ls with
  | none => simp [hr] at h
  | some s' => exact ⟨s', reached_of_replay hs hr, by simpa [hr] using h⟩

/-- The same with the labels of the run kept. -/
theorem exists_run_of_replay {P : σ → Prop} [DecidablePred P] (f : σ → ι → Option σ) (s₀ : σ)
    (ls : List ι) (h : (replay ok f s₀ ls).any (fun s => decide (P s)) = true) :
    ∃ s, Run (System.ofStep s₀ f) ok ls s ∧ P s := by
  cases hr : replay ok f s₀ ls with
  | none => simp [hr] at h
  | some s => exact ⟨s, run_of_replay (.start rfl) hr, by simpa [hr] using h⟩

theorem exists_reached_of_replay {P : σ → Prop} [DecidablePred P] (f : σ → ι → Option σ) (s₀ : σ)
    (ls : List ι) (h : (replay ok f s₀ ls).any (fun s => decide (P s)) = true) :
    ∃ s, Reached (System.ofStep s₀ f) ok s ∧ P s :=
  Reached.exists_of_replay (.start rfl) ls h

end TagMessaging.Lib.Transition
