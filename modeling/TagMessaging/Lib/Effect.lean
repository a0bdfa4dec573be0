/-
# TagMessaging.Lib.Effect -- actions that read an environment, change a state and may stop

`Action ε σ φ α` is the shape of a fallible imperative routine: it reads an environment `ε`,
carries a state `σ` and either delivers a value with the state it leaves or stops with a `φ`.
Its weakest precondition `wp m e s Q E` has a postcondition `Q` for the value delivered and one `E`
for the reason to stop. With `E` false it is total correctness, with `E` true partial correctness.
It commutes with `pure`, `bind` and `if`, so a routine written in `do` notation is reasoned about
one line at a time, and a rule proved for every `E` serves both readings.
-/
import Mathlib

namespace TagMessaging.Lib.Effect

/-- A routine over the environment `ε` and the state `σ` that may stop with a `φ`. -/
def Action (ε σ φ α : Type) : Type := ε → σ → Except φ (α × σ)

variable {ε σ φ α β : Type}

namespace Action

/-- Deliver a value and leave the state alone. -/
def deliver (a : α) : Action ε σ φ α := fun _ s => .ok (a, s)

/-- Run `m`, then the continuation on what it delivered. -/
def andThen (m : Action ε σ φ α) (f : α → Action ε σ φ β) : Action ε σ φ β := fun e s =>
  match m e s with
  | .ok (a, s') => f a e s'
  | .error x => .error x

/-- Stop with `x`. -/
def stop (x : φ) : Action ε σ φ α := fun _ _ => .error x

/-- Read the environment. -/
def ask : Action ε σ φ ε := fun e s => .ok (e, s)

/-- Read the state. -/
def get : Action ε σ φ σ := fun _ s => .ok (s, s)

/-- Change the state. -/
def modify (f : σ → σ) : Action ε σ φ Unit := fun _ s => .ok ((), f s)

/-- Lift a result that may be a reason to stop. -/
def lift (r : Except φ α) : Action ε σ φ α := fun _ s =>
  match r with
  | .ok a => .ok (a, s)
  | .error x => .error x

end Action

instance : Monad (Action ε σ φ) where
  pure := Action.deliver
  bind := Action.andThen

/-- What a sequence does once its first part has delivered. -/
theorem bind_apply_of_ok {m : Action ε σ φ α} {f : α → Action ε σ φ β} {e : ε} {s s' : σ} {a : α}
    (h : m e s = .ok (a, s')) : (m >>= f) e s = f a e s' := by
  show Action.andThen m f e s = f a e s'
  unfold Action.andThen
  rw [h]

/-! ## Weakest preconditions -/

/-- `m` delivers a value that satisfies `Q` or stops with a reason that satisfies `E`. -/
def wp (m : Action ε σ φ α) (e : ε) (s : σ) (Q : α → σ → Prop) (E : φ → Prop) : Prop :=
  match m e s with
  | .ok (a, s') => Q a s'
  | .error x => E x

/-- Partial correctness: every reason to stop is accepted. -/
abbrev wlp (m : Action ε σ φ α) (e : ε) (s : σ) (Q : α → σ → Prop) : Prop :=
  wp m e s Q fun _ => True

variable {m : Action ε σ φ α} {f : α → Action ε σ φ β} {e : ε} {s s' : σ} {a : α}
variable {P Q : α → σ → Prop} {R : β → σ → Prop} {E E' : φ → Prop}

theorem wp_of_ok (hm : m e s = .ok (a, s')) (h : wp m e s Q E) : Q a s' := by
  unfold wp at h
  rwa [hm] at h

/-- A rule from an equation. -/
theorem wp_of_eq (hm : m e s = .ok (a, s')) (h : Q a s') : wp m e s Q E := by
  unfold wp
  rwa [hm]

/-- Total correctness read off: the action delivers. -/
theorem exists_ok_of_wp (h : wp m e s Q E) (hE : ∀ x, ¬ E x) :
    ∃ a s', m e s = .ok (a, s') ∧ Q a s' := by
  unfold wp at h
  split at h
  · exact ⟨_, _, by assumption, h⟩
  · exact absurd h (hE _)

theorem wlp_iff : wlp m e s Q ↔ ∀ a s', m e s = .ok (a, s') → Q a s' := by
  constructor
  · intro h a s' hm
    exact wp_of_ok hm h
  · intro h
    unfold wlp wp
    split
    · exact h _ _ (by assumption)
    · trivial

theorem wp_mono (h : wp m e s P E) (hPQ : ∀ a s', P a s' → Q a s')
    (hE : ∀ x, E x → E' x) : wp m e s Q E' := by
  unfold wp at h ⊢
  cases hm : m e s with
  | error x => exact hE x (by simpa [hm] using h)
  | ok r => exact hPQ r.1 r.2 (by simpa [hm] using h)

theorem wp_imp (h : wp m e s P E) (hPQ : ∀ a s', P a s' → Q a s') : wp m e s Q E :=
  wp_mono h hPQ fun _ hx => hx

/-- What is delivered satisfies both of two partial postconditions. -/
theorem wlp_and (hp : wlp m e s P) (hq : wlp m e s Q) :
    wlp m e s fun a s' => P a s' ∧ Q a s' :=
  wlp_iff.mpr fun _ _ hm => ⟨wp_of_ok hm hp, wp_of_ok hm hq⟩

@[simp] theorem wp_pure (a : α) : wp (pure a : Action ε σ φ α) e s Q E ↔ Q a s := Iff.rfl

@[simp] theorem wp_stop (x : φ) : wp (Action.stop x : Action ε σ φ α) e s Q E ↔ E x := Iff.rfl

@[simp] theorem wp_ask {Q : ε → σ → Prop} :
    wp (Action.ask : Action ε σ φ ε) e s Q E ↔ Q e s := Iff.rfl

@[simp] theorem wp_get {Q : σ → σ → Prop} :
    wp (Action.get : Action ε σ φ σ) e s Q E ↔ Q s s := Iff.rfl

@[simp] theorem wp_modify {Q : Unit → σ → Prop} (g : σ → σ) :
    wp (Action.modify g : Action ε σ φ Unit) e s Q E ↔ Q () (g s) := Iff.rfl

@[simp] theorem wp_lift_ok (a : α) :
    wp (Action.lift (.ok a) : Action ε σ φ α) e s Q E ↔ Q a s := Iff.rfl

@[simp] theorem wp_lift_error (x : φ) :
    wp (Action.lift (.error x) : Action ε σ φ α) e s Q E ↔ E x := Iff.rfl

@[simp] theorem wp_bind :
    wp (m >>= f) e s R E ↔ wp m e s (fun a s' => wp (f a) e s' R E) E := by
  show wp (Action.andThen m f) e s R E ↔ _
  unfold wp Action.andThen
  cases m e s with
  | error x => rfl
  | ok r => rfl

/-- A precondition with computable postconditions is decided by running the action. -/
instance wp.decidable [∀ a s', Decidable (Q a s')] [∀ x, Decidable (E x)] :
    Decidable (wp m e s Q E) :=
  match h : m e s with
  | .ok (a, s') => decidable_of_iff (Q a s') (by simp [wp, h])
  | .error x => decidable_of_iff (E x) (by simp [wp, h])

/-- Sequencing: a specification of the first action and one of the rest under it. -/
theorem wp_seq (h : wp m e s P E) (hf : ∀ a s', P a s' → wp (f a) e s' R E) :
    wp (m >>= f) e s R E :=
  wp_bind.mpr (wp_imp h hf)

/-! ## Functions of the state that a routine leaves alone -/

/-- Whenever `m` delivers a value, `view` reads the same before and after. -/
def Keeps {ν : Type} (view : σ → ν) (m : Action ε σ φ α) : Prop :=
  ∀ e s, wlp m e s fun _ s' => view s' = view s

section Keeps

variable {ν : Type} {view : σ → ν}

theorem keeps_pure (a : α) : Keeps view (pure a : Action ε σ φ α) := fun _ _ => rfl

theorem keeps_stop (x : φ) : Keeps view (Action.stop x : Action ε σ φ α) := fun _ _ => trivial

theorem keeps_ask : Keeps view (Action.ask : Action ε σ φ ε) := fun _ _ => rfl

theorem keeps_lift (r : Except φ α) : Keeps view (Action.lift r : Action ε σ φ α) := by
  intro e s
  cases r with
  | error x => trivial
  | ok a => rfl

theorem keeps_modify {g : σ → σ} (h : ∀ s, view (g s) = view s) :
    Keeps view (Action.modify g : Action ε σ φ Unit) := fun _ s => h s

/-- What is computed from a view that is kept is kept. -/
theorem keeps_comp {ξ : Type} (g : ν → ξ) (h : Keeps view m) : Keeps (fun s => g (view s)) m :=
  fun e s => wp_imp (h e s) fun _ _ hs => congrArg g hs

theorem keeps_bind (hm : Keeps view m) (hf : ∀ a, Keeps view (f a)) :
    Keeps view (m >>= f) := by
  intro e s
  refine wp_seq (hm e s) fun a s' hs => ?_
  exact wp_imp (hf a e s') fun _ _ h => h.trans hs

theorem keeps_ite {c : Prop} [Decidable c] {m' : Action ε σ φ α}
    (h : Keeps view m) (h' : Keeps view m') : Keeps view (if c then m else m') := by
  split
  · exact h
  · exact h'

end Keeps

end TagMessaging.Lib.Effect
