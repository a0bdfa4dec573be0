/-
# TagMessaging.Lib.TwoRuns -- two runs of actions side by side

`Couple m s m' s' Q` says that the action `m` from `s` and the action `m'` from `s'` end alike: both
deliver, with results and states that satisfy `Q`, or both stop for the same reason. It composes
along sequencing, so that two executions of one routine are compared line by line. `Blind R m` is
the case of a single action that takes states related by `R` to related states and delivers the
same value from both: it cannot see what `R` leaves open. `ParallelTo g R S m` is that of one action
under two environments, `e` and `g e`, from states related by `R` to states related by `S`. What one
of the two executions satisfies by itself is added with `Couple.and_wlp`.
-/
import TagMessaging.Lib.Effect

namespace TagMessaging.Lib.Effect

variable {ε σ φ α β γ δ : Type}

/-- The two actions end alike. -/
def Couple (e : ε) (m : Action ε σ φ α) (s : σ) (m' : Action ε σ φ β) (s' : σ)
    (Q : α → σ → β → σ → Prop) : Prop :=
  match m e s, m' e s' with
  | .ok (a, t), .ok (b, t') => Q a t b t'
  | .error x, .error y => x = y
  | _, _ => False

variable {e : ε} {m : Action ε σ φ α} {m' : Action ε σ φ β} {s s' t t' : σ} {a : α} {b : β}
variable {f : α → Action ε σ φ γ} {g : β → Action ε σ φ δ} {P : α → σ → Prop}
variable {Q Q' : α → σ → β → σ → Prop} {T : γ → σ → δ → σ → Prop}

theorem couple_of_ok (h : m e s = .ok (a, t)) (h' : m' e s' = .ok (b, t')) (hQ : Q a t b t') :
    Couple e m s m' s' Q := by
  unfold Couple
  rw [h, h']
  exact hQ

theorem couple_of_error {x : φ} (h : m e s = .error x) (h' : m' e s' = .error x) :
    Couple e m s m' s' Q := by
  unfold Couple
  rw [h, h']

/-- The ways two coupled actions end. -/
theorem Couple.cases (h : Couple e m s m' s' Q) :
    (∃ a t b t', m e s = .ok (a, t) ∧ m' e s' = .ok (b, t') ∧ Q a t b t') ∨
      ∃ x, m e s = .error x ∧ m' e s' = .error x := by
  unfold Couple at h
  split at h
  · exact Or.inl ⟨_, _, _, _, by assumption, by assumption, h⟩
  · exact Or.inr ⟨_, by assumption, by rw [h]; assumption⟩
  · exact h.elim

/-- Only what the two actions give counts. -/
theorem Couple.of_eval {n : Action ε σ φ α} {n' : Action ε σ φ β} {r r' : σ}
    (h : Couple e n r n' r' Q) (hn : m e s = n e r) (hn' : m' e s' = n' e r') :
    Couple e m s m' s' Q := by
  unfold Couple at h ⊢
  rwa [hn, hn']

theorem Couple.mono (h : Couple e m s m' s' Q) (hQ : ∀ a t b t', Q a t b t' → Q' a t b t') :
    Couple e m s m' s' Q' := by
  rcases h.cases with ⟨a, t, b, t', hm, hm', h⟩ | ⟨x, hm, hm'⟩
  · exact couple_of_ok hm hm' (hQ a t b t' h)
  · exact couple_of_error hm hm'

/-- Sequencing: the first parts end alike, and the rests do from where they end. -/
theorem couple_bind (h : Couple e m s m' s' Q)
    (hrest : ∀ a t b t', Q a t b t' → Couple e (f a) t (g b) t' T) :
    Couple e (m >>= f) s (m' >>= g) s' T := by
  rcases h.cases with ⟨a, t, b, t', hm, hm', h⟩ | ⟨x, hm, hm'⟩
  · unfold Couple
    rw [bind_apply_of_ok hm, bind_apply_of_ok hm']
    exact hrest a t b t' h
  · refine couple_of_error (x := x) ?_ ?_
    · show Action.andThen m f e s = .error x
      rw [Action.andThen, hm]
    · show Action.andThen m' g e s' = .error x
      rw [Action.andThen, hm']

/-- The same, where both first parts are known to deliver. -/
theorem couple_bind_of_ok (h : m e s = .ok (a, t)) (h' : m' e s' = .ok (b, t'))
    (hrest : Couple e (f a) t (g b) t' T) : Couple e (m >>= f) s (m' >>= g) s' T :=
  couple_bind (couple_of_ok (Q := fun a₁ t₁ b₁ t₁' => a₁ = a ∧ t₁ = t ∧ b₁ = b ∧ t₁' = t') h h'
    ⟨rfl, rfl, rfl, rfl⟩) (by rintro _ _ _ _ ⟨rfl, rfl, rfl, rfl⟩; exact hrest)

/-- What the left action satisfies by itself may be used. -/
theorem Couple.and_wlp (h : Couple e m s m' s' Q) (hP : wlp m e s P) :
    Couple e m s m' s' fun a t b t' => P a t ∧ Q a t b t' := by
  rcases h.cases with ⟨a, t, b, t', hm, hm', h⟩ | ⟨x, hm, hm'⟩
  · exact couple_of_ok hm hm' ⟨wp_of_ok hm hP, h⟩
  · exact couple_of_error hm hm'

/-- What one of two coupled actions delivers, the other does. -/
theorem Couple.ok_left (h : Couple e m s m' s' Q) (hm : m e s = .ok (a, t)) :
    ∃ b t', m' e s' = .ok (b, t') ∧ Q a t b t' := by
  rcases h.cases with ⟨a', t₁, b, t', hm₁, hm', h⟩ | ⟨x, hm₁, _⟩
  · obtain ⟨rfl, rfl⟩ := Prod.mk.inj (Except.ok.inj (hm₁.symm.trans hm))
    exact ⟨b, t', hm', h⟩
  · exact absurd (hm₁.symm.trans hm) (by simp)

theorem Couple.ok_right (h : Couple e m s m' s' Q) (hm' : m' e s' = .ok (b, t')) :
    ∃ a t, m e s = .ok (a, t) ∧ Q a t b t' := by
  rcases h.cases with ⟨a, t, b', t₁, hm, hm₁, h⟩ | ⟨x, _, hm₁⟩
  · obtain ⟨rfl, rfl⟩ := Prod.mk.inj (Except.ok.inj (hm₁.symm.trans hm'))
    exact ⟨a, t, hm, h⟩
  · exact absurd (hm₁.symm.trans hm') (by simp)

/-! ## One action from two related states -/

/-- From related states the action ends alike, with the same value and in related states. -/
def Blind (R : σ → σ → Prop) (m : Action ε σ φ α) : Prop :=
  ∀ e s s', R s s' → Couple e m s m s' fun a t b t' => a = b ∧ R t t'

section Blind

variable {R : σ → σ → Prop} {k : α → Action ε σ φ γ}

theorem blind_pure (a : α) : Blind R (pure a : Action ε σ φ α) := fun _ _ _ h => ⟨rfl, h⟩

theorem blind_bind (hm : Blind R m) (hk : ∀ a, Blind R (k a)) : Blind R (m >>= k) := by
  intro e s s' hR
  refine couple_bind (hm e s s' hR) fun a t b t' h => ?_
  rw [h.1]
  exact hk b e t t' h.2

end Blind

/-! ## One action under two environments -/

/-- The action with `g` of the environment for the environment. -/
def Action.under (g : ε → ε) (m : Action ε σ φ α) : Action ε σ φ α := fun e s => m (g e) s

section Under

variable {g : ε → ε} {f' : β → Action ε σ φ δ}

/-- Sequencing, with the right sequence under another environment. -/
theorem couple_under_bind (h : Couple e m s (m'.under g) s' Q)
    (hrest : ∀ a t b t', Q a t b t' → Couple e (f a) t ((f' b).under g) t' T) :
    Couple e (m >>= f) s ((m' >>= f').under g) s' T := by
  show Couple e (m >>= f) s (m'.under g >>= fun b => (f' b).under g) s' T
  exact couple_bind h hrest

theorem couple_under_bind_of_ok (h : m e s = .ok (a, t)) (h' : m' (g e) s' = .ok (b, t'))
    (hrest : Couple e (f a) t ((f' b).under g) t' T) :
    Couple e (m >>= f) s ((m' >>= f').under g) s' T := by
  show Couple e (m >>= f) s (m'.under g >>= fun b => (f' b).under g) s' T
  exact couple_bind_of_ok h h' hrest

theorem couple_under_of_eval {n : Action ε σ φ α} {n' : Action ε σ φ β} {r r' : σ}
    (hn : m e s = n e r) (hn' : m' (g e) s' = n' (g e) r')
    (h : Couple e n r (n'.under g) r' Q) : Couple e m s (m'.under g) s' Q :=
  h.of_eval hn hn'

end Under

/-- From states related by `R` the action ends alike under `e` and under `g e`: with the same value
`a`, and in states related by `S a`. -/
def ParallelTo (g : ε → ε) (R : σ → σ → Prop) (S : α → σ → σ → Prop) (m : Action ε σ φ α) : Prop :=
  ∀ e s s', R s s' → Couple e m s (m.under g) s' fun a t b t' => b = a ∧ S a t t'

/-- The same with one relation. -/
abbrev Parallel (g : ε → ε) (R : σ → σ → Prop) (m : Action ε σ φ α) : Prop :=
  ParallelTo g R (fun _ => R) m

section Parallel

variable {g : ε → ε} {R : σ → σ → Prop} {S S' : α → σ → σ → Prop} {T : γ → σ → σ → Prop}
variable {k : α → Action ε σ φ γ} {V : α → Prop}

theorem parallelTo_pure (hS : ∀ s s', R s s' → S a s s') :
    ParallelTo g R S (pure a : Action ε σ φ α) :=
  fun _ s s' hR => ⟨rfl, hS s s' hR⟩

theorem parallel_pure (a : α) : Parallel g R (pure a : Action ε σ φ α) :=
  parallelTo_pure fun _ _ hR => hR

theorem parallel_stop (x : φ) : ParallelTo g R S (Action.stop x : Action ε σ φ α) :=
  fun _ _ _ _ => rfl

theorem parallel_lift (r : Except φ α) : Parallel g R (Action.lift r : Action ε σ φ α) := by
  intro e s s' hR
  cases r with
  | error x => exact rfl
  | ok a => exact ⟨rfl, hR⟩

theorem parallel_modify {h : σ → σ} (hh : ∀ s s', R s s' → R (h s) (h s')) :
    Parallel g R (Action.modify h : Action ε σ φ Unit) :=
  fun _ s s' hR => ⟨rfl, hh s s' hR⟩

theorem ParallelTo.imp (h : ParallelTo g R S m) (hS : ∀ a t t', S a t t' → S' a t t') :
    ParallelTo g R S' m :=
  fun e s s' hR => (h e s s' hR).mono fun a t _ t' hb => ⟨hb.1, hS a t t' hb.2⟩

/-- Sequencing. -/
theorem parallel_bind (hm : ParallelTo g R S m) (hk : ∀ a, ParallelTo g (S a) T (k a)) :
    ParallelTo g R T (m >>= k) := by
  intro e s s' hR
  refine couple_under_bind (hm e s s' hR) ?_
  rintro a t b t' ⟨hb, ht⟩
  rw [hb]
  exact hk a e t t' ht

/-- Sequencing, with a fact about the first value. -/
theorem parallel_bind_fact (hm : ParallelTo g R (fun a s s' => V a ∧ R s s') m)
    (hk : ∀ a, V a → ParallelTo g R T (k a)) : ParallelTo g R T (m >>= k) :=
  parallel_bind hm fun a e t t' ht => hk a ht.1 e t t' ht.2

/-- Reading the environment, when the rest makes nothing of what `g` changes. -/
theorem parallel_ask {k : ε → Action ε σ φ γ} (hg : ∀ e, k (g e) = k e)
    (hk : ∀ e, ParallelTo g R T (k e)) : ParallelTo g R T (Action.ask >>= k) := by
  intro e s s' hR
  refine (hk e e s s' hR).of_eval rfl ?_
  show k (g e) (g e) s' = k e (g e) s'
  rw [hg e]

theorem parallel_ite {c : Prop} [Decidable c] {m' : Action ε σ φ α} (h : ParallelTo g R S m)
    (h' : ParallelTo g R S m') : ParallelTo g R S (if c then m else m') := by
  split
  · exact h
  · exact h'

end Parallel

end TagMessaging.Lib.Effect
