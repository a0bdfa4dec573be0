/-
# TagMessaging.Rcu.ReaderCount -- what the counters of the readers say

A writer takes `standing[e]` for the number of readers that are in the list under the epoch `e`. It
is, in every run in which no search whose wait was ended by a signal has lowered the counter; after
one such step it never is again, because every later step moves the counter and the readers by the
same amount.
-/
import TagMessaging.Rcu.GracePeriod

namespace TagMessaging.Rcu

open TagMessaging.Model TagMessaging.Lib.Transition TagMessaging.Lib.Tally

variable {τ : Type} {s : St τ} {ls : List (τ × Act)}

/-! ## What is to hold -/

/-- The thread is in `rcu_list_search`. -/
def Pc.Searching : Pc → Prop
  | .sampled _ _ | .queued _ _ _ | .asleep _ _ _ | .signalled _ | .woken _ _ | .counted _ _
  | .walking _ _ _ | .leaving _ _ | .lost _ => True
  | _ => False

/-- Each counter is the number of readers between their increment and their decrement. -/
structure CountersExact [Fintype τ] (s : St τ) : Prop where
  exact : ∀ e, s.list.standing e = (Finset.univ.filter fun t => (s.pc t).CountedIn e).card
  nonneg : ∀ e, 0 ≤ s.list.standing e
  quiet : (∀ t, ¬ (s.pc t).Searching) → ∀ e, s.list.standing e = 0

/-- No search is for a level outside the array of flags. -/
def LevelsInRange (_ : St τ) : τ × Act → Prop
  | (_, .search key) => (readyIndex key).isSome
  | _ => True

/-- Nor is a step the decrement of a search whose wait was ended by a signal. -/
def Unspoiled (s : St τ) (l : τ × Act) : Prop := LevelsInRange s l ∧ ∀ e, ¬ Spoils s e l

/-! ## The result -/

theorem Pc.CountedIn.searching {p : Pc} {e : Fin 2} (h : p.CountedIn e) : p.Searching := by
  cases p with
  | counted | walking | leaving | lost => trivial
  | _ => exact h.elim

section Threads

variable [Fintype τ]

theorem tally_counts_eq_card (s : St τ) (e : Fin 2) :
    tally (counts e) s.pc = (Finset.univ.filter fun t => (s.pc t).CountedIn e).card :=
  count_eq_card

theorem countersExact_iff : CountersExact s ↔ Counts s := by
  constructor
  · intro h e
    rw [h.exact e, tally_counts_eq_card]
  · intro h
    have hexact : ∀ e, s.list.standing e =
        (Finset.univ.filter fun t => (s.pc t).CountedIn e).card := fun e => by
      rw [h e, tally_counts_eq_card]
    refine ⟨hexact, fun e => ?_, fun hq e => ?_⟩
    · rw [hexact e]
      exact Int.natCast_nonneg _
    · rw [h e]
      exact tally_eq_zero fun t => if_neg fun hc => hq t hc.searching

variable [DecidableEq τ]

/-- A counter never runs ahead of the readers counted in it. -/
theorem shortfall_nonneg {ok : St τ → τ × Act → Prop} (h : Run (rcuList τ) ok ls s) (e : Fin 2) :
    0 ≤ shortfall s e := by
  refine h.invariant (I := fun s => 0 ≤ shortfall s e) ?_ fun s l s' hi _ hs => ?_
  · rintro _ rfl
    exact (counts_iff_shortfall.mp counts_initial e).ge
  · show 0 ≤ shortfall s' e
    rw [shortfall_step hs e]
    split <;> omega

theorem counts_of_unspoiled (h : Run (rcuList τ) Unspoiled ls s) : Counts s := by
  refine h.invariant (I := Counts) ?_ fun s l s' hi hok hs => ?_
  · rintro _ rfl
    exact counts_initial
  · rw [counts_iff_shortfall] at hi ⊢
    intro e
    rw [shortfall_step hs e, hi e, if_neg (hok.2 e), add_zero]

/-- The shortfall only grows: a state whose counters are exact was reached by steps that kept it
at 0. -/
theorem unspoiled_of_counts (h : Run (rcuList τ) LevelsInRange ls s) (hexact : Counts s) :
    Run (rcuList τ) Unspoiled ls s := by
  induction h with
  | start h0 => exact .start h0
  | @step ls s s' l hrun hok hs ih =>
      rw [counts_iff_shortfall] at hexact ih
      have hkept : ∀ e, shortfall s e = 0 ∧ ¬ Spoils s e l := by
        intro e
        have hge : 0 ≤ shortfall s e := shortfall_nonneg hrun e
        have hsum : 0 = shortfall s e + if Spoils s e l then 1 else 0 :=
          (hexact e).symm.trans (shortfall_step hs e)
        split at hsum
        · omega
        · next hspoils => exact ⟨by omega, hspoils⟩
      exact (ih fun e => (hkept e).1).step ⟨hok, fun e => (hkept e).2⟩ hs

/-- In every run, for any number of threads, the counters are exact in the state reached if and only
if no step of the run was the decrement of a search whose wait was ended by a signal. -/
theorem counters_exact_iff (h : Run (rcuList τ) LevelsInRange ls s) :
    CountersExact s ↔ Run (rcuList τ) Unspoiled ls s := by
  rw [countersExact_iff]
  exact ⟨unspoiled_of_counts h, counts_of_unspoiled⟩

end Threads

/-! ## Runs of three threads -/

instance LevelsInRange.decidable (s : St τ) (l : τ × Act) : Decidable (LevelsInRange s l) := by
  obtain ⟨t, act⟩ := l
  rcases act <;> dsimp only [LevelsInRange] <;> infer_instance

instance Unspoiled.decidable [DecidableEq τ] (s : St τ) (l : τ × Act) :
    Decidable (Unspoiled s l) :=
  inferInstanceAs (Decidable (_ ∧ _))

instance Pc.Searching.decidable (p : Pc) : Decidable p.Searching := by
  rcases p <;> dsimp only [Pc.Searching] <;> infer_instance

/-- Thread 0 is woken and counted. -/
theorem counters_exact_counted : ∃ s,
    Run (rcuList (Fin 3)) LevelsInRange (receiverAsleep ++ receiverWoken) s ∧
      s.list.standing 0 = 1 ∧ CountersExact s := by
  obtain ⟨s, hrun, hp⟩ : ∃ s,
      Run (rcuList (Fin 3)) Unspoiled (receiverAsleep ++ receiverWoken) s ∧
        s.list.standing 0 = 1 :=
    exists_run_of_replay step initial _ (by decide +kernel)
  have hrange : Run (rcuList (Fin 3)) LevelsInRange (receiverAsleep ++ receiverWoken) s :=
    hrun.weaken fun _ _ hok => hok.1
  exact ⟨s, hrange, hp, (counters_exact_iff hrange).mpr hrun⟩

/-- A signal ends the wait of thread 0: its search is over, no other has begun, and `standing[0]`
is -1. -/
theorem counters_negative : ∃ s, Reached (rcuList (Fin 3)) LevelsInRange s ∧
    (∀ t, ¬ (s.pc t).Searching) ∧ s.list.standing 0 = -1 ∧ ¬ CountersExact s := by
  obtain ⟨s, hs, hquiet, hneg⟩ : ∃ s, Reached (rcuList (Fin 3)) LevelsInRange s ∧
      (∀ t, ¬ (s.pc t).Searching) ∧ s.list.standing 0 = -1 :=
    exists_reached_of_replay step initial
      (receiverAsleep ++ (0, .signal) :: statements 0 1) (by decide +kernel)
  refine ⟨s, hs, hquiet, hneg, fun h => ?_⟩
  have hnonneg : 0 ≤ s.list.standing 0 := h.nonneg 0
  omega

end TagMessaging.Rcu
