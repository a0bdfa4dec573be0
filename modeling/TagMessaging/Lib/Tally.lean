/-
# TagMessaging.Lib.Tally -- sums over a finite family of threads

A shared counter that every thread raises and lowers is exact when it equals the sum, over all
threads, of what each one currently holds. `tally w th` is that sum: `w` reads a thread's local
state as the amount it holds. One step changes the local state of one thread, so all a client
needs is how the sum moves under `Function.update`. `count` is the sum that gives every thread with
a property the weight 1.
-/
import Mathlib

namespace TagMessaging.Lib.Tally

variable {τ π : Type*} [Fintype τ]

/-- The total amount the threads hold. -/
def tally (w : π → Int) (th : τ → π) : Int := ∑ t, w (th t)

variable {w : π → Int} {th : τ → π}

/-- No weight anywhere. -/
theorem tally_eq_zero (h : ∀ t, w (th t) = 0) : tally w th = 0 :=
  Finset.sum_eq_zero fun t _ => h t

/-- When no thread holds a negative amount, no thread holds more than the total. -/
theorem le_tally (hw : ∀ p, 0 ≤ w p) (t : τ) : w (th t) ≤ tally w th :=
  by
  have hall : ∀ i ∈ Finset.univ, 0 ≤ (fun i => w (th i)) i := fun i _ => hw (th i)
  exact Finset.single_le_sum hall (Finset.mem_univ t)

/-- A sum of smaller weights is smaller. -/
theorem tally_le_tally {th' : τ → π} (h : ∀ t, w (th' t) ≤ w (th t)) : tally w th' ≤ tally w th :=
  Finset.sum_le_sum fun t _ => h t

theorem tally_nonneg (hw : ∀ p, 0 ≤ w p) : 0 ≤ tally w th :=
  Finset.sum_nonneg fun i _ => hw (th i)

/-! ## Counting -/

/-- How many threads satisfy `P`. -/
def count (P : π → Prop) [DecidablePred P] (th : τ → π) : Int :=
  tally (fun p => if P p then 1 else 0) th

variable {P : π → Prop} [DecidablePred P]

theorem ind_nonneg (p : π) : (0 : Int) ≤ if P p then 1 else 0 := by
  split <;> decide

theorem count_nonneg : 0 ≤ count P th := tally_nonneg ind_nonneg

theorem count_eq_zero (h : ∀ t, ¬ P (th t)) : count P th = 0 :=
  tally_eq_zero fun t => if_neg (h t)

/-- One of them is enough. -/
theorem count_pos {t : τ} (h : P (th t)) : 0 < count P th := by
  have hle : (if P (th t) then 1 else 0) ≤ count P th := le_tally ind_nonneg t
  rw [if_pos h] at hle
  exact hle

theorem count_eq_card : count P th = (Finset.univ.filter fun t => P (th t)).card := by
  simp [count, tally, Finset.sum_boole]

/-- With fewer of them the count is lower. -/
theorem count_le_count {th' : τ → π} (h : ∀ t, P (th' t) → P (th t)) :
    count P th' ≤ count P th := by
  refine tally_le_tally fun t => ?_
  by_cases hp : P (th' t)
  · rw [if_pos hp, if_pos (h t hp)]
  · rw [if_neg hp]
    exact ind_nonneg _

theorem count_congr {th' : τ → π} (h : ∀ t, P (th' t) ↔ P (th t)) : count P th' = count P th :=
  le_antisymm (count_le_count fun t => (h t).mp) (count_le_count fun t => (h t).mpr)

/-- A family in which everybody has the property, and one in which somebody does not. -/
theorem count_eq_of_forall (h : ∀ t, P (th t)) : count P th = Fintype.card τ := by
  rw [count_eq_card, Finset.filter_true_of_mem fun t _ => h t, Finset.card_univ]

/-- A count below the number of threads leaves one out. -/
theorem exists_not_of_count_lt (h : count P th < Fintype.card τ) : ∃ t, ¬ P (th t) := by
  by_contra hall
  simp only [not_exists, not_not] at hall
  exact absurd (count_eq_of_forall hall) (ne_of_lt h)

theorem count_lt_card {t : τ} (h : ¬ P (th t)) : count P th < Fintype.card τ := by
  rw [count_eq_card, Nat.cast_lt, ← Finset.card_univ]
  refine Finset.card_lt_card (Finset.filter_ssubset.mpr ⟨t, Finset.mem_univ t, h⟩)

/-- A wider property, which somebody has in addition. -/
theorem count_lt_count {Q : π → Prop} [DecidablePred Q] {t : τ} (h : ∀ t, Q (th t) → P (th t))
    (hp : P (th t)) (hq : ¬ Q (th t)) : count Q th < count P th := by
  rw [count_eq_card, count_eq_card, Nat.cast_lt]
  refine Finset.card_lt_card ⟨fun u hu => ?_, fun hsub => hq ?_⟩
  · simp only [Finset.mem_filter, Finset.mem_univ, true_and] at hu ⊢
    exact h u hu
  · have ht := hsub (show t ∈ Finset.univ.filter fun t => P (th t) by simpa using hp)
    simpa using ht

/-- Everybody with the property has a partner in one of two families, and shares it with nobody. -/
theorem count_le_add {υ ι ρ κ : Type*} [Fintype υ] [Fintype ι] {Q : ρ → Prop} [DecidablePred Q]
    {R : κ → Prop} [DecidablePred R] {f : υ → ρ} {g : ι → κ} (left : τ → υ → Prop)
    (right : τ → ι → Prop)
    (hex : ∀ t, P (th t) → (∃ u, Q (f u) ∧ left t u) ∨ ∃ i, R (g i) ∧ right t i)
    (hleft : ∀ t t' u, P (th t) → P (th t') → left t u → left t' u → t = t')
    (hright : ∀ t t' i, P (th t) → P (th t') → right t i → right t' i → t = t') :
    count P th ≤ count Q f + count R g := by
  rw [count_eq_card, count_eq_card, count_eq_card, ← Nat.cast_add, Nat.cast_le,
    ← Finset.card_disjSum]
  refine Finset.card_le_card_of_forall_subsingleton
    (fun t => Sum.elim (left t) (right t)) (fun t ht => ?_) fun x hx => ?_
  · have hp : P (th t) := by simpa using ht
    rcases hex t hp with ⟨u, hu, hr⟩ | ⟨i, hi, hr⟩
    · exact ⟨.inl u, by simpa using hu, hr⟩
    · exact ⟨.inr i, by simpa using hi, hr⟩
  · rintro t ⟨ht, hr⟩ t' ⟨ht', hr'⟩
    simp only [Finset.mem_univ, true_and, Finset.mem_filter] at ht ht'
    cases x with
    | inl u => exact hleft t t' u ht ht' hr hr'
    | inr i => exact hright t t' i ht ht' hr hr'

variable [DecidableEq τ]

/-- One thread moves to `p`: its old amount leaves the sum, its new amount enters it. -/
theorem tally_update (t : τ) (p : π) :
    tally w (Function.update th t p) = tally w th - w (th t) + w p := by
  have hsum : ∑ i, w (Function.update th t p i) = w p + ∑ i ∈ Finset.univ \ {t}, w (th i) := by
    have h := Finset.sum_update_of_mem (Finset.mem_univ t) (fun i => w (th i)) (w p)
    rw [← h]
    refine Finset.sum_congr rfl fun i _ => ?_
    by_cases hi : i = t
    · subst hi
      simp
    · simp [hi]
  have hold : ∑ i, w (th i) = w (th t) + ∑ i ∈ Finset.univ \ {t}, w (th i) := by
    rw [← Finset.add_sum_erase _ _ (Finset.mem_univ t), Finset.sdiff_singleton_eq_erase]
  unfold tally
  rw [hsum, hold]
  ring

/-- A step that keeps the amount of the thread that takes it keeps the sum. -/
theorem tally_update_of_eq {t : τ} {p : π} (h : w p = w (th t)) :
    tally w (Function.update th t p) = tally w th := by
  rw [tally_update, h]
  ring

/-- One thread goes on to `p`. -/
theorem count_update (t : τ) (p : π) : count P (Function.update th t p) =
    count P th - (if P (th t) then 1 else 0) + (if P p then 1 else 0) :=
  tally_update t p

theorem count_update_of_iff {t : τ} {p : π} (h : P p ↔ P (th t)) :
    count P (Function.update th t p) = count P th := by
  rw [count_update]
  simp [h]

theorem count_update_of_imp {t : τ} {p : π} (h : P p → P (th t)) :
    count P (Function.update th t p) ≤ count P th := by
  refine count_le_count fun u hu => ?_
  by_cases hut : u = t
  · subst hut
    exact h (by simpa using hu)
  · simpa [hut] using hu

/-! ## Measures -/

end TagMessaging.Lib.Tally
