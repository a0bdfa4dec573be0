/-
# TagMessaging.Lib.Transfer -- copying in pieces

A transfer of `len` cells from a source to a target, in rounds: each round asks for all that is
still missing and gets as much as there is room for. Whatever the rooms of the rounds are, what has
arrived is a prefix of the source, as long as the rooms together but not longer than `len`; so the
transfer ends exactly when the rooms add up to `len`.
-/
import Mathlib

namespace TagMessaging.Lib.Transfer

/-- How much has arrived, and what stands at each place of the target. -/
structure Progress (α : Type*) where
  offset : Nat
  target : Nat → Option α

variable {α : Type*} {src : Nat → α} {len n k : Nat} {room : Nat → Nat} {t : Progress α}

/-- Nothing has arrived. -/
def Progress.start : Progress α := { offset := 0, target := fun _ => none }

/-- The next `n` cells arrive. -/
def Progress.advance (src : Nat → α) (n : Nat) (t : Progress α) : Progress α :=
  { offset := t.offset + n
    target := fun i => if t.offset ≤ i ∧ i < t.offset + n then some (src i) else t.target i }

/-- The transfer after some rounds. -/
def after (src : Nat → α) (len : Nat) (room : Nat → Nat) : Nat → Progress α
  | 0 => .start
  | k + 1 =>
      let t := after src len room k
      t.advance src (min (room k) (len - t.offset))

/-- The target holds the source as far as the offset, and nothing from there on. -/
def Progress.Copied (src : Nat → α) (t : Progress α) : Prop :=
  ∀ i, t.target i = if i < t.offset then some (src i) else none

theorem Progress.Copied.advance (h : t.Copied src) (n : Nat) : (t.advance src n).Copied src := by
  intro i
  show (if t.offset ≤ i ∧ i < t.offset + n then some (src i) else t.target i) =
    if i < t.offset + n then some (src i) else none
  rw [h i]
  by_cases hi : i < t.offset
  · rw [if_neg (by omega), if_pos hi, if_pos (by omega)]
  · rw [if_neg hi]
    exact if_congr (by omega) rfl rfl

theorem after_copied (src : Nat → α) (len : Nat) (room : Nat → Nat) (k : Nat) :
    (after src len room k).Copied src := by
  induction k with
  | zero => exact fun i => (if_neg (Nat.not_lt_zero i)).symm
  | succ k ih => exact ih.advance _

/-- The offset is the sum of the rooms, cut at the length. -/
theorem after_offset (src : Nat → α) (len : Nat) (room : Nat → Nat) (k : Nat) :
    (after src len room k).offset = min len (∑ i ∈ Finset.range k, room i) := by
  induction k with
  | zero => simp [after, Progress.start]
  | succ k ih =>
      show (after src len room k).offset + min (room k) (len - (after src len room k).offset) = _
      rw [ih, Finset.sum_range_succ]
      omega

theorem after_offset_le (src : Nat → α) (len : Nat) (room : Nat → Nat) (k : Nat) :
    (after src len room k).offset ≤ len := by
  rw [after_offset]
  exact min_le_left _ _

/-- The rounds end exactly when the rooms add up. -/
theorem after_offset_eq_iff (src : Nat → α) :
    (after src len room k).offset = len ↔ len ≤ ∑ i ∈ Finset.range k, room i := by
  rw [after_offset]
  exact min_eq_left_iff

/-- Rounds with room for at least one cell each end. -/
theorem exists_le_sum (len : Nat) (h : ∀ i, 1 ≤ room i) :
    ∃ k, len ≤ ∑ i ∈ Finset.range k, room i := by
  refine ⟨len, ?_⟩
  have hsum := Finset.card_nsmul_le_sum (Finset.range len) room 1 fun i _ => h i
  simpa using hsum

/-- A complete transfer is a copy. -/
theorem target_of_offset_eq (h : (after src len room k).offset = len) (i : Nat) :
    (after src len room k).target i = if i < len then some (src i) else none := by
  rw [after_copied src len room k i, h]

end TagMessaging.Lib.Transfer
