/-
# TagMessaging.Lib.Numeral -- decimal numerals in a text

A signed decimal numeral ends where no digit follows. So a text that goes on with another character
is cut behind its numeral in one way only, and what a reader of digits makes of the text is the
number.
-/
import Mathlib

namespace TagMessaging.Lib.Numeral

/-- The numeral of a number: a sign where it is negative, and its digits. -/
def numeral (z : Int) : List Char :=
  if z < 0 then '-' :: Nat.toDigits 10 z.natAbs else Nat.toDigits 10 z.natAbs

/-- No digit stands at the beginning. -/
def Ends (cs : List Char) : Prop := ∀ c ∈ cs.head?, c.isDigit = false

/-- The number that the digits at the beginning make. -/
def value (cs : List Char) : Nat := Nat.ofDigitChars 10 (cs.takeWhile Char.isDigit) 0

variable {x y : Int} {rest rest' : List Char}

theorem isDigit_toDigits (n : Nat) : ∀ c ∈ Nat.toDigits 10 n, c.isDigit = true :=
  fun _ => Nat.isDigit_of_mem_toDigits (by decide) (by decide)

theorem takeWhile_of_ends (h : Ends rest) : rest.takeWhile Char.isDigit = [] := by
  cases rest with
  | nil => rfl
  | cons c cs =>
      have hc : c.isDigit = false := h c rfl
      simp [hc]

/-- The digits of a number are those in front of what follows. -/
theorem takeWhile_toDigits (n : Nat) (h : Ends rest) :
    (Nat.toDigits 10 n ++ rest).takeWhile Char.isDigit = Nat.toDigits 10 n := by
  rw [List.takeWhile_append_of_pos (isDigit_toDigits n), takeWhile_of_ends h, List.append_nil]

theorem value_toDigits (n : Nat) (h : Ends rest) : value (Nat.toDigits 10 n ++ rest) = n := by
  rw [value, takeWhile_toDigits n h]
  exact Nat.ofDigitChars_ten_toDigits

/-- A numeral begins with a digit or with a sign. -/
theorem head_toDigits (n : Nat) : ∃ c cs, Nat.toDigits 10 n = c :: cs ∧ c.isDigit = true := by
  cases hdigits : Nat.toDigits 10 n with
  | nil => exact absurd hdigits Nat.toDigits_ne_nil
  | cons c cs => exact ⟨c, cs, rfl, isDigit_toDigits n c (by simp [hdigits])⟩

theorem toDigits_append_inj {m n : Nat} (h : Ends rest) (h' : Ends rest')
    (heq : Nat.toDigits 10 m ++ rest = Nat.toDigits 10 n ++ rest') : m = n ∧ rest = rest' := by
  have hvalue : m = n := by rw [← value_toDigits m h, heq, value_toDigits n h']
  subst hvalue
  exact ⟨rfl, List.append_cancel_left heq⟩

theorem numeral_of_neg (h : x < 0) : numeral x = '-' :: Nat.toDigits 10 x.natAbs := if_pos h

theorem numeral_of_nonneg (h : 0 ≤ x) : numeral x = Nat.toDigits 10 x.natAbs :=
  if_neg (not_lt.mpr h)

/-- A number with a sign and one without differ at once. -/
theorem sign_ne_digits (n : Nat) (cs : List Char) : '-' :: cs ≠ Nat.toDigits 10 n ++ rest := by
  intro heq
  obtain ⟨c, ds, hdigits, hc⟩ := head_toDigits n
  rw [hdigits] at heq
  obtain ⟨rfl, _⟩ := List.cons.inj heq
  exact absurd hc (by decide)

/-- **A numeral in front of a text is read in one way.** -/
theorem numeral_append_inj (h : Ends rest) (h' : Ends rest')
    (heq : numeral x ++ rest = numeral y ++ rest') : x = y ∧ rest = rest' := by
  by_cases hx : x < 0 <;> by_cases hy : y < 0
  · rw [numeral_of_neg hx, numeral_of_neg hy] at heq
    obtain ⟨habs, hrest⟩ := toDigits_append_inj h h' (List.cons.inj heq).2
    exact ⟨by omega, hrest⟩
  · rw [numeral_of_neg hx, numeral_of_nonneg (not_lt.mp hy)] at heq
    exact absurd heq (sign_ne_digits _ _)
  · rw [numeral_of_nonneg (not_lt.mp hx), numeral_of_neg hy] at heq
    exact absurd heq.symm (sign_ne_digits _ _)
  · rw [numeral_of_nonneg (not_lt.mp hx), numeral_of_nonneg (not_lt.mp hy)] at heq
    obtain ⟨habs, hrest⟩ := toDigits_append_inj h h' heq
    exact ⟨by omega, hrest⟩

end TagMessaging.Lib.Numeral
