/-
# TagMessaging.Lib.FirstMatch -- sequences read and written at the first match

A sequence in which the first element that passes a test stands for the others: it is what a
lookup finds, what an update replaces and what a removal takes out. `List.find?` and `List.eraseP`
are the lookup and the removal; `replaceFirst` is the update. The rules below cut the sequence at
the first match, which is the form in which a walk over a linked structure meets it.
-/
import Mathlib

namespace TagMessaging.Lib.FirstMatch

variable {α β : Type*} {p : α → Bool} {a x : α} {xs pre post : List α}

/-- Put `x` in the place of the first element that passes `p`. -/
def replaceFirst (p : α → Bool) (x : α) : List α → List α
  | [] => []
  | a :: as => if p a then x :: as else a :: replaceFirst p x as

/-- A sequence with a match is cut in front of its first one. -/
theorem exists_first (h : ∃ a ∈ xs, p a) :
    ∃ pre a post, xs = pre ++ a :: post ∧ (∀ b ∈ pre, p b = false) ∧ p a = true := by
  induction xs with
  | nil => simp at h
  | cons b xs ih =>
      cases hb : p b with
      | true => exact ⟨[], b, xs, rfl, by simp, hb⟩
      | false =>
          obtain ⟨pre, a, post, rfl, hpre, ha⟩ := ih (by simpa [hb] using h)
          exact ⟨b :: pre, a, post, rfl, by simpa [hb] using hpre, ha⟩

theorem replaceFirst_append (hpre : ∀ b ∈ pre, p b = false) (ha : p a = true) :
    replaceFirst p x (pre ++ a :: post) = pre ++ x :: post := by
  induction pre with
  | nil => simp [replaceFirst, ha]
  | cons b pre ih =>
      have hb : p b = false := hpre b List.mem_cons_self
      simp [replaceFirst, hb, ih fun c hc => hpre c (List.mem_cons_of_mem b hc)]

theorem replaceFirst_of_absent (h : ∀ b ∈ xs, p b = false) : replaceFirst p x xs = xs := by
  induction xs with
  | nil => rfl
  | cons b xs ih =>
      have hb : p b = false := h b List.mem_cons_self
      simp [replaceFirst, hb, ih fun c hc => h c (List.mem_cons_of_mem b hc)]

theorem find?_append_of_first (hpre : ∀ b ∈ pre, p b = false) (ha : p a = true) :
    (pre ++ a :: post).find? p = some a := by
  rw [List.find?_append, List.find?_cons_of_pos ha, List.find?_eq_none.mpr]
  · rfl
  · intro b hb
    simp [hpre b hb]

/-- The first match of `p` behind a cut, after the element `a` gave way to `mid`. Either the test
passes none of them, and the match is the one there was; or nothing in front of `a` passes it, and
the match is that of the whole sequence. -/
theorem find?_give_way {q : α → Bool} {front rest mid : List α}
    (hpre : ∀ b ∈ front ++ rest, q b = false)
    (h : (p a = false ∧ ∀ b ∈ mid, p b = false) ∨ p = q) :
    (rest ++ mid ++ post).find? p = (rest ++ a :: post).find? p ∨
      (rest ++ mid ++ post).find? p = (front ++ rest ++ mid ++ post).find? p := by
  rcases h with ⟨ha, hmid⟩ | rfl
  · left
    have hnone : mid.find? p = none := List.find?_eq_none.mpr fun b hb => by simp [hmid b hb]
    rw [List.append_assoc, List.find?_append, List.find?_append, hnone, List.find?_append,
      List.find?_cons_of_neg (by simp [ha])]
    rfl
  · right
    have hnone : front.find? p = none := List.find?_eq_none.mpr fun b hb => by
      simp [hpre b (List.mem_append_left rest hb)]
    have hskip : ∀ zs : List α, (front ++ zs).find? p = zs.find? p := by
      intro zs
      rw [List.find?_append, hnone]
      rfl
    rw [List.append_assoc front, List.append_assoc front, hskip]

/-- On the image of a sequence without repetitions, replacing the first match of one index changes
the image function at that index only. -/
theorem replaceFirst_map [DecidableEq β] {f : β → α} {is : List β} {i : β} (hnodup : is.Nodup)
    (hi : i ∈ is) (hp : ∀ j ∈ is, p (f j) = true ↔ j = i) :
    replaceFirst p x (is.map f) = is.map (Function.update f i x) := by
  induction is with
  | nil => simp at hi
  | cons j is ih =>
      obtain ⟨hj, hrest⟩ := List.nodup_cons.mp hnodup
      by_cases hji : j = i
      · subst hji
        have hpj : p (f j) = true := (hp j List.mem_cons_self).mpr rfl
        have hsame : is.map (Function.update f j x) = is.map f := by
          refine List.map_congr_left fun k hk => Function.update_of_ne ?_ x f
          rintro rfl
          exact hj hk
        simp [replaceFirst, hpj, hsame]
      · have hpj : p (f j) = false := by
          rw [Bool.eq_false_iff]
          exact fun h => hji ((hp j List.mem_cons_self).mp h)
        have hi' : i ∈ is := by
          rcases List.mem_cons.mp hi with h | h
          · exact absurd h.symm hji
          · exact h
        simp [replaceFirst, hpj, hji,
          ih hrest hi' fun k hk => hp k (List.mem_cons_of_mem j hk)]

/-- A lookup in such an image finds the value at the index. -/
theorem find?_map_eq {f : β → α} {is : List β} {i : β} (hi : i ∈ is)
    (hp : ∀ j ∈ is, p (f j) = true ↔ j = i) : (is.map f).find? p = some (f i) := by
  obtain ⟨pre, a, post, hcut, hpre, ha⟩ := exists_first (p := fun j => p (f j))
    ⟨i, hi, (hp i hi).mpr rfl⟩
  have hai : a = i := (hp a (by simp [hcut])).mp ha
  subst hai
  rw [hcut, List.map_append, List.map_cons]
  refine find?_append_of_first ?_ ha
  intro b hb
  obtain ⟨j, hj, rfl⟩ := List.mem_map.mp hb
  exact hpre j hj

/-! ## Scans in increasing order -/

/-- The first match of a scan in increasing order is the least one. -/
theorem isLeast_of_find? [Preorder α] (hxs : xs.Pairwise (· < ·)) (h : xs.find? p = some a) :
    IsLeast {x | x ∈ xs ∧ p x = true} a := by
  obtain ⟨ha, pre, post, rfl, hpre⟩ := List.find?_eq_some_iff_append.mp h
  refine ⟨⟨by simp, ha⟩, ?_⟩
  rintro x ⟨hx, hpx⟩
  rcases List.mem_append.mp hx with hx | hx
  · have hnot := hpre x hx
    simp [hpx] at hnot
  · rcases List.mem_cons.mp hx with rfl | hx
    · exact le_rfl
    · have htail := (List.pairwise_append.mp hxs).2.1
      exact le_of_lt (List.rel_of_pairwise_cons htail hx)

/-- A scan over two blocks, the first below the second, ends in the first one if it can. -/
theorem isLeast_of_block [LE α] {A B : Set α} (ha : IsLeast A a)
    (h : ∀ y ∈ B, y ∈ A ∨ a ≤ y) (hAB : A ⊆ B) : IsLeast B a := by
  refine ⟨hAB ha.1, fun y hy => ?_⟩
  rcases h y hy with hin | hle
  · exact ha.2 hin
  · exact hle

end TagMessaging.Lib.FirstMatch
