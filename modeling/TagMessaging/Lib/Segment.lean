/-
# TagMessaging.Lib.Segment -- singly linked segments over a partial successor function

`next : α → Option (Option α)` reads the successor of a node: `none` when the node is not there
(freed or never allocated), `some none` at the end of the list, `some (some b)` when `b` follows.
`Seg next p xs q` says that from the pointer `p` the links pass through exactly the nodes `xs` and
arrive at the pointer `q`. A list is a segment that ends in the null pointer `none`.

Mutators of a linked list change one link: the head (`Seg.push`) or the link of the node before
the one that is taken out (`Seg.relink`). Both are stated for a list cut in two by `seg_append`.
-/
import Mathlib

namespace TagMessaging.Lib.Segment

variable {α : Type*}

/-- The links from `p` pass through the nodes `xs` and arrive at `q`. -/
def Seg (next : α → Option (Option α)) : Option α → List α → Option α → Prop
  | p, [], q => p = q
  | p, a :: xs, q => p = some a ∧ ∃ p', next a = some p' ∧ Seg next p' xs q

variable {next next' : α → Option (Option α)} {p q r : Option α} {a b : α} {xs ys : List α}

@[simp] theorem seg_nil : Seg next p [] q ↔ p = q := Iff.rfl

@[simp] theorem seg_cons :
    Seg next p (a :: xs) q ↔ p = some a ∧ ∃ p', next a = some p' ∧ Seg next p' xs q := Iff.rfl

theorem seg_append :
    Seg next p (xs ++ ys) r ↔ ∃ q, Seg next p xs q ∧ Seg next q ys r := by
  induction xs generalizing p with
  | nil => simp
  | cons a xs ih =>
      simp only [List.cons_append, seg_cons, ih]
      constructor
      · rintro ⟨rfl, p', hp', q, hxs, hys⟩
        exact ⟨q, ⟨rfl, p', hp', hxs⟩, hys⟩
      · rintro ⟨q, ⟨rfl, p', hp', hxs⟩, hys⟩
        exact ⟨rfl, p', hp', q, hxs, hys⟩

/-- A segment only reads the links of its own nodes. -/
theorem Seg.congr (h : Seg next p xs q) (heq : ∀ a ∈ xs, next' a = next a) :
    Seg next' p xs q := by
  induction xs generalizing p with
  | nil => exact h
  | cons a xs ih =>
      obtain ⟨rfl, p', hp', hxs⟩ := h
      have htail : Seg next' p' xs q := ih hxs fun b hb => heq b (List.mem_cons_of_mem a hb)
      exact ⟨rfl, p', by rw [heq a List.mem_cons_self, hp'], htail⟩

/-- The nodes of a list are determined by its head. -/
theorem Seg.unique (hx : Seg next p xs none) (hy : Seg next p ys none) : xs = ys := by
  induction xs generalizing p ys with
  | nil =>
      subst hx
      cases ys with
      | nil => rfl
      | cons b ys => exact absurd hy.1 (by simp)
  | cons a xs ih =>
      obtain ⟨rfl, p', hp', hxs⟩ := hx
      cases ys with
      | nil => exact absurd hy (by simp)
      | cons b ys =>
          obtain ⟨hab, p'', hp'', hys⟩ := hy
          obtain rfl : a = b := Option.some.inj hab
          obtain rfl : p' = p'' := Option.some.inj (hp'.symm.trans hp'')
          rw [ih hxs hys]

/-- The links of a list never come back: no node occurs twice. -/
theorem Seg.nodup (h : Seg next p xs none) : xs.Nodup := by
  induction xs generalizing p with
  | nil => exact List.nodup_nil
  | cons a xs ih =>
      obtain ⟨rfl, p', hp', hxs⟩ := h
      refine List.nodup_cons.mpr ⟨fun ha => ?_, ih hxs⟩
      -- a second occurrence of `a` would start the same list again, one node shorter
      obtain ⟨pre, post, rfl⟩ := List.append_of_mem ha
      obtain ⟨q, _, hq⟩ := seg_append.mp hxs
      obtain ⟨rfl, p'', hp'', hpost⟩ := hq
      obtain rfl : p' = p'' := Option.some.inj (hp'.symm.trans hp'')
      have hlen := congrArg List.length (hxs.unique hpost)
      simp at hlen
      omega

theorem Seg.head_eq (h : Seg next p (a :: xs) q) : p = some a := h.1

/-- The successor of a node of a list is a node of the list or the null pointer. -/
theorem Seg.next_mem (h : Seg next p xs none) (ha : a ∈ xs) :
    next a = some none ∨ ∃ b ∈ xs, next a = some (some b) := by
  induction xs generalizing p with
  | nil => simp at ha
  | cons c xs ih =>
      obtain ⟨rfl, p', hp', hxs⟩ := h
      rcases List.mem_cons.mp ha with rfl | ha
      · cases xs with
        | nil =>
            obtain rfl := seg_nil.mp hxs
            exact Or.inl hp'
        | cons b xs =>
            obtain rfl := hxs.head_eq
            exact Or.inr ⟨b, by simp, hp'⟩
      · rcases ih hxs ha with h0 | ⟨b, hb, h1⟩
        · exact Or.inl h0
        · exact Or.inr ⟨b, List.mem_cons_of_mem c hb, h1⟩

/-- The head of a list is a node of it or the null pointer. -/
theorem Seg.head_mem (h : Seg next p xs none) : p = none ∨ ∃ a ∈ xs, p = some a := by
  cases xs with
  | nil => exact Or.inl h
  | cons a xs => exact Or.inr ⟨a, by simp, h.head_eq⟩

/-- The list from a node on. -/
theorem Seg.eq_suffix (h : Seg next p (xs ++ a :: ys) none) {zs : List α}
    (hz : Seg next (some a) zs none) : zs = a :: ys := by
  obtain ⟨q, _, hq⟩ := seg_append.mp h
  obtain rfl := hq.head_eq
  exact hz.unique hq

/-- The end of a list, reached by the same pointer under other links. -/
theorem Seg.of_suffix (h : Seg next p xs none) (h' : Seg next' q (ys ++ xs) none) :
    Seg next' p xs none := by
  cases xs with
  | nil => exact h
  | cons a xs =>
      obtain ⟨r, _, hr⟩ := seg_append.mp h'
      obtain rfl := h.head_eq
      obtain rfl := hr.head_eq
      exact hr

/-- Every node of a segment is there. -/
theorem Seg.isSome_next (h : Seg next p xs q) (ha : a ∈ xs) : (next a).isSome := by
  induction xs generalizing p with
  | nil => simp at ha
  | cons c xs ih =>
      obtain ⟨rfl, p', hp', hxs⟩ := h
      rcases List.mem_cons.mp ha with rfl | ha
      · simp [hp']
      · exact ih hxs ha

/-- A node of a list occurs neither before itself nor behind its successor. -/
theorem Seg.middle_notMem (h : Seg next p (xs ++ a :: b :: ys) none) : a ∉ xs ∧ a ∉ ys := by
  obtain ⟨_, htail, hdisj⟩ := List.nodup_append.mp h.nodup
  refine ⟨fun ha => hdisj a ha a List.mem_cons_self rfl, fun ha => ?_⟩
  exact (List.nodup_cons.mp htail).1 (List.mem_cons_of_mem b ha)

/-! ## Following the links -/

/-- The node is met by following the links from the pointer `p`. -/
inductive Follows (next : α → Option (Option α)) (p : Option α) : α → Prop
  | head {a : α} : p = some a → Follows next p a
  | link {a b : α} : Follows next p a → next a = some (some b) → Follows next p b

/-- What follows from the link of a node follows from where the node does. -/
theorem Follows.trans (ha : Follows next p a) (hq : next a = some q) (hb : Follows next q b) :
    Follows next p b := by
  induction hb with
  | head hqb => exact .link ha (hqb ▸ hq)
  | link _ hlink ih => exact .link ih hlink

/-- The nodes met from the head of a list are its nodes. -/
theorem Seg.follows_iff (h : Seg next p xs none) : Follows next p a ↔ a ∈ xs := by
  constructor
  · intro hfollows
    induction hfollows with
    | head hp =>
        rcases h.head_mem with h0 | ⟨b, hb, hpb⟩
        · simp [h0] at hp
        · obtain rfl := Option.some.inj (hp.symm.trans hpb)
          exact hb
    | link _ hlink ih =>
        rcases h.next_mem ih with h0 | ⟨b, hb, hab⟩
        · simp [h0] at hlink
        · simp only [hab, Option.some.injEq] at hlink
          exact hlink ▸ hb
  · intro ha
    induction xs generalizing p with
    | nil => simp at ha
    | cons c xs ih =>
        obtain ⟨rfl, p', hp', hxs⟩ := h
        rcases List.mem_cons.mp ha with rfl | ha
        · exact .head rfl
        · exact (Follows.head rfl).trans hp' (ih hxs ha)

section Update

variable [DecidableEq α]

/-- Writing the link of a node outside a segment leaves the segment alone. -/
theorem Seg.update_of_notMem (h : Seg next p xs q) (ha : a ∉ xs) (v : Option (Option α)) :
    Seg (Function.update next a v) p xs q :=
  by
  refine h.congr ?_
  intro b hb
  have hba : b ≠ a := by
    rintro rfl
    exact ha hb
  simp [hba]

/-- A node put in front of a list. -/
theorem Seg.push (h : Seg next p xs q) (ha : a ∉ xs) :
    Seg (Function.update next a (some p)) (some a) (a :: xs) q :=
  ⟨rfl, p, Function.update_self .., h.update_of_notMem ha _⟩

/-- The node `b` taken out from behind `a`: the link of `a` becomes the link of `b`. -/
theorem Seg.unlink (h : Seg next p (xs ++ a :: b :: ys) none) (hb : next b = some r) :
    Seg (Function.update next a (some r)) p (xs ++ a :: ys) none := by
  obtain ⟨haxs, hays⟩ := h.middle_notMem
  obtain ⟨p', hxs, rfl, p'', _, rfl, r', hr', hys⟩ := seg_append.mp h
  obtain rfl : r' = r := Option.some.inj (hr'.symm.trans hb)
  exact seg_append.mpr ⟨some a, hxs.update_of_notMem haxs _, rfl, r', Function.update_self ..,
    hys.update_of_notMem hays _⟩

/-- The node `c` put in the place of `b` behind `a`. -/
theorem Seg.relink {c : α} (h : Seg next p (xs ++ a :: b :: ys) none) (hb : next b = some r)
    (hc : c ∉ xs ++ a :: b :: ys) :
    Seg (Function.update (Function.update next a (some (some c))) c (some r)) p
      (xs ++ a :: c :: ys) none := by
  obtain ⟨haxs, hays⟩ := h.middle_notMem
  obtain ⟨p', hxs, rfl, p'', _, rfl, r', hr', hys⟩ := seg_append.mp h
  obtain rfl : r' = r := Option.some.inj (hr'.symm.trans hb)
  simp only [List.mem_append, List.mem_cons, not_or] at hc
  obtain ⟨hcxs, hca, _, hcys⟩ := hc
  refine seg_append.mpr ⟨some a, ?_, rfl, some c, ?_, rfl, r', Function.update_self .., ?_⟩
  · exact (hxs.update_of_notMem haxs _).update_of_notMem hcxs _
  · simp [Ne.symm hca]
  · exact (hys.update_of_notMem hays _).update_of_notMem hcys _

end Update

end TagMessaging.Lib.Segment
