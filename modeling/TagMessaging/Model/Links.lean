/-
# TagMessaging.Model.Links -- what the walks and relinkings do to the sequence of elements

The links of a list form a segment (`Seg (nextOf elements) head xs none`). Each pure function of
`Model.RcuList` is specified on that sequence: the walks find the first element with the key, the
relinkings put the new element in front, take the first element with the key out, or put the new
one in its place, and change nothing but `next` fields.
-/
import TagMessaging.Model.RcuList
import TagMessaging.Lib.Segment

namespace TagMessaging.Model

open TagMessaging.Lib.Segment

/-- The successor of an element. -/
def nextOf (elements : Addr → Option Element) (a : Addr) : Option Ptr :=
  (elements a).map Element.next

/-- The element at `a` is there and its level is `key`. -/
def LevelIs (elements : Addr → Option Element) (key : Int32) (a : Addr) : Prop :=
  ∃ e, elements a = some e ∧ e.level = key

/-- What an element carries besides its link. -/
structure Entry where
  level : Int32
  message : Ptr
  size : Nat
  deriving DecidableEq, Repr

/-- The entry of an element. -/
def Element.entry (e : Element) : Entry :=
  { level := e.level, message := e.message, size := e.size }

/-- The entry stored at `a`. -/
def entryAt (elements : Addr → Option Element) (a : Addr) : Option Entry :=
  (elements a).map Element.entry

variable {elements : Addr → Option Element} {key : Int32} {fuel : Nat} {p head : Ptr}
variable {a b q new : Addr} {xs pre mid post : List Addr}

theorem nextOf_eq_some_iff {p' : Ptr} :
    nextOf elements a = some p' ↔ ∃ e, elements a = some e ∧ e.next = p' := by
  simp [nextOf]

theorem derefElement_some {e : Element} (h : elements a = some e) :
    derefElement elements (some a) = .ok e := by
  simp [derefElement, h]

theorem levelIs_iff {e : Element} (h : elements a = some e) :
    LevelIs elements key a ↔ e.level = key := by
  simp [LevelIs, h]

theorem levelIs_iff_entryAt :
    LevelIs elements key a ↔ ∃ x, entryAt elements a = some x ∧ x.level = key := by
  simp [LevelIs, entryAt, Element.entry]

/-- The fuel of the walks is enough: a list has fewer elements than names in use. -/
theorem length_le_of_seg {n : Nat} (h : Seg (nextOf elements) head xs none)
    (hlt : ∀ a ∈ xs, a < n) : xs.length ≤ n := by
  have hsub : xs ⊆ List.range n := fun a ha => List.mem_range.mpr (hlt a ha)
  simpa using (List.subperm_of_subset h.nodup hsub).length_le

/-! ## The walks -/

/-- A walk over a list without the key ends at `NULL`. -/
theorem findLevel_of_absent (h : Seg (nextOf elements) p xs none)
    (hkey : ∀ a ∈ xs, ¬ LevelIs elements key a) (hfuel : xs.length ≤ fuel) :
    findLevel elements key fuel p = .ok none := by
  induction xs generalizing p fuel with
  | nil =>
      obtain rfl := seg_nil.mp h
      cases fuel <;> rfl
  | cons a xs ih =>
      obtain ⟨rfl, p', hp', hxs⟩ := h
      obtain ⟨e, he, rfl⟩ := nextOf_eq_some_iff.mp hp'
      have hne : e.level ≠ key := fun hl => hkey a List.mem_cons_self ((levelIs_iff he).mpr hl)
      cases fuel with
      | zero => simp at hfuel
      | succ fuel =>
          have hrest := ih hxs (fun b hb => hkey b (List.mem_cons_of_mem a hb))
            (Nat.le_of_succ_le_succ hfuel)
          simpa [findLevel, derefElement_some he, hne, bind, Except.bind] using hrest

/-- Otherwise it ends at the first element with the key. -/
theorem findLevel_of_first (h : Seg (nextOf elements) p (pre ++ a :: post) none)
    (hpre : ∀ b ∈ pre, ¬ LevelIs elements key b) (ha : LevelIs elements key a)
    (hfuel : pre.length < fuel) : findLevel elements key fuel p = .ok (some a) := by
  induction pre generalizing p fuel with
  | nil =>
      obtain ⟨rfl, _⟩ := h
      obtain ⟨e, he, hl⟩ := ha
      cases fuel with
      | zero => simp at hfuel
      | succ fuel => simp [findLevel, derefElement_some he, hl, bind, Except.bind, pure, Except.pure]
  | cons b pre ih =>
      obtain ⟨rfl, p', hp', hxs⟩ := h
      obtain ⟨e, he, rfl⟩ := nextOf_eq_some_iff.mp hp'
      have hne : e.level ≠ key := fun hl => hpre b List.mem_cons_self ((levelIs_iff he).mpr hl)
      cases fuel with
      | zero => simp at hfuel
      | succ fuel =>
          have hrest := ih hxs (fun c hc => hpre c (List.mem_cons_of_mem b hc))
            (Nat.lt_of_succ_lt_succ hfuel)
          simpa [findLevel, derefElement_some he, hne, bind, Except.bind] using hrest

/-- The look-ahead walk over a list without the key behind its first element ends at `NULL`. -/
theorem findBefore_of_absent (h : Seg (nextOf elements) (some a) (a :: xs) none)
    (hkey : ∀ b ∈ xs, ¬ LevelIs elements key b) (hfuel : xs.length < fuel) :
    findBefore elements key fuel (some a) = .ok none := by
  induction xs generalizing a fuel with
  | nil =>
      obtain ⟨_, p', hp', rfl⟩ := h
      obtain ⟨e, he, hnext⟩ := nextOf_eq_some_iff.mp hp'
      cases fuel with
      | zero => simp at hfuel
      | succ fuel =>
          cases fuel <;> simp [findBefore, derefElement_some he, hnext, bind, Except.bind]
  | cons b xs ih =>
      obtain ⟨_, p', hp', hxs⟩ := h
      obtain ⟨e, he, rfl⟩ := nextOf_eq_some_iff.mp hp'
      have hnext : e.next = some b := hxs.head_eq
      rw [hnext] at hxs
      obtain ⟨eb, heb⟩ := Option.isSome_iff_exists.mp (show (elements b).isSome by
        simpa [nextOf] using hxs.isSome_next List.mem_cons_self)
      have hne : eb.level ≠ key := fun hl => hkey b List.mem_cons_self ((levelIs_iff heb).mpr hl)
      cases fuel with
      | zero => simp at hfuel
      | succ fuel =>
          have hrest := ih hxs (fun c hc => hkey c (List.mem_cons_of_mem b hc))
            (Nat.lt_of_succ_lt_succ hfuel)
          simpa [findBefore, derefElement_some he, derefElement_some heb, hnext, hne, bind,
            Except.bind] using hrest

/-- Otherwise it ends at the element in front of the first one with the key. -/
theorem findBefore_of_first
    (h : Seg (nextOf elements) (some b) (pre ++ q :: a :: post) none)
    (hhead : (pre ++ [q]).head? = some b)
    (hpre : ∀ c ∈ (pre ++ [q]).tail, ¬ LevelIs elements key c) (ha : LevelIs elements key a)
    (hfuel : pre.length < fuel) : findBefore elements key fuel (some b) = .ok (some q) := by
  induction pre generalizing b fuel with
  | nil =>
      obtain rfl : q = b := by simpa using hhead
      obtain ⟨_, p', hp', hxs⟩ := h
      obtain ⟨e, he, rfl⟩ := nextOf_eq_some_iff.mp hp'
      have hnext : e.next = some a := hxs.head_eq
      obtain ⟨ea, hea, hl⟩ := ha
      cases fuel with
      | zero => simp at hfuel
      | succ fuel =>
          simp [findBefore, derefElement_some he, derefElement_some hea, hnext, hl, bind,
            Except.bind, pure, Except.pure]
  | cons c pre ih =>
      obtain rfl : c = b := by simpa using hhead
      rw [List.cons_append, seg_cons] at h
      obtain ⟨_, p', hp', hxs⟩ := h
      obtain ⟨e, he, rfl⟩ := nextOf_eq_some_iff.mp hp'
      obtain ⟨d, rest, hd⟩ : ∃ d rest, pre ++ [q] = d :: rest :=
        List.exists_cons_of_ne_nil (by simp)
      have hcut : pre ++ q :: a :: post = d :: (rest ++ a :: post) := by
        rw [← List.cons_append, ← hd, List.append_assoc]
        rfl
      have hnext : e.next = some d := by
        rw [hcut] at hxs
        exact hxs.head_eq
      have hdpre : d ∈ (c :: pre ++ [q]).tail := by simp [hd]
      obtain ⟨ed, hed⟩ := Option.isSome_iff_exists.mp (show (elements d).isSome by
        rw [hcut] at hxs
        simpa [nextOf] using hxs.isSome_next List.mem_cons_self)
      have hne : ed.level ≠ key := fun hl => hpre d hdpre ((levelIs_iff hed).mpr hl)
      rw [hnext] at hxs
      cases fuel with
      | zero => simp at hfuel
      | succ fuel =>
          have hrest := ih hxs (by simp [hd])
            (fun c' hc' => hpre c' (by
              simp only [List.cons_append, List.tail_cons]
              exact List.mem_of_mem_tail hc'))
            (Nat.lt_of_succ_lt_succ hfuel)
          simpa [findBefore, derefElement_some he, derefElement_some hed, hnext, hne, bind,
            Except.bind] using hrest

/-! ## Writing a link -/

theorem nextOf_setNext {e : Element} (h : elements a = some e) :
    nextOf (setNext elements a p) = Function.update (nextOf elements) a (some p) := by
  funext b
  by_cases hb : b = a
  · subst hb
    simp [nextOf, setNext, h]
  · simp [nextOf, setNext, hb]

@[simp] theorem entryAt_setNext : entryAt (setNext elements a p) = entryAt elements := by
  funext b
  by_cases hb : b = a
  · subst hb
    cases h : elements b <;> simp [entryAt, setNext, Element.entry, h]
  · simp [entryAt, setNext, hb]

theorem setNext_of_ne (h : b ≠ a) : setNext elements a p b = elements b := by
  simp [setNext, h]

/-! ## The relinkings -/

/-- Taking over a relinking changes no entry, and no element outside the new list: the one taken
out keeps its link. -/
structure Relinked.Spec (elements : Addr → Option Element) (ys : List Addr) (r : Relinked) :
    Prop where
  seg : Seg (nextOf r.elements) r.head ys none
  entries : entryAt r.elements = entryAt elements
  frame : ∀ b, b ∉ ys → r.elements b = elements b

theorem relinkInsert_spec (h : Seg (nextOf elements) head xs none) (hnew : (elements new).isSome)
    (hfresh : new ∉ xs) : (relinkInsert elements head new).Spec elements (new :: xs) := by
  obtain ⟨e, he⟩ := Option.isSome_iff_exists.mp hnew
  refine ⟨?_, by simp [relinkInsert], ?_⟩
  · simp only [relinkInsert, nextOf_setNext he]
    exact h.push hfresh
  · intro b hb
    have hne : b ≠ new := fun hbn => hb (hbn ▸ List.mem_cons_self)
    exact setNext_of_ne hne

/-- A list without the key makes `rcu_list_replace` return early. -/
theorem relinkReplace_of_absent (new : Addr) (h : Seg (nextOf elements) head xs none)
    (hkey : ∀ a ∈ xs, ¬ LevelIs elements key a) (hfuel : xs.length ≤ fuel) :
    relinkReplace elements fuel head key new = .ok none := by
  cases xs with
  | nil =>
      obtain rfl := seg_nil.mp h
      rfl
  | cons a xs =>
      obtain rfl := h.head_eq
      obtain ⟨e, he⟩ := Option.isSome_iff_exists.mp (show (elements a).isSome by
        simpa [nextOf] using h.isSome_next List.mem_cons_self)
      have hne : e.level ≠ key := fun hl => hkey a List.mem_cons_self ((levelIs_iff he).mpr hl)
      have hwalk := findBefore_of_absent h (fun b hb => hkey b (List.mem_cons_of_mem a hb)) hfuel
      simp [relinkReplace, derefElement_some he, hne, hwalk, bind, Except.bind, pure, Except.pure]

/-- A first element without the key, and the element in front of the first one with it. -/
theorem walk_to_first (h : Seg (nextOf elements) head (pre ++ q :: a :: post) none)
    (hpre : ∀ b ∈ pre ++ [q], ¬ LevelIs elements key b) (ha : LevelIs elements key a)
    (hfuel : pre.length < fuel) :
    ∃ c e eq, head = some c ∧ elements c = some e ∧ e.level ≠ key ∧
      findBefore elements key fuel head = .ok (some q) ∧ elements q = some eq ∧
      eq.next = some a := by
  obtain ⟨c, rest, hc⟩ : ∃ c rest, pre ++ [q] = c :: rest := List.exists_cons_of_ne_nil (by simp)
  have hcut : pre ++ q :: a :: post = c :: (rest ++ a :: post) := by
    rw [← List.cons_append, ← hc, List.append_assoc]
    rfl
  obtain rfl : head = some c := by
    rw [hcut] at h
    exact h.head_eq
  obtain ⟨e, he⟩ := Option.isSome_iff_exists.mp (show (elements c).isSome by
    rw [hcut] at h
    simpa [nextOf] using h.isSome_next List.mem_cons_self)
  have hne : e.level ≠ key := fun hl => hpre c (by simp [hc]) ((levelIs_iff he).mpr hl)
  obtain ⟨_, _, _, p', hp', hxs⟩ := seg_append.mp h
  obtain ⟨eq, heq, rfl⟩ := nextOf_eq_some_iff.mp hp'
  have hwalk := findBefore_of_first h (by simp [hc])
    (fun b hb => hpre b (List.mem_of_mem_tail hb)) ha hfuel
  exact ⟨c, e, eq, rfl, he, hne, hwalk, heq, hxs.head_eq⟩

/-- Otherwise the new element takes the place of the first one with the key. -/
theorem relinkReplace_of_first (h : Seg (nextOf elements) head (pre ++ a :: post) none)
    (hpre : ∀ b ∈ pre, ¬ LevelIs elements key b) (ha : LevelIs elements key a)
    (hnew : (elements new).isSome) (hfresh : new ∉ pre ++ a :: post)
    (hfuel : pre.length ≤ fuel) :
    ∃ r, relinkReplace elements fuel head key new = .ok (some r) ∧ r.removed = some a ∧
      r.Spec elements (pre ++ new :: post) := by
  obtain ⟨en, hen⟩ := Option.isSome_iff_exists.mp hnew
  have hla := ha
  obtain ⟨ea, hea, hl⟩ := hla
  rcases List.eq_nil_or_concat' pre with rfl | ⟨init, q, rfl⟩
  · -- the head is replaced
    obtain ⟨rfl, p', hp', hpost⟩ := h
    obtain ⟨e', he', rfl⟩ := nextOf_eq_some_iff.mp hp'
    obtain rfl : ea = e' := Option.some.inj (hea.symm.trans he')
    refine ⟨⟨setNext elements new ea.next, some new, some a⟩, ?_, rfl, ?_, by simp, ?_⟩
    · simp [relinkReplace, derefElement_some hea, hl, bind, Except.bind, pure, Except.pure]
    · rw [nextOf_setNext hen]
      exact hpost.push fun hm => hfresh (by simp [hm])
    · intro b hb
      exact setNext_of_ne fun hbn => hb (by simp [hbn])
  · -- an inner element is replaced; `q` is the one before it
    rw [List.append_assoc, List.singleton_append] at h hfresh
    have hinit : init.length < fuel := Nat.lt_of_succ_le (by simpa using hfuel)
    obtain ⟨c, e, eq, rfl, he, hne, hwalk, heq, hnext⟩ := walk_to_first h hpre ha hinit
    have hqn : new ≠ q := fun hn => hfresh (by simp [hn])
    have hlinked : setNext elements q (some new) new = some en := by rw [setNext_of_ne hqn, hen]
    refine ⟨⟨setNext (setNext elements q (some new)) new ea.next, some c, some a⟩, ?_, rfl, ?_,
      by simp, ?_⟩
    · simp [relinkReplace, derefElement_some he, hne, hwalk, derefElement_some heq, hnext,
        derefElement_some hea, bind, Except.bind, pure, Except.pure]
    · rw [List.append_assoc, List.singleton_append, nextOf_setNext hlinked, nextOf_setNext heq]
      exact h.relink (nextOf_eq_some_iff.mpr ⟨ea, hea, rfl⟩) hfresh
    · intro b hb
      have hbn : b ≠ new := fun hbn => hb (by simp [hbn])
      have hbq : b ≠ q := fun hbq => hb (by simp [hbq])
      show setNext (setNext elements q (some new)) new ea.next b = elements b
      rw [setNext_of_ne hbn, setNext_of_ne hbq]

/-- A list without the key is left alone by `rcu_list_remove`. -/
theorem relinkRemove_of_absent (h : Seg (nextOf elements) head xs none)
    (hkey : ∀ a ∈ xs, ¬ LevelIs elements key a) (hfuel : xs.length ≤ fuel) :
    relinkRemove elements fuel head key =
      .ok { elements := elements, head := head, removed := none } := by
  cases xs with
  | nil =>
      obtain rfl := seg_nil.mp h
      rfl
  | cons a xs =>
      obtain rfl := h.head_eq
      obtain ⟨e, he⟩ := Option.isSome_iff_exists.mp (show (elements a).isSome by
        simpa [nextOf] using h.isSome_next List.mem_cons_self)
      have hne : e.level ≠ key := fun hl => hkey a List.mem_cons_self ((levelIs_iff he).mpr hl)
      have hwalk := findBefore_of_absent h (fun b hb => hkey b (List.mem_cons_of_mem a hb)) hfuel
      simp [relinkRemove, derefElement_some he, hne, hwalk, bind, Except.bind, pure, Except.pure]

/-- Otherwise the first element with the key is taken out. -/
theorem relinkRemove_of_first (h : Seg (nextOf elements) head (pre ++ a :: post) none)
    (hpre : ∀ b ∈ pre, ¬ LevelIs elements key b) (ha : LevelIs elements key a)
    (hfuel : pre.length ≤ fuel) :
    ∃ r, relinkRemove elements fuel head key = .ok r ∧ r.removed = some a ∧
      r.Spec elements (pre ++ post) := by
  have hla := ha
  obtain ⟨ea, hea, hl⟩ := hla
  rcases List.eq_nil_or_concat' pre with rfl | ⟨init, q, rfl⟩
  · obtain ⟨rfl, p', hp', hpost⟩ := h
    obtain ⟨e', he', rfl⟩ := nextOf_eq_some_iff.mp hp'
    obtain rfl : ea = e' := Option.some.inj (hea.symm.trans he')
    refine ⟨⟨elements, ea.next, some a⟩, ?_, rfl, hpost, rfl, fun _ _ => rfl⟩
    simp [relinkRemove, derefElement_some hea, hl, bind, Except.bind, pure, Except.pure]
  · rw [List.append_assoc, List.singleton_append] at h
    have hinit : init.length < fuel := Nat.lt_of_succ_le (by simpa using hfuel)
    obtain ⟨c, e, eq, rfl, he, hne, hwalk, heq, hnext⟩ := walk_to_first h hpre ha hinit
    refine ⟨⟨setNext elements q ea.next, some c, some a⟩, ?_, rfl, ?_, by simp, ?_⟩
    · simp [relinkRemove, derefElement_some he, hne, hwalk, derefElement_some heq, hnext,
        derefElement_some hea, bind, Except.bind, pure, Except.pure]
    · rw [List.append_assoc, List.singleton_append, nextOf_setNext heq]
      exact h.unlink (nextOf_eq_some_iff.mpr ⟨ea, hea, rfl⟩)
    · intro b hb
      exact setNext_of_ne fun hbq => hb (by simp [hbq])

end TagMessaging.Model
