/-
# TagMessaging.Rcu.Invariant -- where a reader's pointer may lead

`InvAt s xs`: the list passes through `xs`; the elements that writers keep out of it, new ones and
removed ones, are there and have one owner each; a reader points into the list or to the one
element that the writer in the critical section has taken out and still has to wait for that
reader. Each kind of step keeps it. Three of them carry the argument: the relinking hands an element
over from the list to its writer (`InvAt.relink`), the test of a counter ends the wait for one epoch
(`InvAt.cleared`, `InvAt.drained`), a hop stays inside (`InvAt.hop`).
-/
import TagMessaging.Rcu.Counters
import TagMessaging.Lib.FirstMatch

namespace TagMessaging.Rcu

open TagMessaging.Model TagMessaging.Lib.Segment TagMessaging.Lib.FirstMatch

variable {τ : Type} {s s' : St τ} {t : τ} {p : Pc} {xs : List Addr}

/-! ## The relinkings -/

/-- What a relinking does to the addresses of the list: it links in the new element, takes out at
most one, and the link of that one still leads into the list. -/
structure Relinks (elements : Addr → Option Element) (new : Ptr) (xs ys : List Addr)
    (r : Relinked) : Prop where
  spec : r.Spec elements ys
  mem : ∀ b ∈ ys, b ∈ xs ∨ new = some b
  stays : ∀ b ∈ xs, b ∈ ys ∨ r.removed = some b
  removed : ∀ a, r.removed = some a → a ∈ xs ∧ a ∉ ys ∧
    ∀ q, nextOf elements a = some q → q = none ∨ ∃ b ∈ ys, q = some b

variable {elements : Addr → Option Element} {head : Ptr} {key : Int32} {pre post : List Addr}
variable {a new : Addr}

/-- The successor of an element in the middle of a list. -/
theorem next_mem_post (h : Seg (nextOf elements) head (pre ++ a :: post) none) {q : Ptr}
    (hq : nextOf elements a = some q) : q = none ∨ ∃ b ∈ post, q = some b := by
  obtain ⟨_, _, rfl, q', hq', hpost⟩ := seg_append.mp h
  obtain rfl : q' = q := Option.some.inj (hq'.symm.trans hq)
  exact hpost.head_mem

/-- A list has a first element with the key, or none. -/
theorem first_or_absent (elements : Addr → Option Element) (key : Int32) (xs : List Addr) :
    (∀ a ∈ xs, ¬ LevelIs elements key a) ∨
      ∃ pre a post, xs = pre ++ a :: post ∧ (∀ b ∈ pre, ¬ LevelIs elements key b) ∧
        LevelIs elements key a := by
  classical
  by_cases h : ∃ a ∈ xs, LevelIs elements key a
  · obtain ⟨pre, a, post, rfl, hpre, ha⟩ :=
      exists_first (p := fun a => decide (LevelIs elements key a)) (by simpa using h)
    exact Or.inr ⟨pre, a, post, rfl, by simpa using hpre, by simpa using ha⟩
  · exact Or.inl fun a ha hl => h ⟨a, ha, hl⟩

theorem insert_relinks (h : Seg (nextOf elements) head xs none) (hnew : (elements new).isSome)
    (hfresh : new ∉ xs) :
    Relinks elements (some new) xs (new :: xs) (relinkInsert elements head new) where
  spec := relinkInsert_spec h hnew hfresh
  mem := fun b hb => (List.mem_cons.mp hb).symm.imp_right fun hbn => by rw [hbn]
  stays := fun b hb => Or.inl (List.mem_cons_of_mem new hb)
  removed := fun _ hr => by cases hr

theorem replace_relinks {fuel : Nat} (key : Int32) (h : Seg (nextOf elements) head xs none)
    (hnew : (elements new).isSome) (hfresh : new ∉ xs) (hfuel : xs.length ≤ fuel) :
    relinkReplace elements fuel head key new = .ok none ∨
      ∃ r ys, relinkReplace elements fuel head key new = .ok (some r) ∧
        Relinks elements (some new) xs ys r := by
  rcases first_or_absent elements key xs with habs | ⟨pre, a, post, rfl, hpre, ha⟩
  · exact Or.inl (relinkReplace_of_absent _ h habs hfuel)
  · obtain ⟨r, hr, hremoved, hspec⟩ := relinkReplace_of_first h hpre ha hnew hfresh
      (le_trans (by simp) hfuel)
    refine Or.inr ⟨r, pre ++ new :: post, hr, hspec, ?_, ?_, ?_⟩
    · intro b hb
      simp only [List.mem_append, List.mem_cons] at hb ⊢
      tauto
    · intro b hb
      simp only [List.mem_append, List.mem_cons, hremoved, Option.some.injEq] at hb ⊢
      tauto
    · intro b hb
      obtain rfl : a = b := Option.some.inj (hremoved.symm.trans hb)
      refine ⟨by simp, ?_, fun q hq => ?_⟩
      · have hnodup := List.nodup_middle.mp h.nodup
        have hne : a ≠ new := fun hn => hfresh (by simp [← hn])
        simpa [hne] using (List.nodup_cons.mp hnodup).1
      · exact (next_mem_post h hq).imp_right fun ⟨b, hb, hqb⟩ => ⟨b, by simp [hb], hqb⟩

theorem remove_relinks {fuel : Nat} (key : Int32) (h : Seg (nextOf elements) head xs none)
    (hfuel : xs.length ≤ fuel) :
    ∃ r ys, relinkRemove elements fuel head key = .ok r ∧ Relinks elements none xs ys r := by
  rcases first_or_absent elements key xs with habs | ⟨pre, a, post, rfl, hpre, ha⟩
  · exact ⟨_, xs, relinkRemove_of_absent h habs hfuel, ⟨h, rfl, fun _ _ => rfl⟩,
      fun b hb => Or.inl hb, fun b hb => Or.inl hb, fun _ hr => by cases hr⟩
  · obtain ⟨r, hr, hremoved, hspec⟩ := relinkRemove_of_first h hpre ha (le_trans (by simp) hfuel)
    refine ⟨r, pre ++ post, hr, hspec, ?_, ?_, ?_⟩
    · intro b hb
      simp only [List.mem_append, List.mem_cons] at hb ⊢
      tauto
    · intro b hb
      simp only [List.mem_append, List.mem_cons, hremoved, Option.some.injEq] at hb ⊢
      tauto
    · intro b hb
      obtain rfl : a = b := Option.some.inj (hremoved.symm.trans hb)
      have hnodup := List.nodup_middle.mp h.nodup
      exact ⟨by simp, (List.nodup_cons.mp hnodup).1, fun q hq =>
        (next_mem_post h hq).imp_right fun ⟨b, hb, hqb⟩ => ⟨b, by simp [hb], hqb⟩⟩

/-! ## The invariant -/

/-- Some writer has taken `a` out and has still to wait for the readers counted in `e`. -/
def Deferred (s : St τ) (e : Fin 2) (a : Addr) : Prop :=
  ∃ t, (s.pc t).Defers e a

/-- The thread has made no access that C gives no meaning, and no signal ended its wait. -/
def Pc.Tame : Pc → Prop
  | .lost _ | .wild | .signalled _ => False
  | _ => True

/-- The list passes through `xs`; what writers keep out of it is there and has one owner each; a
reader points into the list or to the element its writer still waits for. -/
structure InvAt (s : St τ) (xs : List Addr) : Prop where
  fresh : ∀ a, s.brk ≤ a → s.elements a = none
  seg : Seg (nextOf s.elements) s.list.head xs none
  owned : ∀ t a, (s.pc t).Owns a → (s.elements a).isSome ∧ a ∉ xs
  distinct : ∀ t u a, (s.pc t).Owns a → (s.pc u).Owns a → t = u
  section_lock : ∀ t, (s.pc t).InSection → s.lock = some t
  pointers : ∀ u a e, (s.pc u).PointsTo a → (s.pc u).CountedIn e → a ∈ xs ∨ Deferred s e a
  link : ∀ e a q, Deferred s e a → nextOf s.elements a = some q → q = none ∨ ∃ b ∈ xs, q = some b
  tame : ∀ t, (s.pc t).Tame

theorem Pc.Defers.owns {e : Fin 2} {a : Addr} (h : p.Defers e a) : p.Owns a := by
  cases p with
  | unlinked removed g => exact h
  | relinked removed g => exact h.1
  | flipped removed g => exact h.1
  | _ => exact h.elim

theorem Pc.Defers.inSection {e : Fin 2} {a : Addr} (h : p.Defers e a) :
    p.InSection := by
  cases p with
  | unlinked removed g | relinked removed g | flipped removed g => trivial
  | _ => exact h.elim

theorem Pc.Owns.writing {a : Addr} (h : p.Owns a) : p.Writing := by
  cases p <;> trivial

theorem Pc.InSection.writing (h : p.InSection) : p.Writing := by
  cases p <;> trivial

theorem InvAt.lt_brk {a : Addr} (h : InvAt s xs) (ha : (s.elements a).isSome) : a < s.brk := by
  by_contra hge
  simp [h.fresh a (Nat.le_of_not_lt hge)] at ha

theorem InvAt.isSome {a : Addr} (h : InvAt s xs) (ha : a ∈ xs) : (s.elements a).isSome := by
  simpa [nextOf] using h.seg.isSome_next ha

theorem InvAt.length_le (h : InvAt s xs) : xs.length ≤ s.brk :=
  length_le_of_seg h.seg fun _ ha => h.lt_brk (h.isSome ha)

theorem InvAt.mem_head (h : InvAt s xs) {a : Addr} (ha : s.list.head = some a) : a ∈ xs := by
  rcases h.seg.head_mem with hnone | ⟨b, hb, hhead⟩
  · simp [hnone] at ha
  · obtain rfl : b = a := Option.some.inj (hhead.symm.trans ha)
    exact hb

/-- What the writer in the critical section keeps out is kept out by no other writer that is. -/
theorem InvAt.eq_of_section {u : τ} (h : InvAt s xs) (ht : (s.pc t).InSection)
    (hu : (s.pc u).InSection) : t = u :=
  Option.some.inj ((h.section_lock t ht).symm.trans (h.section_lock u hu))

/-- Every element a reader points to is there. -/
theorem InvAt.pointed {u : τ} {a : Addr} {e : Fin 2} (h : InvAt s xs) (hp : (s.pc u).PointsTo a)
    (hc : (s.pc u).CountedIn e) : (s.elements a).isSome := by
  rcases h.pointers u a e hp hc with ha | ⟨t, ht⟩
  · exact h.isSome ha
  · exact (h.owned t a ht.owns).1

/-- The invariant reads the head of the list record, and nothing else of it. -/
theorem InvAt.withList {list : RcuList} (h : InvAt s xs) (hhead : list.head = s.list.head) :
    InvAt { s with list := list } xs :=
  { h with seg := by rw [hhead]; exact h.seg }

theorem InvAt.withLock {l : Option τ} (h : InvAt s xs)
    (hl : ∀ u, (s.pc u).InSection → l = some u) : InvAt { s with lock := l } xs :=
  { h with section_lock := hl }

/-- A thread keeps what it owns. -/
theorem InvAt.keeps {a : Addr} (h : InvAt s xs) (ha : (s.pc t).Owns a) :
    ((s.elements a).isSome ∧ a ∉ xs) ∧ ∀ u, (s.pc u).Owns a → u = t :=
  ⟨h.owned t a ha, fun u hu => h.distinct u t a hu ha⟩

/-- A fresh element. -/
theorem InvAt.allocate (h : InvAt s xs) (x : Entry) : InvAt (s.allocate x) xs := by
  have hne : ∀ a, (s.elements a).isSome → a ≠ s.brk := by
    rintro a ha rfl
    exact Nat.lt_irrefl _ (h.lt_brk ha)
  have hsame : ∀ a, (s.elements a).isSome → (s.allocate x).elements a = s.elements a :=
    fun a ha => Function.update_of_ne (hne a ha) ..
  refine ⟨?_, ?_, ?_, h.distinct, h.section_lock, h.pointers, ?_, h.tame⟩
  · intro a ha
    have hlt : s.brk < a := ha
    exact (Function.update_of_ne (Nat.ne_of_gt hlt) ..).trans (h.fresh a (Nat.le_of_lt hlt))
  · exact h.seg.congr fun a ha => by rw [nextOf, hsame a (h.isSome ha), nextOf]
  · intro u a ha
    obtain ⟨hsome, hxs⟩ := h.owned u a ha
    exact ⟨by rwa [hsame a hsome], hxs⟩
  · rintro e a q ⟨u, hu⟩ hq
    rw [nextOf, hsame a (h.owned u a hu.owns).1] at hq
    exact h.link e a q ⟨u, hu⟩ hq

/-- `kfree` of an element that is out of the list and in nobody's hands. -/
theorem InvAt.free {a : Addr} (h : InvAt s xs) (ha : a ∉ xs) (howns : ∀ u, ¬ (s.pc u).Owns a) :
    InvAt { s with elements := Function.update s.elements a none } xs := by
  have hsame : ∀ b, b ≠ a → Function.update s.elements a none b = s.elements b :=
    fun b hb => Function.update_of_ne hb ..
  refine ⟨?_, ?_, ?_, h.distinct, h.section_lock, h.pointers, ?_, h.tame⟩
  · intro b hb
    by_cases hba : b = a
    · simp [hba]
    · exact (hsame b hba).trans (h.fresh b hb)
  · refine h.seg.congr fun b hb => ?_
    have hba : b ≠ a := fun hba => ha (hba ▸ hb)
    simp [nextOf, hba]
  · intro u b hb
    have hba : b ≠ a := fun hba => howns u (hba ▸ hb)
    exact ⟨by simpa [hba] using (h.owned u b hb).1, (h.owned u b hb).2⟩
  · rintro e b q ⟨u, hu⟩ hq
    have hba : b ≠ a := fun hba => howns u (hba ▸ hu.owns)
    exact h.link e b q ⟨u, hu⟩ (by simpa [nextOf, hba] using hq)

/-- What a writer that holds the lock finds: either `rcu_list_replace` no element with the key, and
it returns early, or there is a relinking; that of `rcu_list_insert` takes nothing out. -/
theorem InvAt.relink_cases {c : Change} (h : InvAt s xs) (hp : s.pc t = .locked c) :
    (∃ key a, c = .replace key a ∧ c.relink s = .ok none) ∨
      ∃ r ys, c.relink s = .ok (some r) ∧ Relinks s.elements c.newElement xs ys r ∧
        ∀ a, c = .insert a → r.removed = none := by
  have hnew : ∀ a, c.newElement = some a → (s.elements a).isSome ∧ a ∉ xs := fun a ha =>
    h.owned t a (by simpa [hp, Pc.Owns] using ha)
  cases c with
  | insert a =>
      obtain ⟨hsome, hfresh⟩ := hnew a rfl
      exact Or.inr ⟨_, a :: xs, rfl, insert_relinks h.seg hsome hfresh, fun _ _ => rfl⟩
  | remove key =>
      obtain ⟨r, ys, hr, hrel⟩ := remove_relinks key h.seg h.length_le
      refine Or.inr ⟨r, ys, ?_, hrel, fun a ha => by cases ha⟩
      simp only [Change.relink, hr, Except.map]
  | replace key a =>
      obtain ⟨hsome, hfresh⟩ := hnew a rfl
      rcases replace_relinks key h.seg hsome hfresh h.length_le with hr | ⟨r, ys, hr, hrel⟩
      · exact Or.inl ⟨key, a, rfl, hr⟩
      · exact Or.inr ⟨r, ys, hr, hrel, fun a ha => by cases ha⟩

variable [DecidableEq τ]

theorem goto_pc (u : τ) : (s.goto t p).pc u = if u = t then p else s.pc u := by
  by_cases hu : u = t
  · subst hu; simp
  · simp [St.goto, hu]

/-- What the new place of `t` has only if the old one had it, every thread had before. -/
theorem of_goto {P : Pc → Prop} {u : τ} (hP : P p → P (s.pc t)) (h : P ((s.goto t p).pc u)) :
    P (s.pc u) := by
  rw [goto_pc] at h
  split at h
  · subst_vars
    exact hP h
  · exact h

/-- One thread goes on, and nothing shared that the invariant reads changes. What it waited for as
a writer it goes on waiting for, or nobody is counted there. -/
theorem InvAt.goto (h : InvAt s xs)
    (howns : ∀ a, p.Owns a →
      ((s.elements a).isSome ∧ a ∉ xs) ∧ ∀ u, (s.pc u).Owns a → u = t)
    (hsection : p.InSection → s.lock = some t)
    (hpoints : ∀ a e, p.PointsTo a → p.CountedIn e → a ∈ xs ∨ Deferred (s.goto t p) e a)
    (hdefers : ∀ e a, (s.pc t).Defers e a →
      p.Defers e a ∨ ∀ u, ¬ (s.pc u).CountedIn e)
    (hnew : ∀ e a, p.Defers e a → (s.pc t).Defers e a)
    (htame : p.Tame) : InvAt (s.goto t p) xs where
  fresh := h.fresh
  seg := h.seg
  owned := by
    intro u a hu
    rw [goto_pc] at hu
    split at hu
    · exact (howns a hu).1
    · exact h.owned u a hu
  distinct := by
    intro u v a hu hv
    rw [goto_pc] at hu hv
    split at hu <;> split at hv
    · subst_vars; rfl
    · subst_vars; exact ((howns a hu).2 v hv).symm
    · subst_vars; exact (howns a hv).2 u hu
    · exact h.distinct u v a hu hv
  section_lock := by
    intro u hu
    rw [goto_pc] at hu
    split at hu
    · subst_vars; exact hsection hu
    · exact h.section_lock u hu
  pointers := by
    intro u a e hp hc
    by_cases hu : u = t
    · subst hu
      rw [goto_pc_self] at hp hc
      exact hpoints a e hp hc
    · rw [goto_pc, if_neg hu] at hp hc
      refine (h.pointers u a e hp hc).imp_right ?_
      rintro ⟨v, hv⟩
      by_cases hvt : v = t
      · subst hvt
        rcases hdefers e a hv with hv | hnone
        · exact ⟨v, by rwa [goto_pc_self]⟩
        · exact absurd hc (hnone u)
      · exact ⟨v, by rwa [goto_pc, if_neg hvt]⟩
  link := by
    rintro e a q ⟨u, hu⟩
    exact h.link e a q ⟨u, of_goto (P := Pc.Defers e a) (hnew e a) hu⟩
  tame := by
    intro u
    rw [goto_pc]
    split
    · exact htame
    · exact h.tame u

/-- A step of a thread that is in no call of a writer. -/
theorem InvAt.read (h : InvAt s xs) (hold : ¬ (s.pc t).Writing) (hnew : ¬ p.Writing)
    (hpoints : ∀ a e, p.PointsTo a → p.CountedIn e → a ∈ xs ∨ Deferred s e a)
    (htame : p.Tame) : InvAt (s.goto t p) xs := by
  refine h.goto (fun a ha => absurd ha.writing hnew) (fun hs => absurd hs.writing hnew) ?_
    (fun e a hd => absurd hd.owns.writing hold) (fun e a hd => absurd hd.owns.writing hnew) htame
  intro a e hp hc
  refine (hpoints a e hp hc).imp_right ?_
  rintro ⟨u, hu⟩
  have hut : u ≠ t := by
    rintro rfl
    exact hold hu.owns.writing
  exact ⟨u, by rwa [goto_pc, if_neg hut]⟩

/-! ## Steps of writers -/

/-- `write_lock`: nobody is in the critical section of a free lock. -/
theorem InvAt.acquire {c : Change} (h : InvAt s xs) (hfree : s.lock = none)
    (hp : s.pc t = .prepared c) : InvAt ({ s with lock := some t }.goto t (.locked c)) xs := by
  have hout : ∀ u, ¬ (s.pc u).InSection := fun u hu => by
    simpa [hfree] using h.section_lock u hu
  have hlock : InvAt { s with lock := some t } xs := h.withLock fun u hu => absurd hu (hout u)
  refine hlock.goto (fun a ha => ?_) (fun _ => rfl) (by simp [Pc.PointsTo]) ?_
    (by simp [Pc.Defers]) trivial
  · exact hlock.keeps (by simpa [hp, Pc.Owns] using ha)
  · simp [hp, Pc.Defers]

/-- `write_unlock`. -/
theorem InvAt.release {removed : Ptr} (h : InvAt s xs) (hp : s.pc t = .drained removed) :
    InvAt ({ s with lock := none }.goto t (.unlocked removed)) xs := by
  have hlock : s.lock = some t := h.section_lock t (by simp [hp, Pc.InSection])
  have hgone : InvAt (s.goto t (.unlocked removed)) xs := by
    refine h.goto (fun a ha => h.keeps (by simpa [hp, Pc.Owns] using ha)) (by simp [Pc.InSection])
      (by simp [Pc.PointsTo]) (by simp [hp, Pc.Defers]) (by simp [Pc.Defers]) trivial
  refine hgone.withLock fun u hu => ?_
  rw [goto_pc] at hu
  split at hu
  · exact hu.elim
  · have hut : t = u := Option.some.inj (hlock.symm.trans (h.section_lock u hu))
    exact absurd hut.symm ‹_›

/-- `rcu_list_remove` has seen nobody in the other epoch. -/
theorem InvAt.cleared {removed : Ptr} {g : Fin 2} (h : InvAt s xs)
    (hp : s.pc t = .unlinked removed g) (hnone : ∀ u, ¬ (s.pc u).CountedIn (g + 1)) :
    InvAt (s.goto t (.relinked removed g)) xs := by
  refine h.goto (fun a ha => h.keeps (by simpa [hp, Pc.Owns] using ha))
    (fun _ => h.section_lock t (by simp [hp, Pc.InSection])) (by simp [Pc.PointsTo]) ?_ ?_ trivial
  · intro e a hd
    by_cases he : e = g
    · exact Or.inl ⟨by simpa [hp, Pc.Defers] using hd, he⟩
    · have hother : e = g + 1 := by omega
      exact Or.inr (hother ▸ hnone)
  · intro e a hd
    simpa [hp, Pc.Defers] using hd.1

/-- Nobody is left in the old epoch. -/
theorem InvAt.drained {removed : Ptr} {g : Fin 2} (h : InvAt s xs)
    (hp : s.pc t = .flipped removed g) (hnone : ∀ u, ¬ (s.pc u).CountedIn g) :
    InvAt (s.goto t (.drained removed)) xs := by
  refine h.goto (fun a ha => h.keeps (by simpa [hp, Pc.Owns] using ha))
    (fun _ => h.section_lock t (by simp [hp, Pc.InSection])) (by simp [Pc.PointsTo]) ?_
    (by simp [Pc.Defers]) trivial
  intro e a hd
  have heg : removed = some a ∧ e = g := by simpa [hp, Pc.Defers] using hd
  exact Or.inr (heg.2 ▸ hnone)

/-- The call of a writer: its element is fresh. -/
theorem InvAt.write {op : Write} {kmallocFails : Bool} (h : InvAt s xs) (hp : s.pc t = .idle) :
    InvAt (s.write t op kmallocFails) xs := by
  have hprepared : ∀ x, (op.prepare s.brk).newElement = some s.brk →
      InvAt ((s.allocate x).goto t (.prepared (op.prepare s.brk))) xs := by
    intro x hnew
    have hall : InvAt (s.allocate x) xs := h.allocate x
    have hbrk : ¬ (s.elements s.brk).isSome := by simp [h.fresh s.brk (le_refl _)]
    refine hall.goto ?_ (by simp [Pc.InSection]) (by simp [Pc.PointsTo]) ?_
      (by simp [Pc.Defers]) trivial
    · intro a ha
      obtain rfl : s.brk = a := Option.some.inj (hnew.symm.trans ha)
      refine ⟨⟨by simp [St.allocate], fun hm => hbrk (h.isSome hm)⟩, fun u hu => ?_⟩
      exact absurd (h.owned u _ hu).1 hbrk
    · intro e a hd
      simp [St.allocate, hp, Pc.Defers] at hd
  cases op with
  | insert x =>
      cases kmallocFails with
      | true => exact h
      | false => exact hprepared x rfl
  | replace x =>
      cases kmallocFails with
      | true => exact h
      | false => exact hprepared x rfl
  | remove key =>
      refine h.goto ?_ ?_ ?_ ?_ ?_ trivial <;>
        simp [hp, Write.prepare, Change.newElement, Pc.Owns, Pc.InSection, Pc.PointsTo, Pc.Defers]

/-- A new epoch: the writer goes on waiting for the old one. -/
theorem InvAt.flip {removed : Ptr} {g : Fin 2} (h : InvAt s xs)
    (hp : s.pc t = .relinked removed g) :
    InvAt ({ s with list := { s.list with epoch := g + 1 } }.goto t (.flipped removed g)) xs := by
  have hlist : InvAt { s with list := { s.list with epoch := g + 1 } } xs := h.withList rfl
  refine hlist.goto (fun a ha => hlist.keeps (by simpa [hp, Pc.Owns] using ha))
    (fun _ => h.section_lock t (by simp [hp, Pc.InSection])) (by simp [Pc.PointsTo]) ?_ ?_ trivial
  · intro e a hd
    exact Or.inl (by simpa [hp, Pc.Defers] using hd)
  · intro e a hd
    simpa [hp, Pc.Defers] using hd

/-- `kfree(removed)`. -/
theorem InvAt.kfree {removed : Ptr} (h : InvAt s xs) (hp : s.pc t = .unlocked removed) :
    InvAt ((s.kfree removed).goto t .idle) xs := by
  have hgone : InvAt (s.goto t .idle) xs := by
    refine h.goto ?_ ?_ ?_ ?_ ?_ trivial <;> simp [hp, Pc.Owns, Pc.InSection, Pc.PointsTo, Pc.Defers]
  cases removed with
  | none => exact hgone
  | some a =>
      have ha : (s.pc t).Owns a := by simp [hp, Pc.Owns]
      refine hgone.free (h.owned t a ha).2 fun u hu => ?_
      rw [goto_pc] at hu
      split at hu
      · exact hu
      · exact absurd (h.distinct u t a hu ha) ‹_›

theorem isSome_of_entries {elements elements' : Addr → Option Element}
    (h : entryAt elements' = entryAt elements) (a : Addr) :
    (elements' a).isSome = (elements a).isSome := by
  simpa [entryAt] using congrArg Option.isSome (congrFun h a)

/-- The relinking. What it takes out becomes the writer's, who has to wait for every reader that
points to it: those of either epoch in `rcu_list_remove`, those of the current one elsewhere. -/
theorem InvAt.relink {c : Change} {r : Relinked} {ys : List Addr} (h : InvAt s xs)
    (hp : s.pc t = .locked c) (hr : Relinks s.elements c.newElement xs ys r)
    (hcovered : ∀ u a e, r.removed = some a → (s.pc u).CountedIn e →
      (c.relinked r.removed s.list.epoch).Defers e a) :
    InvAt ({ s with elements := r.elements, list := { s.list with head := r.head } }.goto t
      (c.relinked r.removed s.list.epoch)) ys := by
  have hin : (s.pc t).InSection := by simp [hp, Pc.InSection]
  have hsome := isSome_of_entries hr.spec.entries
  have hnew : ∀ b, c.newElement = some b → (s.pc t).Owns b := fun b hb => by
    simpa [hp, Pc.Owns] using hb
  have howns : ∀ a, (c.relinked r.removed s.list.epoch).Owns a ↔ r.removed = some a := fun a => by
    cases c <;> rfl
  -- nobody else is in the critical section, and `t` waits for nobody yet
  have hnone : ∀ e a, ¬ Deferred s e a := by
    rintro e a ⟨u, hu⟩
    obtain rfl := h.eq_of_section hin hu.inSection
    simp [hp, Pc.Defers] at hu
  have hdeferred : ∀ e a u, u ≠ t → ¬ (s.pc u).Defers e a := fun e a u _ hu => hnone e a ⟨u, hu⟩
  have hys : ∀ b ∈ ys, (s.elements b).isSome := fun b hb => by
    rcases hr.mem b hb with hb | hb
    · exact h.isSome hb
    · exact (h.owned t b (hnew b hb)).1
  refine ⟨?_, hr.spec.seg, ?_, ?_, ?_, ?_, ?_, ?_⟩
  · intro a ha
    have hay : a ∉ ys := fun hm => by simpa [h.fresh a ha] using hys a hm
    exact (hr.spec.frame a hay).trans (h.fresh a ha)
  · intro u a ha
    rw [goto_pc] at ha
    split at ha
    · obtain ⟨hax, hay, _⟩ := hr.removed a ((howns a).mp ha)
      exact ⟨(hsome a).trans (h.isSome hax), hay⟩
    · obtain ⟨hsa, hax⟩ := h.owned u a ha
      refine ⟨(hsome a).trans hsa, fun hay => ?_⟩
      rcases hr.mem a hay with hm | hm
      · exact hax hm
      · exact absurd (h.distinct u t a ha (hnew a hm)) ‹_›
  · intro u v a hu hv
    rw [goto_pc] at hu hv
    split at hu <;> split at hv
    · subst_vars; rfl
    · exact absurd (hr.removed a ((howns a).mp hu)).1 (h.owned v a hv).2
    · exact absurd (hr.removed a ((howns a).mp hv)).1 (h.owned u a hu).2
    · exact h.distinct u v a hu hv
  · intro u hu
    rw [goto_pc] at hu
    split at hu
    · subst_vars; exact h.section_lock _ hin
    · exact h.section_lock u hu
  · intro u a e hpt hc
    have hut : u ≠ t := by
      rintro rfl
      rw [goto_pc_self] at hpt
      cases c <;> exact hpt
    rw [goto_pc, if_neg hut] at hpt hc
    have hax : a ∈ xs := (h.pointers u a e hpt hc).resolve_right (hnone e a)
    refine (hr.stays a hax).imp_right fun hra => ⟨t, ?_⟩
    rw [goto_pc_self]
    exact hcovered u a e hra hc
  · rintro e a q ⟨u, hu⟩ hq
    rw [goto_pc] at hu
    split at hu
    · obtain ⟨_, hay, hlink⟩ := hr.removed a ((howns a).mp hu.owns)
      refine hlink q ?_
      rw [← hq, nextOf, nextOf]
      exact congrArg (Option.map Element.next) (hr.spec.frame a hay).symm
    · exact absurd hu (hdeferred e a u ‹_›)
  · intro u
    rw [goto_pc]
    split
    · cases c <;> trivial
    · exact h.tame u

/-- `wake_up_all`, and the return of the thread that executed it. -/
theorem InvAt.wakeAll {i : Fin levelDeep} (h : InvAt s xs) (hp : s.pc t = .notifying i) :
    InvAt { s with pc := fun u => if u = t then .idle else (s.pc u).wake i } xs := by
  have hpc : (fun u => if u = t then Pc.idle else (s.pc u).wake i) =
      Function.update (fun u => (s.pc u).wake i) t .idle := by
    funext u
    by_cases hu : u = t
    · subst hu; simp
    · simp [hu]
  have hd : ∀ e a, Deferred { s with pc := fun u => (s.pc u).wake i } e a ↔ Deferred s e a :=
    fun e a => exists_congr fun u => wake_iff fun _ _ _ => Iff.rfl
  have howns : ∀ u a, ((s.pc u).wake i).Owns a ↔ (s.pc u).Owns a :=
    fun u a => wake_iff fun _ _ _ => Iff.rfl
  have hall : InvAt { s with pc := fun u => (s.pc u).wake i } xs := by
    refine ⟨h.fresh, h.seg, fun u a ha => h.owned u a ((howns u a).mp ha),
      fun u v a hu hv => h.distinct u v a ((howns u a).mp hu) ((howns v a).mp hv), ?_, ?_,
      fun e a q hq => h.link e a q ((hd e a).mp hq), ?_⟩
    · exact fun u hu => h.section_lock u ((wake_iff fun _ _ _ => Iff.rfl).mp hu)
    · intro u a e hpt hc
      rw [hd]
      have hpt' : (s.pc u).PointsTo a := (wake_iff fun _ _ _ => Iff.rfl).mp hpt
      exact h.pointers u a e hpt' ((wake_iff (P := Pc.CountedIn e) fun _ _ _ => Iff.rfl).mp hc)
    · exact fun u => (wake_iff (P := Pc.Tame) fun _ _ _ => Iff.rfl).mpr (h.tame u)
  rw [hpc]
  exact hall.read (t := t) (by simp [hp, Pc.wake, Pc.Writing]) (by simp [Pc.Writing])
    (by simp [Pc.PointsTo]) trivial

/-! ## Hops and changes -/

/-- One hop from a pointer a reader may hold leads to a pointer it may hold. -/
theorem InvAt.hop {key : Int32} {e : Fin 2} {q : Ptr} (h : InvAt s xs)
    (hp : s.pc t = .walking key e q) : InvAt (s.goto t (s.hop key e q)) xs := by
  have hold : ¬ (s.pc t).Writing := by simp [hp, Pc.Writing]
  cases q with
  | none =>
      have hhop : s.hop key e none = .leaving e none := rfl
      rw [hhop]
      exact h.read hold (by simp [Pc.Writing]) (by simp [Pc.PointsTo]) trivial
  | some a =>
      have hpt : (s.pc t).PointsTo a := by simp [hp, Pc.PointsTo]
      have hct : (s.pc t).CountedIn e := by simp [hp, Pc.CountedIn]
      obtain ⟨el, hel⟩ := Option.isSome_iff_exists.mp (h.pointed hpt hct)
      by_cases hl : el.level = key
      · have hhop : s.hop key e (some a) = .leaving e (some a) := by simp [St.hop, hel, hl]
        rw [hhop]
        refine h.read hold (by simp [Pc.Writing]) ?_ trivial
        intro b e' hb he
        obtain rfl : a = b := Option.some.inj hb
        obtain rfl : e = e' := he
        exact h.pointers t a e hpt hct
      · have hhop : s.hop key e (some a) = .walking key e el.next := by simp [St.hop, hel, hl]
        rw [hhop]
        refine h.read hold (by simp [Pc.Writing]) ?_ trivial
        intro b e' hb _
        have hlink : nextOf s.elements a = some (some b) := by
          rw [← show el.next = some b from hb, nextOf, hel]
          rfl
        -- from an element of the list, or from the one taken out of it
        rcases h.pointers t a e hpt hct with hax | hd
        · rcases h.seg.next_mem hax with hn | ⟨c, hc, hn⟩
          · exact absurd (hlink.symm.trans hn) (by simp)
          · obtain rfl : b = c := by simpa using hlink.symm.trans hn
            exact Or.inl hc
        · obtain ⟨c, hc, hbc⟩ := (h.link e a _ hd hlink).resolve_left (by simp)
          exact Or.inl (Option.some.inj hbc ▸ hc)

/-- The change of a writer that holds the lock, whatever it finds. -/
theorem InvAt.change {c : Change} (h : InvAt s xs) (hp : s.pc t = .locked c)
    (hc : ∀ key a, c = .replace key a → ∀ u, ¬ (s.pc u).CountedIn (s.list.epoch + 1)) :
    ∃ ys, InvAt (s.relink t c) ys := by
  rcases h.relink_cases hp with ⟨key, a, rfl, hr⟩ | ⟨r, ys, hr, hrel, hinsert⟩
  · -- the early return keeps the lock
    refine ⟨xs, ?_⟩
    simp only [St.relink, hr]
    refine h.goto ?_ ?_ ?_ ?_ ?_ trivial <;>
      simp [hp, Pc.Owns, Pc.InSection, Pc.PointsTo, Pc.Defers]
  · refine ⟨ys, ?_⟩
    simp only [St.relink, hr]
    refine h.relink hp hrel fun u b e hb hcu => ?_
    cases c with
    | insert a => simp [hinsert a rfl] at hb
    | remove key => exact hb
    | replace key a =>
        refine ⟨hb, ?_⟩
        by_contra hne
        have hother : e = s.list.epoch + 1 := by omega
        exact hc key a rfl u (hother ▸ hcu)

end TagMessaging.Rcu
