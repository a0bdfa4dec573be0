/-
# TagMessaging.Rcu.Searches -- what a search finds that runs beside writers

A reader walks the list while writers relink it. What it returns is what the sequential search
answers at some moment between its load of the head and its return. What the rest of the walk is
going to find is what a search of the whole list found at some moment so far, and every step keeps
that: either the rest still holds the same first element with the key, or it now holds the one of
the whole list, and the moment is this one (`InvAt.rest_step`). `Seeks.step` says it of any step of
any thread.
-/
import TagMessaging.Rcu.AtomicList

namespace TagMessaging.Rcu

open TagMessaging.Model TagMessaging.Lib.Transition TagMessaging.Lib.Segment

variable {τ : Type} {s s' s₀ : St τ} {t u : τ} {e : Fin 2} {key : Int32} {p q : Ptr}
variable {xs ys zs : List Addr} {l : AtomicList τ}

/-- The search of the whole list, executed now, answers `p`. -/
def Answers (key : Int32) (p : Ptr) (s : St τ) : Prop :=
  findLevel s.elements key s.brk s.list.head = .ok p

theorem InvAt.answers (h : InvAt s xs) (key : Int32) :
    Answers key (xs.find? (levelAt s.elements key)) s :=
  findLevel_eq h.seg h.length_le

/-- The element of a replacement has the level it is going to replace. -/
theorem Represents.replace_level {c : Change} (h : Represents s l) (hp : s.pc t = .locked c) :
    ∀ key new, c = .replace key new → LevelIs s.elements key new := by
  rintro key new rfl
  have hpend := h.pending t
  rw [hp] at hpend
  cases hop : l.pending t with
  | none =>
      rw [hop] at hpend
      exact hpend.elim
  | some op =>
      rw [hop] at hpend
      cases op with
      | replace x =>
          obtain ⟨rfl, hx⟩ : key = x.level ∧ entryAt s.elements new = some x := hpend
          exact levelIs_iff_entryAt.mpr ⟨x, hx, rfl⟩
      | _ => exact hpend.elim

/-- Elements that stay leave the rest of the list alone. -/
theorem rest_of_same {elements elements' : Addr → Option Element}
    (hq : Seg (nextOf elements) q zs none) (hsame : ∀ a ∈ zs, elements' a = elements a) :
    Rest elements elements' q zs ys := by
  refine ⟨zs, hq.congr fun a ha => by rw [nextOf, hsame a ha, nextOf], le_refl _, fun key => ?_⟩
  refine .inl ?_
  have hlevel : ∀ a ∈ zs, levelAt elements' key a = levelAt elements key a := fun a ha => by
    rw [levelAt, hsame a ha, levelAt]
  clear hq hsame
  induction zs with
  | nil => rfl
  | cons a zs ih =>
      have hrest := ih fun b hb => hlevel b (List.mem_cons_of_mem a hb)
      rw [List.find?_cons, List.find?_cons, hlevel a List.mem_cons_self, hrest]

/-! ## Where a search stands -/

/-- Where the thread stands in its search. What it is going to return, or what a walk over the rest
of the list finds, has the property `seen`. -/
def Seeks (elements : Addr → Option Element) (key : Int32) (e : Fin 2) (seen : Ptr → Prop) :
    Pc → Prop
  | .counted key' e' => key' = key ∧ e' = e
  | .walking key' e' q => key' = key ∧ e' = e ∧
      ∃ zs, Seg (nextOf elements) q zs none ∧ seen (zs.find? (levelAt elements key))
  | .leaving e' p => e' = e ∧ seen p
  | .returned p => seen p
  | .idle => True
  | _ => False

theorem Seeks.mono {elements : Addr → Option Element} {seen seen' : Ptr → Prop} {pc : Pc}
    (h : Seeks elements key e seen pc) (hseen : ∀ p, seen p → seen' p) :
    Seeks elements key e seen' pc := by
  cases pc with
  | walking key' e' q =>
      obtain ⟨hkey, he, zs, hzs, hfound⟩ := h
      exact ⟨hkey, he, zs, hzs, hseen _ hfound⟩
  | leaving e' p => exact ⟨h.1, hseen p h.2⟩
  | returned p => exact hseen p h
  | _ => exact h

/-- A hop finds the element, or leaves the same one to be found. -/
theorem Seeks.hop {seen : Ptr → Prop} (hq : Seg (nextOf s.elements) q zs none)
    (hseen : seen (zs.find? (levelAt s.elements key))) :
    Seeks s.elements key e seen (s.hop key e q) := by
  cases zs with
  | nil =>
      obtain rfl := seg_nil.mp hq
      exact ⟨rfl, hseen⟩
  | cons a zs =>
      obtain ⟨rfl, p, hp, hzs⟩ := hq
      obtain ⟨el, hel, rfl⟩ := nextOf_eq_some_iff.mp hp
      by_cases hlevel : el.level = key
      · have hhop : s.hop key e (some a) = .leaving e (some a) := by simp [St.hop, hel, hlevel]
        have hat : levelAt s.elements key a = true := levelAt_iff.mpr ⟨el, hel, hlevel⟩
        rw [hhop]
        rw [List.find?_cons_of_pos hat] at hseen
        exact ⟨rfl, hseen⟩
      · have hhop : s.hop key e (some a) = .walking key e el.next := by
          simp [St.hop, hel, hlevel]
        have hat : ¬ levelAt s.elements key a = true := by
          rw [levelAt_iff, levelIs_iff hel]
          exact hlevel
        rw [hhop]
        rw [List.find?_cons_of_neg hat] at hseen
        exact ⟨rfl, rfl, zs, hzs, hseen⟩

variable [DecidableEq τ]

/-- What lies behind the pointer of a reader after a step of any thread. -/
theorem InvAt.rest_step {act : Act} (h : InvAt s xs) (hrep : Represents s l)
    (hs : Rcu.step s (t, act) = some s') (hin : ∀ b, q = some b → b ∈ xs ∨ Deferred s e b)
    (hq : Seg (nextOf s.elements) q zs none) :
    ∃ ys, Seg (nextOf s'.elements) s'.list.head ys none ∧
      Rest s.elements s'.elements q zs ys := by
  by_cases hlocked : ∃ c, act = .advance ∧ s.pc t = .locked c
  · obtain ⟨c, rfl, hp⟩ := hlocked
    have hs' : Rcu.advance s t = some s' := hs
    simp only [Rcu.advance, hp] at hs'
    obtain rfl := Option.some.inj hs'
    -- nobody else is in the critical section, so no element is out of the list
    have hlist : ∀ b, q = some b → b ∈ xs := by
      intro b hb
      refine (hin b hb).resolve_right ?_
      rintro ⟨v, hv⟩
      obtain rfl := h.eq_of_section (t := t) (by simp [hp, Pc.InSection]) hv.inSection
      simp [hp, Pc.Defers] at hv
    rcases h.edit hp with ⟨_, _, _, hr, _⟩ | ⟨r, ys, hr, hspec, hedit⟩
    · simp only [St.relink, hr]
      exact ⟨xs, h.seg, rest_of_same hq fun _ _ => rfl⟩
    · simp only [St.relink, hr]
      refine ⟨ys, hspec.seg, hedit.rest hspec ?_ h.seg (hrep.replace_level hp) hq hlist⟩
      exact fun a ha => h.removed_notMem hp hr hspec ha
  · have hact : ∀ c, act = .advance → s.pc t ≠ .locked c := fun c ha hc => hlocked ⟨c, ha, hc⟩
    obtain ⟨hhead, hsame⟩ := h.frame hs hact
    obtain ⟨zs', hzs', hmem⟩ := h.ahead hin
    obtain rfl := hzs'.unique hq
    refine ⟨xs, ?_, rest_of_same hq fun a ha => hsame a ((hmem a ha).imp_right fun hd => ⟨e, hd⟩)⟩
    rw [hhead]
    exact h.seg.congr fun a ha => by rw [nextOf, hsame a (.inl ha), nextOf]

/-! ## A search among the steps of all threads -/

/-- A step of the reader. -/
theorem Seeks.advance {seen : Ptr → Prop} (hat : InvAt s xs)
    (h : Seeks s.elements key e seen (s.pc u)) (hs : Rcu.advance s u = some s')
    (hnow : ∀ p, Answers key p s' → seen p) : Seeks s'.elements key e seen (s'.pc u) := by
  cases hp : s.pc u with simp only [Rcu.advance, hp] at hs h
  | idle => cases hs
  | counted key' e' =>
      obtain ⟨rfl, rfl⟩ := h
      obtain rfl := Option.some.inj hs
      rw [goto_pc_self]
      refine ⟨rfl, rfl, xs, hat.seg, hnow _ ?_⟩
      exact hat.answers key'
  | walking key' e' q =>
      obtain ⟨rfl, rfl, zs, hzs, hseen⟩ := h
      obtain rfl := Option.some.inj hs
      rw [goto_pc_self]
      exact Seeks.hop hzs hseen
  | leaving e' p =>
      obtain rfl := Option.some.inj hs
      rw [goto_pc_self]
      exact h.2
  | returned p =>
      obtain rfl := Option.some.inj hs
      rw [goto_pc_self]
      trivial
  | _ => exact h.elim

/-- A step of another thread. -/
theorem Seeks.other {seen : Ptr → Prop} {act : Act} (hat : InvAt s xs) (hrep : Represents s l)
    (h : Seeks s.elements key e seen (s.pc u)) (hs : Rcu.step s (t, act) = some s')
    (hut : u ≠ t) (hat' : InvAt s' ys) (hnow : ∀ p, Answers key p s' → seen p) :
    Seeks s'.elements key e seen (s'.pc u) := by
  have hpc : s'.pc u = s.pc u := by
    by_cases hact : act = .advance
    · subst hact
      rcases pc_advance hs hut with hpc | ⟨i, hpc⟩
      · exact hpc
      · rw [hpc]
        cases hp : s.pc u with
        | asleep =>
            rw [hp] at h
            exact h.elim
        | _ => rfl
    · exact pc_call hs hact hut
  rw [hpc]
  cases hp : s.pc u with simp only [hp] at h
  | walking key' e' q =>
      obtain ⟨rfl, rfl, zs, hzs, hseen⟩ := h
      have hin : ∀ b, q = some b → b ∈ xs ∨ Deferred s e' b := by
        rintro b rfl
        exact hat.pointers u b e' (by simp [hp, Pc.PointsTo]) (by simp [hp, Pc.CountedIn])
      obtain ⟨ys', hys', zs', hzs', _, hfind⟩ := hat.rest_step hrep hs hin hzs
      obtain rfl := hys'.unique hat'.seg
      refine ⟨rfl, rfl, zs', hzs', ?_⟩
      rcases hfind key' with hsame | hwhole
      · rw [hsame]
        exact hseen
      · rw [hwhole]
        exact hnow _ (hat'.answers key')
  | _ => exact h

section Runs

variable [Fintype τ]

/-- The invariant of the runs under the guard, with the object they stand for. -/
def Sound (s : St τ) : Prop := Inv s ∧ ∃ l, Represents s l

theorem Sound.step {lab : τ × Act} (h : Sound s) (hok : Covered s lab)
    (hs : (rcuList τ).step s lab s') : Sound s' := by
  obtain ⟨hinv, l, hrep⟩ := h
  obtain ⟨xs, hat⟩ := hinv.2
  obtain ⟨l', _, hrep'⟩ := hrep.step hat hs
  exact ⟨hinv.step hok hs, l', hrep'⟩

theorem sound_of_reached (h : Reached (rcuList τ) Covered s) : Sound s := by
  refine h.invariant ?_ fun _ _ _ hi hok hs => hi.step hok hs
  rintro _ rfl
  exact ⟨inv_initial, AtomicList.initial, represents_initial⟩

/-- A step of any thread: what the search is going to find has been an answer, or is one now. -/
theorem Seeks.step {seen seen' : Ptr → Prop} {lab : τ × Act} (hsound : Sound s)
    (h : Seeks s.elements key e seen (s.pc u)) (hok : Covered s lab) (hs : Rcu.step s lab = some s')
    (hown : lab.1 = u → lab.2 = .advance) (hlater : ∀ p, seen p → seen' p)
    (hnow : ∀ p, Answers key p s' → seen' p) : Seeks s'.elements key e seen' (s'.pc u) := by
  have hsound' : Sound s' := hsound.step hok hs
  obtain ⟨⟨hcounts, xs, hat⟩, l, hrep⟩ := hsound
  obtain ⟨⟨_, ys, hat'⟩, _⟩ := hsound'
  obtain ⟨t, act⟩ := lab
  have hseeks : Seeks s.elements key e seen' (s.pc u) := h.mono hlater
  by_cases hut : u = t
  · subst hut
    obtain rfl : act = .advance := hown rfl
    exact hseeks.advance hat hs hnow
  · exact hseeks.other hat hrep hs hut hat' hnow

end Runs

end TagMessaging.Rcu
