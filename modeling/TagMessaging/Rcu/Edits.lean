/-
# TagMessaging.Rcu.Edits -- what the steps do to the sequence of elements

A relinking is an edit of the sequence of addresses: in front, at the first element with the key, or
none (`Edit`); every other step leaves alone what a reader can come to (`InvAt.frame`). For a reader
in the middle of the list an edit is one of two things (`Edit.rest`): it leaves what lies behind the
reader's pointer alone, or it takes the very element out that the reader is about to find, and then
the reader goes on to find what a search of the whole list would find now.
-/
import TagMessaging.Rcu.Delivered

namespace TagMessaging.Rcu

open TagMessaging.Model TagMessaging.Lib.Transition TagMessaging.Lib.Segment
open TagMessaging.Lib.FirstMatch

/-! ## The first element with a key -/

variable {elements elements' : Addr → Option Element} {head q : Ptr} {key : Int32} {fuel : Nat}
variable {a b new : Addr} {xs ys zs pre post mid : List Addr}

/-- The element at `a` is there and has the level `key`. -/
def levelAt (elements : Addr → Option Element) (key : Int32) (a : Addr) : Bool :=
  (elements a).any fun el => el.level == key

theorem levelAt_iff : levelAt elements key a = true ↔ LevelIs elements key a := by
  cases h : elements a <;> simp [levelAt, LevelIs, h]

theorem levelAt_eq_false : levelAt elements key a = false ↔ ¬ LevelIs elements key a := by
  rw [← levelAt_iff, Bool.not_eq_true]

theorem levelAt_congr (h : entryAt elements' = entryAt elements) :
    levelAt elements' = levelAt elements := by
  funext key a
  refine Bool.eq_iff_iff.mpr ?_
  rw [levelAt_iff, levelAt_iff, levelIs_iff_entryAt, levelIs_iff_entryAt, h]

/-- A walk from `q` finds the first element with the key among those it passes. -/
theorem findLevel_eq (h : Seg (nextOf elements) q zs none) (hfuel : zs.length ≤ fuel) :
    findLevel elements key fuel q = .ok (zs.find? (levelAt elements key)) := by
  rcases first_or_absent elements key zs with habs | ⟨pre, a, post, rfl, hpre, ha⟩
  · have hnone : zs.find? (levelAt elements key) = none :=
      List.find?_eq_none.mpr fun b hb => by simpa [levelAt_iff] using habs b hb
    rw [hnone]
    exact findLevel_of_absent h habs hfuel
  · rw [find?_append_of_first (fun b hb => levelAt_eq_false.mpr (hpre b hb)) (levelAt_iff.mpr ha)]
    refine findLevel_of_first h hpre ha (lt_of_lt_of_le ?_ hfuel)
    simp

/-! ## Relinkings as edits of the sequence -/

/-- What a relinking does to the addresses of the list, and what it takes out. -/
inductive Edit (elements : Addr → Option Element) : Change → List Addr → List Addr → Ptr → Prop
  | insert {xs : List Addr} {a : Addr} : Edit elements (.insert a) xs (a :: xs) none
  | replace {key : Int32} {new a : Addr} {pre post : List Addr} :
      (∀ b ∈ pre, ¬ LevelIs elements key b) → LevelIs elements key a →
      Edit elements (.replace key new) (pre ++ a :: post) (pre ++ new :: post) (some a)
  | remove {key : Int32} {a : Addr} {pre post : List Addr} :
      (∀ b ∈ pre, ¬ LevelIs elements key b) → LevelIs elements key a →
      Edit elements (.remove key) (pre ++ a :: post) (pre ++ post) (some a)
  | absent {key : Int32} {xs : List Addr} :
      (∀ b ∈ xs, ¬ LevelIs elements key b) → Edit elements (.remove key) xs xs none

section Threads

variable {τ : Type} {s : St τ} {t : τ} {e : Fin 2} {c : Change}

/-- The relinking of a writer that holds the lock is an edit, or the early return of
`rcu_list_replace`. -/
theorem InvAt.edit (h : InvAt s xs) (hp : s.pc t = .locked c) :
    (∃ key new, c = .replace key new ∧ c.relink s = .ok none ∧
      ∀ b ∈ xs, ¬ LevelIs s.elements key b) ∨
    ∃ r ys, c.relink s = .ok (some r) ∧ r.Spec s.elements ys ∧
      Edit s.elements c xs ys r.removed := by
  have hnew : ∀ a, c.newElement = some a → (s.elements a).isSome ∧ a ∉ xs := fun a ha =>
    h.owned t a (by simpa [hp, Pc.Owns] using ha)
  have hfuel := h.length_le
  cases c with
  | insert a =>
      obtain ⟨hsome, hfresh⟩ := hnew a rfl
      exact Or.inr ⟨_, _, rfl, relinkInsert_spec h.seg hsome hfresh, .insert⟩
  | remove key =>
      rcases first_or_absent s.elements key xs with habs | ⟨pre, a, post, rfl, hpre, ha⟩
      · refine Or.inr ⟨{ elements := s.elements, head := s.list.head, removed := none }, xs, ?_,
          ⟨h.seg, rfl, fun _ _ => rfl⟩, .absent habs⟩
        simp only [Change.relink, relinkRemove_of_absent h.seg habs hfuel, Except.map]
      · obtain ⟨r, hr, hremoved, hspec⟩ := relinkRemove_of_first h.seg hpre ha
          (le_trans (by simp) hfuel)
        refine Or.inr ⟨r, _, ?_, hspec, hremoved ▸ .remove hpre ha⟩
        simp only [Change.relink, hr, Except.map]
  | replace key new =>
      obtain ⟨hsome, hfresh⟩ := hnew new rfl
      rcases first_or_absent s.elements key xs with habs | ⟨pre, a, post, rfl, hpre, ha⟩
      · exact Or.inl ⟨key, new, rfl, relinkReplace_of_absent new h.seg habs hfuel, habs⟩
      · obtain ⟨r, hr, hremoved, hspec⟩ := relinkReplace_of_first h.seg hpre ha hsome hfresh
          (le_trans (by simp) hfuel)
        exact Or.inr ⟨r, _, hr, hspec, hremoved ▸ .replace hpre ha⟩

/-- What a relinking takes out is not in the list any more. -/
theorem InvAt.removed_notMem {r : Relinked} (h : InvAt s xs) (hp : s.pc t = .locked c)
    (hr : c.relink s = .ok (some r)) (hspec : r.Spec s.elements ys) (ha : r.removed = some a) :
    a ∉ ys := by
  rcases h.relink_cases hp with ⟨_, _, _, hearly⟩ | ⟨r', ys', hr', hrel, _⟩
  · rw [hr] at hearly
    cases hearly
  · obtain rfl : r = r' := Option.some.inj (Except.ok.inj (hr.symm.trans hr'))
    obtain rfl := hspec.seg.unique hrel.spec.seg
    exact (hrel.removed a ha).2.1

/-- The elements behind a pointer that a reader may hold. -/
theorem InvAt.ahead (h : InvAt s xs) (hin : ∀ b, q = some b → b ∈ xs ∨ Deferred s e b) :
    ∃ zs, Seg (nextOf s.elements) q zs none ∧ ∀ b ∈ zs, b ∈ xs ∨ Deferred s e b := by
  have hlist : ∀ b ∈ xs, ∃ zs, Seg (nextOf s.elements) (some b) zs none ∧ ∀ c ∈ zs, c ∈ xs := by
    intro b hb
    obtain ⟨front, back, rfl⟩ := List.append_of_mem hb
    obtain ⟨p, _, hp⟩ := seg_append.mp h.seg
    obtain rfl := hp.head_eq
    exact ⟨b :: back, hp, fun c hc => List.mem_append_right front hc⟩
  cases q with
  | none => exact ⟨[], rfl, by simp⟩
  | some b =>
      rcases hin b rfl with hb | hd
      · obtain ⟨zs, hzs, hmem⟩ := hlist b hb
        exact ⟨zs, hzs, fun c hc => .inl (hmem c hc)⟩
      · obtain ⟨v, hv⟩ := hd
        obtain ⟨el, hel⟩ := Option.isSome_iff_exists.mp (h.owned v b hv.owns).1
        have hnext : nextOf s.elements b = some el.next := by simp [nextOf, hel]
        have hrest : ∃ zs, Seg (nextOf s.elements) el.next zs none ∧ ∀ c ∈ zs, c ∈ xs := by
          rcases h.link e b el.next ⟨v, hv⟩ hnext with hnone | ⟨c, hc, hnext⟩
          · exact ⟨[], hnone, by simp⟩
          · rw [hnext]
            exact hlist c hc
        obtain ⟨zs, hzs, hmem⟩ := hrest
        refine ⟨b :: zs, ⟨rfl, el.next, hnext, hzs⟩, fun c hc => ?_⟩
        rcases List.mem_cons.mp hc with rfl | hc
        · exact .inr ⟨v, hv⟩
        · exact .inl (hmem c hc)

end Threads

/-- What lies behind the pointer of a reader after a relinking: no more elements than before, and
the first one with a key is the one that was the first, or is now the first of the list. -/
def Rest (elements elements' : Addr → Option Element) (q : Ptr) (zs ys : List Addr) : Prop :=
  ∃ zs', Seg (nextOf elements') q zs' none ∧ zs'.length ≤ zs.length ∧ ∀ key,
    zs'.find? (levelAt elements' key) = zs.find? (levelAt elements key) ∨
    zs'.find? (levelAt elements' key) = ys.find? (levelAt elements' key)

/-- The end of the list from `q` on was left alone. -/
theorem rest_of_suffix (front : List Addr) (hentries : entryAt elements' = entryAt elements)
    (hq : Seg (nextOf elements) q zs none)
    (hseg : Seg (nextOf elements') head (front ++ zs) none) :
    Rest elements elements' q zs ys :=
  ⟨zs, hq.of_suffix hseg, le_refl _, fun key => .inl (by rw [levelAt_congr hentries])⟩

/-- The first element with the key of the writer gave way to `mid`, elements with that key. -/
theorem rest_of_give_way {r : Relinked} {wkey : Int32}
    (hspec : r.Spec elements (pre ++ mid ++ post)) (ha : a ∉ pre ++ mid ++ post)
    (hseg : Seg (nextOf elements) head (pre ++ a :: post) none)
    (hpre : ∀ b ∈ pre, ¬ LevelIs elements wkey b) (hlevel : LevelIs elements wkey a)
    (hmid : ∀ b ∈ mid, LevelIs elements wkey b) (hshort : mid.length ≤ 1)
    (hq : Seg (nextOf elements) (some b) zs none) (hb : b ∈ pre ++ a :: post) :
    Rest elements r.elements (some b) zs (pre ++ mid ++ post) := by
  have hentries := hspec.entries
  rcases List.mem_append.mp hb with hb | hb
  · -- the reader is in front of the element
    obtain ⟨front, back, rfl⟩ := List.append_of_mem hb
    have hzs : zs = (b :: back) ++ a :: post := by
      rw [List.append_assoc] at hseg
      exact hseg.eq_suffix hq
    subst hzs
    refine ⟨(b :: back) ++ mid ++ post, ?_, ?_, fun key => ?_⟩
    · have hnew := hspec.seg
      rw [List.append_assoc, List.append_assoc, List.cons_append] at hnew
      obtain ⟨p, _, hp⟩ := seg_append.mp hnew
      obtain rfl := hp.head_eq
      simpa using hp
    · simp only [List.length_append, List.length_cons]
      omega
    · rw [levelAt_congr hentries]
      have hcase : (levelAt elements key a = false ∧
          ∀ b ∈ mid, levelAt elements key b = false) ∨ levelAt elements key =
            levelAt elements wkey := by
        by_cases hkey : key = wkey
        · exact .inr (by rw [hkey])
        · have hother : ∀ b, LevelIs elements wkey b → levelAt elements key b = false := by
            rintro b ⟨el, hel, rfl⟩
            rw [levelAt_eq_false, levelIs_iff hel]
            exact fun heq => hkey heq.symm
          exact .inl ⟨hother a hlevel, fun b hb => hother b (hmid b hb)⟩
      exact find?_give_way (q := levelAt elements wkey)
        (fun b hb => levelAt_eq_false.mpr (hpre b hb)) hcase
  · rcases List.mem_cons.mp hb with rfl | hb
    · -- the reader is on it: its link still leads to what follows
      have hzs : zs = b :: post := hseg.eq_suffix hq
      subst hzs
      obtain ⟨_, p, hp, hpost⟩ := hq
      have hlink : nextOf r.elements b = some p := by
        rw [← hp, nextOf, nextOf, hspec.frame b ha]
      refine ⟨b :: post, ⟨rfl, p, hlink, hpost.of_suffix hspec.seg⟩, le_refl _, fun key => ?_⟩
      exact .inl (by rw [levelAt_congr hentries])
    · -- the reader is behind the element
      obtain ⟨front, back, rfl⟩ := List.append_of_mem hb
      have hzs : zs = b :: back := by
        have hcut : pre ++ a :: (front ++ b :: back) = (pre ++ a :: front) ++ b :: back := by simp
        rw [hcut] at hseg
        exact hseg.eq_suffix hq
      subst hzs
      have hnew := hspec.seg
      rw [← List.append_assoc (pre ++ mid)] at hnew
      exact rest_of_suffix _ hentries hq hnew

/-- A reader in the list while it is relinked. -/
theorem Edit.rest {c : Change} {r : Relinked} (he : Edit elements c xs ys r.removed)
    (hspec : r.Spec elements ys) (hremoved : ∀ a, r.removed = some a → a ∉ ys)
    (hseg : Seg (nextOf elements) head xs none)
    (hfits : ∀ key new, c = .replace key new → LevelIs elements key new)
    (hq : Seg (nextOf elements) q zs none) (hin : ∀ b, q = some b → b ∈ xs) :
    Rest elements r.elements q zs ys := by
  cases q with
  | none =>
      have hzs : zs = [] := hq.unique rfl
      subst hzs
      exact rest_of_suffix ys hspec.entries hq (by simpa using hspec.seg)
  | some b =>
      have hb := hin b rfl
      -- the list ends with what lies behind the reader
      have hsuffix : ∃ front, xs = front ++ zs := by
        obtain ⟨front, back, rfl⟩ := List.append_of_mem hb
        exact ⟨front, by rw [hseg.eq_suffix hq]⟩
      generalize hrem : r.removed = removed at he hremoved
      cases he with
      | @insert _ new =>
          obtain ⟨front, rfl⟩ := hsuffix
          exact rest_of_suffix (new :: front) hspec.entries hq hspec.seg
      | absent habs =>
          obtain ⟨front, rfl⟩ := hsuffix
          exact rest_of_suffix front hspec.entries hq hspec.seg
      | @replace key new a pre post hpre ha =>
          have hcut : pre ++ new :: post = pre ++ [new] ++ post := by simp
          rw [hcut] at hspec hremoved ⊢
          refine rest_of_give_way hspec (hremoved a rfl) hseg hpre ha ?_ (le_refl 1) hq hb
          intro b hb
          rw [List.mem_singleton.mp hb]
          exact hfits key new rfl
      | @remove key a pre post hpre ha =>
          have hcut : pre ++ post = pre ++ [] ++ post := by simp
          rw [hcut] at hspec hremoved ⊢
          exact rest_of_give_way hspec (hremoved a rfl) hseg hpre ha (by simp) (by simp) hq hb

/-! ## Steps that relink nothing -/

section Threads

variable {τ : Type} [DecidableEq τ] {s s' : St τ} {t : τ}

/-- A step other than a relinking leaves the elements alone that a reader can come to. -/
theorem InvAt.frame {act : Act} (h : InvAt s xs) (hs : Rcu.step s (t, act) = some s')
    (hact : ∀ c, act = .advance → s.pc t ≠ .locked c) :
    s'.list.head = s.list.head ∧
      ∀ a, (a ∈ xs ∨ ∃ e, Deferred s e a) → s'.elements a = s.elements a := by
  cases act with
  | search key =>
      obtain ⟨_, ⟨⟩⟩ := Option.ite_none_right_eq_some.mp hs
      exact ⟨rfl, fun _ _ => rfl⟩
  | notify i =>
      obtain ⟨_, ⟨⟩⟩ := Option.ite_none_right_eq_some.mp hs
      exact ⟨rfl, fun _ _ => rfl⟩
  | signal =>
      cases hp : s.pc t with simp only [Rcu.step, hp] at hs
      | asleep key i e =>
          obtain rfl := Option.some.inj hs
          exact ⟨rfl, fun _ _ => rfl⟩
      | _ => cases hs
  | write op kmallocFails =>
      obtain ⟨_, ⟨⟩⟩ := Option.ite_none_right_eq_some.mp hs
      unfold St.write
      split
      · exact ⟨rfl, fun _ _ => rfl⟩
      · split
        · exact ⟨rfl, fun _ _ => rfl⟩
        · -- the new element is at an address that was never used
          refine ⟨rfl, fun a ha => Function.update_of_ne ?_ ..⟩
          have hsome : (s.elements a).isSome := by
            rcases ha with ha | ⟨e, v, hv⟩
            · exact h.isSome ha
            · exact (h.owned v a hv.owns).1
          exact Nat.ne_of_lt (h.lt_brk hsome)
  | advance =>
      have hs' : Rcu.advance s t = some s' := hs
      cases hp : s.pc t with simp only [Rcu.advance, hp] at hs'
      | idle | asleep key i e | lost e | wild => cases hs'
      | locked c => exact absurd hp (hact c rfl)
      | sampled key e =>
          split at hs' <;> obtain rfl := Option.some.inj hs' <;> exact ⟨rfl, fun _ _ => rfl⟩
      | prepared c =>
          obtain ⟨_, ⟨⟩⟩ := Option.ite_none_right_eq_some.mp hs'
          exact ⟨rfl, fun _ _ => rfl⟩
      | unlinked removed g | flipped removed g =>
          obtain ⟨_, ⟨⟩⟩ := Option.ite_none_left_eq_some.mp hs'
          exact ⟨rfl, fun _ _ => rfl⟩
      | unlocked removed =>
          obtain rfl := Option.some.inj hs'
          cases removed with
          | none => exact ⟨rfl, fun _ _ => rfl⟩
          | some b =>
              -- what is freed is its writer's own, and in no list
              have howns : (s.pc t).Owns b := by simp [hp, Pc.Owns]
              refine ⟨rfl, fun a ha => Function.update_of_ne ?_ ..⟩
              rintro rfl
              rcases ha with ha | ⟨e, v, hv⟩
              · exact (h.owned t a howns).2 ha
              · obtain rfl := h.distinct v t a hv.owns howns
                simp [hp, Pc.Defers] at hv
      | _ =>
          obtain rfl := Option.some.inj hs'
          exact ⟨rfl, fun _ _ => rfl⟩

end Threads

end TagMessaging.Rcu
