/-
# TagMessaging.Serial.ListOps -- lists in memory, and the search of one

`ListRep m head xs es` says that in the memory `m` the links from `head` pass through the elements
at `xs`, which carry the entries `es`. The operations of `rcu-list.c` are specified on `es`, as
operations on a first-match association list. `ListStep` is the frame of such an operation: it
touches the record of its list, the elements of its list and fresh blocks, and nothing else.

`rcu_list_search` is specified here, on a quiet list, in which no reader counter is positive.
-/
import TagMessaging.Serial.Rules
import TagMessaging.Model.Links
import TagMessaging.Lib.FirstMatch

namespace TagMessaging.Serial

open TagMessaging.Lib.Effect TagMessaging.Lib.Segment TagMessaging.Lib.FirstMatch
open TagMessaging.Model

/-- No name at or above `brk` is in use. -/
def FreshAbove (m : Mem) : Prop :=
  ∀ a, m.brk ≤ a → m.services a = none ∧ m.elements a = none ∧ m.buffers a = none

/-- The links from `head` pass through `xs`, whose entries are `es`. -/
structure ListRep (m : Mem) (head : Ptr) (xs : List Addr) (es : List Entry) : Prop where
  seg : Seg (nextOf m.elements) head xs none
  entries : xs.map (entryAt m.elements) = es.map some

/-- No reader is counted in either epoch. -/
def Quiet (list : RcuList) : Prop := ∀ e, list.standing e ≤ 0

/-- What an operation on the list in the record `l` may touch: that record, the elements `xs` of
the list and fresh blocks. -/
structure ListStep (m m' : Mem) (l : Addr) (xs xs' : List Addr) : Prop where
  slots : m'.tagServices = m.tagServices
  count : m'.serviceCount = m.serviceCount
  buffers : m'.buffers = m.buffers
  services : ∀ b, b ≠ l → m'.services b = m.services b
  elements : ∀ b, b < m.brk → b ∉ xs → m'.elements b = m.elements b
  cells : ∀ b ∈ xs', b ∈ xs ∨ m.brk ≤ b
  brk : m.brk ≤ m'.brk
  fresh : FreshAbove m'

variable {m m' m'' : Mem} {head : Ptr} {xs xs' xs'' : List Addr} {es : List Entry}
variable {env : Env} {w : World} {l a : Addr} {s : TAGService} {key : Int32} {msg : Ptr}
variable {size : Nat} {x : Entry} {epre epost : List Entry} {E : Fault → Prop}

theorem ListStep.refl (h : FreshAbove m) : ListStep m m l xs xs :=
  ⟨rfl, rfl, rfl, fun _ _ => rfl, fun _ _ _ => rfl, fun _ hb => Or.inl hb, le_refl _, h⟩

/-- Frames compose along the cells of the list. -/
theorem ListStep.trans (h : ListStep m m' l xs xs') (h' : ListStep m' m'' l xs' xs'') :
    ListStep m m'' l xs xs'' where
  slots := h'.slots.trans h.slots
  count := h'.count.trans h.count
  buffers := h'.buffers.trans h.buffers
  services := fun b hb => (h'.services b hb).trans (h.services b hb)
  elements := by
    intro b hlt hb
    have hb' : b ∉ xs' := fun hm => by
      rcases h.cells b hm with hm | hge
      · exact hb hm
      · exact Nat.not_lt.mpr hge hlt
    exact (h'.elements b (lt_of_lt_of_le hlt h.brk) hb').trans (h.elements b hlt hb)
  cells := by
    intro b hb
    rcases h'.cells b hb with hm | hge
    · exact h.cells b hm
    · exact Or.inr (le_trans h.brk hge)
  brk := le_trans h.brk h'.brk
  fresh := h'.fresh

theorem ListRep.isSome (h : ListRep m head xs es) (ha : a ∈ xs) : (m.elements a).isSome := by
  simpa [nextOf] using h.seg.isSome_next ha

theorem ListRep.lt_brk (h : ListRep m head xs es) (hf : FreshAbove m) (ha : a ∈ xs) :
    a < m.brk := by
  by_contra hge
  have hnone := (hf a (Nat.le_of_not_lt hge)).2.1
  have hsome := h.isSome ha
  simp [hnone] at hsome

theorem ListRep.length_le (h : ListRep m head xs es) (hf : FreshAbove m) :
    xs.length ≤ m.brk :=
  length_le_of_seg h.seg fun _ ha => h.lt_brk hf ha

/-- A list is a list still after a change that leaves its elements alone. -/
theorem ListRep.congr (h : ListRep m head xs es)
    (heq : ∀ a ∈ xs, m'.elements a = m.elements a) : ListRep m' head xs es where
  seg := h.seg.congr fun a ha => by simp [nextOf, heq a ha]
  entries := by
    rw [← h.entries]
    exact List.map_congr_left fun a ha => by simp [entryAt, heq a ha]

theorem FreshAbove.service_lt (h : FreshAbove m) (hs : m.services l = some s) : l < m.brk := by
  by_contra hge
  have hnone := (h l (Nat.le_of_not_lt hge)).1
  simp [hnone] at hs

theorem FreshAbove.buffer_lt {bytes : List UInt8} (h : FreshAbove m)
    (hb : m.buffers a = some bytes) : a < m.brk := by
  by_contra hge
  have hnone := (h a (Nat.le_of_not_lt hge)).2.2
  simp [hnone] at hb

/-! ## A fresh element -/

/-- Memory after `newElement` succeeded. -/
def withElement (m : Mem) (x : Entry) : Mem :=
  { m with
    brk := m.brk + 1
    elements := Function.update m.elements m.brk
      (some { next := none, level := x.level, message := x.message, size := x.size }) }

/-- Memory after an allocation failed: only the name is spent. -/
def withoutBlock (m : Mem) : Mem := { m with brk := m.brk + 1 }

theorem withoutBlock_fresh (h : FreshAbove m) : FreshAbove (withoutBlock m) :=
  fun a ha => h a (Nat.le_of_succ_le ha)

theorem withoutBlock_step (h : FreshAbove m) : ListStep m (withoutBlock m) l xs xs :=
  ⟨rfl, rfl, rfl, fun _ _ => rfl, fun _ _ _ => rfl, fun _ hb => Or.inl hb, Nat.le_succ _,
    withoutBlock_fresh h⟩

theorem withElement_fresh (h : FreshAbove m) (x : Entry) : FreshAbove (withElement m x) := by
  intro a ha
  have hlt : m.brk < a := ha
  obtain ⟨hs, he, hb⟩ := h a (Nat.le_of_lt hlt)
  refine ⟨hs, ?_, hb⟩
  simp [withElement, Nat.ne_of_gt hlt, he]

theorem withElement_rep (h : ListRep m head xs es) (hf : FreshAbove m) (x : Entry) :
    ListRep (withElement m x) head xs es :=
  h.congr fun a ha => by simp [withElement, Nat.ne_of_lt (h.lt_brk hf ha)]

theorem withElement_step (h : FreshAbove m) (x : Entry) :
    ListStep m (withElement m x) l xs xs where
  slots := rfl
  count := rfl
  buffers := rfl
  services := fun _ _ => rfl
  elements := fun b hlt _ => by simp [withElement, Nat.ne_of_lt hlt]
  cells := fun _ hb => Or.inl hb
  brk := Nat.le_succ _
  fresh := withElement_fresh h x

/-! ## Relinking and the change of epoch -/

/-- The record with another head and another epoch of its list. -/
def relisted (s : TAGService) (head : Ptr) (epoch : Fin 2) : TAGService :=
  { s with levels := { s.levels with head := head, epoch := epoch } }

@[simp] theorem relisted_relisted (head head' : Ptr) (epoch epoch' : Fin 2) :
    relisted (relisted s head epoch) head' epoch' = relisted s head' epoch' := rfl

@[simp] theorem relisted_levels_epoch (epoch : Fin 2) :
    (relisted s head epoch).levels.epoch = epoch := rfl

/-- Memory after a writer took over a relinking of the list in `l` and flipped its epoch. -/
def relinkMem (m : Mem) (l : Addr) (s : TAGService) (r : Relinked) : Mem :=
  { m with
    elements := r.elements
    services := Function.update m.services l (some (relisted s r.head (s.levels.epoch + 1))) }

/-- The relinked list carries the entries at its nodes, which no relinking changes. -/
theorem relinkMem_rep {r : Relinked} (hspec : r.Spec m.elements xs')
    (hes : xs'.map (entryAt m.elements) = es.map some) :
    ListRep (relinkMem m l s r) r.head xs' es where
  seg := hspec.seg
  entries := by
    rw [← hes]
    exact List.map_congr_left fun a _ => congrFun hspec.entries a

/-- Allocating an element and relinking it into the list stays inside the frame of the list. -/
theorem relinkMem_step {r : Relinked} {x : Entry} (hf : FreshAbove m) (hl : l < m.brk)
    (hxs : ∀ b ∈ xs, b < m.brk) (hxs' : ∀ b ∈ xs', b ∈ xs ∨ b = m.brk)
    (hspec : r.Spec (withElement m x).elements xs') :
    ListStep m (relinkMem (withElement m x) l s r) l xs xs' where
  slots := rfl
  count := rfl
  buffers := rfl
  services := fun b hb => by simp [relinkMem, withElement, hb]
  elements := by
    intro b hlt hb
    have hb' : b ∉ xs' := fun hm => by
      rcases hxs' b hm with hm | rfl
      · exact hb hm
      · exact Nat.lt_irrefl _ hlt
    calc r.elements b = (withElement m x).elements b := hspec.frame b hb'
      _ = m.elements b := by simp [withElement, Nat.ne_of_lt hlt]
  cells := fun b hb => (hxs' b hb).imp_right fun h => Nat.le_of_eq h.symm
  brk := Nat.le_succ _
  fresh := by
    intro b hge
    have hlt : m.brk < b := hge
    obtain ⟨hsv, hel, hbuf⟩ := withElement_fresh hf x b hge
    have hbx : b ∉ xs := fun hm => Nat.lt_asymm hlt (hxs b hm)
    have hbx' : b ∉ xs' := fun hm => by
      rcases hxs' b hm with hm | rfl
      · exact hbx hm
      · exact Nat.lt_irrefl _ hlt
    refine ⟨?_, ?_, hbuf⟩
    · have hne : b ≠ l := Nat.ne_of_gt (Nat.lt_trans hl hlt)
      simp [relinkMem, hne, hsv]
    · exact (hspec.frame b hbx').trans hel

/-- Freeing an element of the list as it was stays inside the frame too. -/
theorem ListStep.kfree (h : ListStep m m' l xs xs') (ha : a ∈ xs) :
    ListStep m { m' with elements := Function.update m'.elements a none } l xs xs' where
  slots := h.slots
  count := h.count
  buffers := h.buffers
  services := h.services
  elements := by
    intro b hlt hb
    have hne : b ≠ a := fun hba => hb (hba ▸ ha)
    simpa [hne] using h.elements b hlt hb
  cells := h.cells
  brk := h.brk
  fresh := by
    intro b hge
    obtain ⟨hsv, hel, hbuf⟩ := h.fresh b hge
    refine ⟨hsv, ?_, hbuf⟩
    by_cases hba : b = a
    · simp [hba]
    · simp [hba, hel]

/-! ## The list of a record -/

/-- The record at `l` is `s` up to the head and the epoch of its list, whose links pass through
`xs` with the entries `es`. -/
def ListAt (m : Mem) (l : Addr) (s : TAGService) (xs : List Addr) (es : List Entry) : Prop :=
  ∃ head epoch, m.services l = some (relisted s head epoch) ∧ ListRep m head xs es

/-- The test of the walks for `key`. -/
def hasLevel (key : Int32) (x : Entry) : Bool := decide (x.level = key)

/-- Where the entries are cut, the elements are cut. -/
theorem ListRep.cut (h : ListRep m head xs (epre ++ x :: epost)) :
    ∃ pre a post, xs = pre ++ a :: post ∧ pre.map (entryAt m.elements) = epre.map some ∧
      entryAt m.elements a = some x ∧ post.map (entryAt m.elements) = epost.map some := by
  have hes := h.entries
  rw [List.map_append, List.map_cons, List.map_eq_append_iff] at hes
  obtain ⟨pre, rest, rfl, hpre, hrest⟩ := hes
  obtain ⟨a, post, rfl, ha, hpost⟩ := List.map_eq_cons_iff.mp hrest
  exact ⟨pre, a, post, rfl, hpre, ha, hpost⟩

/-- Entries without the key are elements without the key. -/
theorem not_levelIs_of_entries (h : xs.map (entryAt m.elements) = es.map some)
    (hkey : ∀ y ∈ es, hasLevel key y = false) : ∀ b ∈ xs, ¬ LevelIs m.elements key b := by
  intro b hb hl
  obtain ⟨y, hy, hlevel⟩ := levelIs_iff_entryAt.mp hl
  have hmem : some y ∈ es.map some := h ▸ hy ▸ List.mem_map_of_mem hb
  have hyes : y ∈ es := by simpa using hmem
  simpa [hasLevel, hlevel] using hkey y hyes

/-- Taking over a relinking relists the record. -/
theorem relinkMem_listAt {r : Relinked} {epoch : Fin 2} (hspec : r.Spec m.elements xs')
    (hes : xs'.map (entryAt m.elements) = es.map some) :
    ListAt (relinkMem m l (relisted s head epoch) r) l s xs' es :=
  ⟨r.head, epoch + 1, by simp [relinkMem], relinkMem_rep hspec hes⟩

/-- A failed allocation leaves the list as it was. -/
theorem withoutBlock_listAt (h : ListAt m l s xs es) : ListAt (withoutBlock m) l s xs es :=
  let ⟨head, epoch, hs, hrep⟩ := h
  ⟨head, epoch, hs, hrep.congr fun _ _ => rfl⟩

/-- Freeing an element outside the list leaves the list as it is. -/
theorem ListAt.kfree (h : ListAt m l s xs es) (ha : a ∉ xs) :
    ListAt { m with elements := Function.update m.elements a none } l s xs es := by
  obtain ⟨head, epoch, hs, hrep⟩ := h
  refine ⟨head, epoch, hs, hrep.congr fun b hb => ?_⟩
  have hne : b ≠ a := fun hba => ha (hba ▸ hb)
  simp [hne]

/-! ## The search -/

/-- The walk of `rcu_list_search` finds the first entry with the key. -/
theorem ListRep.findLevel (h : ListRep m head xs es) (hf : FreshAbove m) (key : Int32) :
    ∃ p, findLevel m.elements key m.brk head = .ok p ∧
      match es.find? (hasLevel key) with
      | none => p = none
      | some x => ∃ a ∈ xs, p = some a ∧ entryAt m.elements a = some x := by
  by_cases hkey : ∃ x ∈ es, hasLevel key x
  · obtain ⟨epre, x, epost, rfl, hpre, hx⟩ := exists_first hkey
    obtain ⟨pre, a, post, rfl, hpreE, haE, _⟩ := h.cut
    have hlen : pre.length < m.brk := by
      have hle := h.length_le hf
      rw [List.length_append, List.length_cons] at hle
      exact lt_of_lt_of_le (by simp) hle
    refine ⟨some a, findLevel_of_first h.seg (not_levelIs_of_entries hpreE hpre) ?_ hlen, ?_⟩
    · exact levelIs_iff_entryAt.mpr ⟨x, haE, by simpa [hasLevel] using hx⟩
    · rw [find?_append_of_first hpre hx]
      exact ⟨a, by simp, rfl, haE⟩
  · have habsent : ∀ y ∈ es, hasLevel key y = false := by simpa using hkey
    refine ⟨none, findLevel_of_absent h.seg (not_levelIs_of_entries h.entries habsent)
      (h.length_le hf), ?_⟩
    rw [List.find?_eq_none.mpr fun y hy => by simp [habsent y hy]]

/-- Only the counters and the flags in the record at `l` change. -/
structure Touched (m m' : Mem) (l : Addr) (s s' : TAGService) : Prop where
  mem : m' = { m with services := Function.update m.services l (some s') }
  key : s'.key = s.key
  tag : s'.tag = s.tag
  uidCreator : s'.uidCreator = s.uidCreator
  perm : s'.perm = s.perm
  head : s'.levels.head = s.levels.head
  epoch : s'.levels.epoch = s.levels.epoch
  readerQueue : s'.levels.readerQueue = s.levels.readerQueue
  quiet : Quiet s'.levels

theorem Touched.refl (hs : m.services l = some s) (hq : Quiet s.levels) : Touched m m l s s :=
  ⟨by rw [← hs, Function.update_eq_self], rfl, rfl, rfl, rfl, rfl, rfl, rfl, hq⟩

theorem Touched.trans {s' s'' : TAGService} (h : Touched m m' l s s') (h' : Touched m' m'' l s' s'') :
    Touched m m'' l s s'' where
  mem := by
    rw [h'.mem, h.mem]
    simp
  key := h'.key.trans h.key
  tag := h'.tag.trans h.tag
  uidCreator := h'.uidCreator.trans h.uidCreator
  perm := h'.perm.trans h.perm
  head := h'.head.trans h.head
  epoch := h'.epoch.trans h.epoch
  readerQueue := h'.readerQueue.trans h.readerQueue
  quiet := h'.quiet

/-- `rcu_list_search` on a quiet list: a signal gives `NULL`, a wake-up the first element with the
key. -/
theorem rcuListSearch_spec (h : ListRep w.mem s.levels.head xs es) (hs : w.mem.services l = some s)
    (hq : Quiet s.levels) (hf : FreshAbove w.mem) (hrange : 0 ≤ key.toInt ∧ key.toInt < levelDeep) :
    wp (rcuListSearch l key) env w (fun p w' => (∃ s', Touched w.mem w'.mem l s s') ∧
      match env.waitEnd with
      | .signal => p = none
      | .woken => match es.find? (hasLevel key) with
        | none => p = none
        | some x => ∃ a ∈ xs, p = some a ∧ entryAt w.mem.elements a = some x) E := by
  have hindex : levelIndex key = pure ⟨key.toInt.toNat, by omega⟩ := dif_pos hrange
  have hepoch := hq s.levels.epoch
  cases hend : env.waitEnd with
  | signal =>
    -- the counter is lowered without having been raised
    simp [rcuListSearch, hs, hindex, addWaiters, addStanding, waitEventInterruptible, hend,
      withMem]
    refine ⟨_, rfl, rfl, rfl, rfl, rfl, rfl, rfl, rfl, fun e => ?_⟩
    by_cases he : e = s.levels.epoch
    · simp only [he, Function.update_self]
      omega
    · simpa [he] using hq e
  | woken =>
    obtain ⟨p, hp, hfound⟩ := h.findLevel hf key
    simp [rcuListSearch, hs, hindex, addWaiters, addStanding, waitEventInterruptible,
      hend, withMem, hp]
    refine ⟨⟨_, rfl, rfl, rfl, rfl, rfl, rfl, rfl, rfl, fun e => ?_⟩, hfound⟩
    by_cases he : e = s.levels.epoch
    · simp only [he]
      omega
    · simpa [he] using hq e

end TagMessaging.Serial
