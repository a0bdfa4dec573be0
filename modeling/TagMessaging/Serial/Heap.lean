/-
# TagMessaging.Serial.Heap -- the shape of memory, whatever allocations failed

`Rep` needs every creation to have found memory for its 32 elements. `Formed` does not: a service
may lack levels. It says that each slot leads to a record of its own with the number of the slot as
its tag, that the lists of different slots share no element and their messages no buffer, and that
no public key is used twice. Every change a call makes is a change at one slot, and one rule says
what such a change has to respect.
-/
import TagMessaging.Serial.Refinement

namespace TagMessaging.Serial

open TagMessaging.Lib.Effect TagMessaging.Lib.FirstMatch TagMessaging.Model

/-- The elements of each slot's list, and the buffers of their messages. -/
structure Parts where
  cells : Fin minSysTagServices → List Addr
  bufs : Fin minSysTagServices → List Addr

/-- Other elements and buffers at slot `i`. -/
def Parts.set (P : Parts) (i : Fin minSysTagServices) (xs bs : List Addr) : Parts where
  cells := Function.update P.cells i xs
  bufs := Function.update P.bufs i bs

/-- The level is one of the 32. -/
def InLevel (level : Int32) : Prop := 0 ≤ level.toInt ∧ level.toInt < levelDeep

/-- The record at `l` is `s` up to the head and the epoch of its list; it belongs to slot `i`, and
its list carries the entries `es` on levels that there are. -/
structure Seat (m : Mem) (i : Fin minSysTagServices) (l : Addr) (s : TAGService) (xs : List Addr)
    (es : List Entry) : Prop where
  list : ListAt m l s xs es
  tag : s.tag = UInt32.ofNat i
  quiet : Quiet s.levels
  noSleeper : ∀ j, s.levels.readerQueue j = 0
  inLevel : ∀ x ∈ es, InLevel x.level

/-- The record at `l` belongs to slot `i`; its list is made of the elements `xs`, whose messages are
in the buffers `bs`. -/
def Seated (m : Mem) (i : Fin minSysTagServices) (l : Addr) (xs bs : List Addr) : Prop :=
  ∃ s es, Seat m i l s xs es ∧ es.filterMap Entry.message = bs

/-- The key of the service in a slot. -/
def keyAt (m : Mem) (i : Fin minSysTagServices) : Option Int32 :=
  (slotService m i).map TAGService.key

/-- The shape of memory between two calls. -/
structure Formed (m : Mem) (P : Parts) : Prop where
  fresh : FreshAbove m
  vacant : ∀ i, m.tagServices i = none → P.cells i = [] ∧ P.bufs i = []
  seat : ∀ i l, m.tagServices i = some l → Seated m i l (P.cells i) (P.bufs i)
  apart : ∀ i j, i ≠ j → ∀ a ∈ P.cells i, a ∉ P.cells j
  owned : ∀ i j, i ≠ j → ∀ b ∈ P.bufs i, b ∉ P.bufs j
  stored : ∀ i, ∀ b ∈ P.bufs i, (m.buffers b).isSome
  unique : ∀ i j key, keyAt m i = some key → keyAt m j = some key → key ≠ tagIpcPrivate → i = j

variable {m m' : Mem} {P : Parts} {i j : Fin minSysTagServices} {l l' a b : Addr}
variable {xs xs' bs bs' : List Addr} {es es' : List Entry} {s s' : TAGService}

/-! ## Slots -/

theorem Seated.record (h : Seated m i l xs bs) :
    ∃ s es, m.services l = some s ∧ ListRep m s.levels.head xs es ∧ Seat m i l s xs es ∧
      es.filterMap Entry.message = bs := by
  obtain ⟨s, es, hseat, hbs⟩ := h
  obtain ⟨head, epoch, hs, hrep⟩ := hseat.list
  exact ⟨_, es, hs, hrep, ⟨⟨head, epoch, hs, hrep⟩, hseat.tag, hseat.quiet, hseat.noSleeper,
    hseat.inLevel⟩, hbs⟩

/-- A service is still there after a change that leaves its record and its elements alone. -/
theorem Seated.congr (h : Seated m i l xs bs) (hs : m'.services l = m.services l)
    (he : ∀ a ∈ xs, m'.elements a = m.elements a) : Seated m' i l xs bs := by
  obtain ⟨s, es, hseat, hbs⟩ := h
  obtain ⟨head, epoch, hl, hrep⟩ := hseat.list
  exact ⟨s, es, ⟨⟨head, epoch, hs.trans hl, hrep.congr he⟩, hseat.tag, hseat.quiet,
    hseat.noSleeper, hseat.inLevel⟩, hbs⟩

theorem Seated.lt_brk (h : Seated m i l xs bs) (hf : FreshAbove m) (ha : a ∈ xs) : a < m.brk := by
  obtain ⟨s, es, _, hrep, _⟩ := h.record
  exact hrep.lt_brk hf ha

theorem ofNat_slot_inj (h : UInt32.ofNat i = UInt32.ofNat j) : i = j := by
  have hnat := congrArg UInt32.toNat h
  rw [toNat_ofNat_slot, toNat_ofNat_slot] at hnat
  exact Fin.ext hnat

/-- The record a slot leads to. -/
theorem Formed.record (h : Formed m P) (hi : m.tagServices i = some l) :
    ∃ s, m.services l = some s ∧ s.tag = UInt32.ofNat i := by
  obtain ⟨s, _, hs, _, hseat, _⟩ := (h.seat i l hi).record
  exact ⟨s, hs, hseat.tag⟩

/-- Two slots lead to different records, since each record carries the number of its slot. -/
theorem Formed.slot_inj (h : Formed m P) (hi : m.tagServices i = some l)
    (hj : m.tagServices j = some l) : i = j := by
  obtain ⟨s, hs, htag⟩ := h.record hi
  obtain ⟨s', hs', htag'⟩ := h.record hj
  obtain rfl := Option.some.inj (hs.symm.trans hs')
  exact ofNat_slot_inj (htag.symm.trans htag')

theorem Formed.slot_ne (h : Formed m P) (hi : m.tagServices i = some l)
    (hj : m.tagServices j = some l') (hji : j ≠ i) : l' ≠ l := by
  rintro rfl
  exact hji (h.slot_inj hj hi)

theorem Formed.cells_lt_brk (h : Formed m P) (ha : a ∈ P.cells i) : a < m.brk := by
  cases hi : m.tagServices i with
  | none => simp [(h.vacant i hi).1] at ha
  | some l => exact (h.seat i l hi).lt_brk h.fresh ha

theorem Formed.bufs_lt_brk (h : Formed m P) (hb : b ∈ P.bufs i) : b < m.brk := by
  obtain ⟨bytes, hbytes⟩ := Option.isSome_iff_exists.mp (h.stored i b hb)
  exact h.fresh.buffer_lt hbytes

theorem keyAt_eq (hi : m.tagServices i = some l) (hs : m.services l = some s) :
    keyAt m i = some s.key := by
  simp [keyAt, slotService, hi, hs]

/-- The key of a slot stays when the record it leads to stays. -/
theorem keyAt_congr (hi : m'.tagServices i = m.tagServices i)
    (hs : ∀ l, m.tagServices i = some l → m'.services l = m.services l) :
    keyAt m' i = keyAt m i := by
  unfold keyAt slotService
  rw [hi]
  cases hl : m.tagServices i with
  | none => rfl
  | some l => exact congrArg (Option.map TAGService.key) (hs l hl)

/-! ## Changes -/

/-- Fresh memory does not disturb the shape. -/
theorem Formed.extends (h : Formed m P) (hext : Extends m m')
    (hslots : m'.tagServices = m.tagServices) : Formed m' P := by
  have hrecord : ∀ i l, m.tagServices i = some l → m'.services l = m.services l := fun i l hi => by
    obtain ⟨s, hs, _⟩ := h.record hi
    exact hext.services l (h.fresh.service_lt hs)
  have hkey : ∀ i, keyAt m' i = keyAt m i := fun i =>
    keyAt_congr (congrFun hslots i) (hrecord i)
  refine ⟨hext.fresh, fun i hi => h.vacant i (hslots ▸ hi), fun i l hi => ?_, h.apart, h.owned,
    fun i b hb => ?_, fun i j key hi hj => ?_⟩
  · rw [hslots] at hi
    exact (h.seat i l hi).congr (hrecord i l hi) fun a ha => hext.elements a (h.cells_lt_brk ha)
  · rw [hext.buffers b (h.bufs_lt_brk hb)]
    exact h.stored i b hb
  · rw [hkey] at hi hj
    exact h.unique i j key hi hj

/-- A family with the members of index `i` replaced stays disjoint if the new ones are foreign to
the others. -/
theorem disjoint_update {f : Fin minSysTagServices → List Addr}
    (h : ∀ i j, i ≠ j → ∀ a ∈ f i, a ∉ f j) (hnew : ∀ a ∈ xs, ∀ k, k ≠ i → a ∉ f k) :
    ∀ j k, j ≠ k → ∀ a ∈ Function.update f i xs j, a ∉ Function.update f i xs k :=
  apart_update h fun k hk a ha => hnew a ha k hk

/-- What a change at slot `i` has to respect: the other slots with their records and elements, the
buffers in use, and the keys of the others. -/
structure Confined (m m' : Mem) (P : Parts) (i : Fin minSysTagServices) (l : Addr)
    (xs' bs' : List Addr) : Prop where
  fresh : FreshAbove m'
  slots : ∀ j, j ≠ i → m'.tagServices j = m.tagServices j
  services : ∀ k, k ≠ l → k < m.brk → m'.services k = m.services k
  elements : ∀ a, a < m.brk → a ∉ P.cells i → m'.elements a = m.elements a
  buffers : ∀ b, b < m.brk → m'.buffers b = m.buffers b
  cells : ∀ a ∈ xs', a ∈ P.cells i ∨ m.brk ≤ a
  bufs : ∀ b ∈ bs', (m'.buffers b).isSome ∧ ∀ j, j ≠ i → b ∉ P.bufs j
  key : ∀ key, keyAt m' i = some key → key ≠ tagIpcPrivate → ∀ j, j ≠ i → keyAt m j ≠ some key

/-- At the other slots nothing changes. -/
theorem Confined.record (hc : Confined m m' P i l xs' bs') (h : Formed m P)
    (hl : ∀ j, j ≠ i → m.tagServices j ≠ some l) (hji : j ≠ i) (hj : m.tagServices j = some l') :
    m'.services l' = m.services l' := by
  obtain ⟨s, hs, _⟩ := h.record hj
  refine hc.services l' ?_ (h.fresh.service_lt hs)
  rintro rfl
  exact hl j hji hj

/-- **One rule for every change.** -/
theorem Formed.change (h : Formed m P) (hc : Confined m m' P i l xs' bs')
    (hl : ∀ j, j ≠ i → m.tagServices j ≠ some l)
    (hnone : m'.tagServices i = none → xs' = [] ∧ bs' = [])
    (hsome : ∀ k, m'.tagServices i = some k → Seated m' i k xs' bs') :
    Formed m' (P.set i xs' bs') where
  fresh := hc.fresh
  vacant := by
    intro j hj
    by_cases hji : j = i
    · subst hji
      simpa [Parts.set] using hnone hj
    · rw [hc.slots j hji] at hj
      simpa [Parts.set, hji] using h.vacant j hj
  seat := by
    intro j k hj
    by_cases hji : j = i
    · subst hji
      simpa [Parts.set] using hsome k hj
    · rw [hc.slots j hji] at hj
      -- the cells of the other services are not among those that change
      have hseat := (h.seat j k hj).congr (hc.record h hl hji hj) fun a ha =>
        hc.elements a (h.cells_lt_brk ha) (h.apart j i hji a ha)
      simpa [Parts.set, hji] using hseat
  apart := disjoint_update h.apart fun a ha k hk hmem => by
    rcases hc.cells a ha with hold | hge
    · exact h.apart i k (Ne.symm hk) a hold hmem
    · exact Nat.not_lt.mpr hge (h.cells_lt_brk hmem)
  owned := disjoint_update h.owned fun b hb => (hc.bufs b hb).2
  stored := by
    intro j b hb
    by_cases hji : j = i
    · subst hji
      exact (hc.bufs b (by simpa [Parts.set] using hb)).1
    · have hold : b ∈ P.bufs j := by simpa [Parts.set, hji] using hb
      rw [hc.buffers b (h.bufs_lt_brk hold)]
      exact h.stored j b hold
  unique := by
    have hother : ∀ j, j ≠ i → keyAt m' j = keyAt m j := fun j hji =>
      keyAt_congr (hc.slots j hji) fun k hk => hc.record h hl hji hk
    intro j k key hj hk hpub
    -- only a key of the changed slot can clash with an old one
    by_cases hji : j = i <;> by_cases hki : k = i
    · exact hji.trans hki.symm
    · subst hji
      exact absurd (hother k hki ▸ hk) (hc.key key hj hpub k hki)
    · subst hki
      exact absurd (hother j hji ▸ hj) (hc.key key hk hpub j hji)
    · rw [hother j hji] at hj
      rw [hother k hki] at hk
      exact h.unique j k key hj hk hpub

/-- The keys of the other slots differ from the key of a slot. -/
theorem Formed.key_ne (h : Formed m P) (hi : m.tagServices i = some l)
    (hs : m.services l = some s) (hpub : s.key ≠ tagIpcPrivate) :
    ∀ j, j ≠ i → keyAt m j ≠ some s.key := fun j hji hj =>
  hji (h.unique j i s.key hj (keyAt_eq hi hs) hpub)

/-- An operation on the list of slot `i`. -/
theorem Formed.listStep (h : Formed m P) (hi : m.tagServices i = some l)
    (hseat : Seat m i l s (P.cells i) es) (hstep : ListStep m m' l (P.cells i) xs')
    (hseat' : Seat m' i l s xs' es') (hbufs : ∀ b ∈ es'.filterMap Entry.message,
      (m.buffers b).isSome ∧ ∀ j, j ≠ i → b ∉ P.bufs j) :
    Formed m' (P.set i xs' (es'.filterMap Entry.message)) := by
  obtain ⟨head, epoch, hs, _⟩ := hseat.list
  obtain ⟨head', epoch', hs', _⟩ := hseat'.list
  have hi' : m'.tagServices i = some l := by rw [hstep.slots, hi]
  refine h.change (l := l) ?_ (fun j hji hj => hji (h.slot_inj hj hi))
    (fun hnone => by simp [hi'] at hnone) fun k hk => ?_
  · refine ⟨hstep.fresh, fun j _ => by rw [hstep.slots], fun k hkl _ => hstep.services k hkl,
      hstep.elements, fun b _ => by rw [hstep.buffers], hstep.cells, ?_, ?_⟩
    · rw [hstep.buffers]
      exact hbufs
    · intro key hkey hpub
      obtain rfl : s.key = key := by
        rw [keyAt_eq hi' hs'] at hkey
        exact Option.some.inj hkey
      exact h.key_ne (s := relisted s head epoch) hi hs hpub
  · obtain rfl := Option.some.inj (hi'.symm.trans hk)
    exact ⟨s, es', hseat', rfl⟩

/-- The counters and flags of a record do not count. -/
theorem Formed.touched (h : Formed m P) (hi : m.tagServices i = some l)
    (hs : m.services l = some s) (ht : Touched m m' l s s') : Formed m' P := by
  obtain ⟨s₀, es, hs₀, hrep, hseat, hbs⟩ := (h.seat i l hi).record
  obtain rfl := Option.some.inj (hs.symm.trans hs₀)
  have hlt := h.fresh.service_lt hs
  obtain rfl := ht.mem
  have hs' : (Function.update m.services l (some s')) l = some s' := Function.update_self ..
  have hparts : P.set i (P.cells i) (P.bufs i) = P := by simp [Parts.set]
  rw [← hparts]
  refine h.change (l := l) ?_ (fun j hji hj => hji (h.slot_inj hj hi))
    (fun hnone => by simp [hi] at hnone) fun k hk => ?_
  · refine ⟨fun b hb => ?_, fun _ _ => rfl, fun k hkl _ => by simp [hkl], fun _ _ _ => rfl,
      fun _ _ => rfl, fun _ ha => Or.inl ha, fun b hb => ⟨h.stored i b hb, fun j hji hj => ?_⟩, ?_⟩
    · have hne : b ≠ l := fun hbl => Nat.not_lt.mpr hb (hbl ▸ hlt)
      simpa [hne] using h.fresh b hb
    · exact h.owned j i hji b hj hb
    · intro key hkey hpub
      obtain rfl : s'.key = key := by
        rw [keyAt_eq (m := { m with services := Function.update m.services l (some s') }) hi hs']
          at hkey
        exact Option.some.inj hkey
      rw [ht.key] at hpub ⊢
      exact h.key_ne hi hs hpub
  · obtain rfl := Option.some.inj (hi.symm.trans hk)
    refine ⟨s', es, ⟨⟨s'.levels.head, s'.levels.epoch, hs', ?_⟩, ht.tag.trans hseat.tag, ht.quiet,
      fun j => by rw [ht.readerQueue]; exact hseat.noSleeper j, hseat.inLevel⟩, hbs⟩
    rw [ht.head]
    exact hrep.congr fun _ _ => rfl

/-- A new record in slot `i`, made of fresh memory. -/
theorem Formed.add (h : Formed m P) (hext : Extends m m')
    (hslots : m'.tagServices = Function.update m.tagServices i (some l)) (hl : m.brk ≤ l)
    (hxs : ∀ b ∈ xs, m.brk ≤ b) (hseat : Seated m' i l xs []) (hs : m'.services l = some s)
    (hkey : s.key ≠ tagIpcPrivate → ∀ j, keyAt m j ≠ some s.key) :
    Formed m' (P.set i xs []) := by
  have hi' : m'.tagServices i = some l := by simp [hslots]
  refine h.change (l := l) ?_ (fun j _ hj => ?_) (fun hnone => by simp [hi'] at hnone) fun k hk => ?_
  · refine ⟨hext.fresh, fun j hji => by simp [hslots, hji], fun k _ hk => hext.services k hk,
      fun a ha _ => hext.elements a ha, hext.buffers, fun a ha => Or.inr (hxs a ha),
      fun b hb => by simp at hb, fun key hk hpub j _ => ?_⟩
    obtain rfl : s.key = key := by
      rw [keyAt_eq hi' hs] at hk
      exact Option.some.inj hk
    exact hkey hpub j
  · obtain ⟨s₀, hs₀, _⟩ := h.record hj
    exact Nat.not_lt.mpr hl (h.fresh.service_lt hs₀)
  · obtain rfl := Option.some.inj (hi'.symm.trans hk)
    exact hseat

/-- Clearing a slot and freeing its record. -/
theorem Formed.remove (h : Formed m P) (hi : m.tagServices i = some l) (count : UInt32) :
    Formed
      { m with
        tagServices := Function.update m.tagServices i none
        services := Function.update m.services l none
        serviceCount := count }
      (P.set i [] []) := by
  refine h.change (l := l) ?_ (fun j hji hj => hji (h.slot_inj hj hi)) (fun _ => ⟨rfl, rfl⟩)
    fun k hk => by simp at hk
  refine ⟨fun b hb => ?_, fun j hji => by simp [hji], fun k hkl _ => by simp [hkl],
    fun _ _ _ => rfl, fun _ _ => rfl, fun _ ha => by simp at ha, fun _ hb => by simp at hb,
    fun key hkey => by simp [keyAt, slotService] at hkey⟩
  have hold := h.fresh b hb
  refine ⟨?_, hold.2⟩
  by_cases hbl : b = l
  · simp [hbl]
  · simp [hbl, hold.1]

/-- The memory before any call. -/
theorem emptyMem_formed : Formed emptyMem ⟨fun _ => [], fun _ => []⟩ where
  fresh := fun _ _ => ⟨rfl, rfl, rfl⟩
  vacant := fun _ _ => ⟨rfl, rfl⟩
  seat := fun _ _ hi => by cases hi
  apart := fun _ _ _ _ ha => by cases ha
  owned := fun _ _ _ _ hb => by cases hb
  stored := fun _ _ hb => by cases hb
  unique := fun _ _ _ hi => by cases hi

end TagMessaging.Serial
