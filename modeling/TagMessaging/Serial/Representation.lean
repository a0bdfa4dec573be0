/-
# TagMessaging.Serial.Representation -- when a memory holds a registry

`Rep m R` ties the table, the records, the lists and the buffers to the rooms. For a live room the
slot leads to a record with the room's fields and the slot's own number as its tag, and the list of
that record has one element for each level, from 31 down to 0, whose buffer holds the message.
Lists of different slots share no element. The searches of the table are then lookups in the
registry.
-/
import TagMessaging.Serial.Table
import TagMessaging.Serial.Registry

namespace TagMessaging.Serial

open TagMessaging.Lib.Effect TagMessaging.Lib.FirstMatch TagMessaging.Lib.Tally
open TagMessaging.Model

/-- The entry carries the bytes; of a message of no bytes nothing is stored. -/
def Holds (m : Mem) (x : Entry) (bytes : List UInt8) : Prop :=
  x.size = bytes.length ∧ (bytes ≠ [] → ∃ a, x.message = some a ∧ m.buffers a = some bytes)

/-- The levels in the order of the list: each insertion goes in front. -/
def levelOrder : List (Fin levelDeep) := (List.finRange levelDeep).reverse

theorem levelOrder_nodup : levelOrder.Nodup := List.nodup_reverse.mpr (List.nodup_finRange _)

theorem mem_levelOrder (j : Fin levelDeep) : j ∈ levelOrder := by
  simp [levelOrder]

/-- The record of a room, as far as its own fields go. -/
structure Describes (room : Room) (i : Fin minSysTagServices) (s : TAGService) : Prop where
  key : s.key = room.key
  tag : s.tag = UInt32.ofNat i
  uidCreator : s.uidCreator = room.creator
  perm : s.perm = room.permission
  quiet : Quiet s.levels
  noSleeper : ∀ j, s.levels.readerQueue j = 0

/-- The record at `l` and the list elements at `xs` are those of the room at tag `i`. -/
def SlotAt (m : Mem) (room : Room) (i : Fin minSysTagServices) (l : Addr) (xs : List Addr) : Prop :=
  ∃ s f, Describes room i s ∧ ListAt m l s xs (levelOrder.map f) ∧
    ∀ j, (f j).level = Int32.ofNat j ∧ Holds m (f j) (room.message j)

/-- The memory holds the registry, the list of slot `i` being made of the elements `cells i`. -/
structure RepAt (m : Mem) (R : Registry) (cells : Fin minSysTagServices → List Addr) : Prop where
  fresh : FreshAbove m
  sound : R.Sound
  count : (m.serviceCount.toNat : Int) = R.live
  vacant : ∀ i, R i = none → m.tagServices i = none ∧ cells i = []
  slot : ∀ i room, R i = some room →
    ∃ l, m.tagServices i = some l ∧ SlotAt m room i l (cells i)
  apart : ∀ i j, i ≠ j → ∀ a ∈ cells i, a ∉ cells j

/-- The memory holds the registry. -/
def Rep (m : Mem) (R : Registry) : Prop := ∃ cells, RepAt m R cells

variable {m m' : Mem} {R : Registry} {cells : Fin minSysTagServices → List Addr}
variable {i j : Fin minSysTagServices} {room room' : Room} {l l' : Addr} {xs xs' : List Addr}
variable {s : TAGService} {env : Env} {key tag level : Int32} {caller : Caller}

/-! ## Numbers -/

/-- The tags in use are those an `int` argument between 0 and 255 converts to. -/
theorem ofNat_eq_toUInt32_iff : UInt32.ofNat i = tag.toUInt32 ↔ Registry.slotOf tag = some i := by
  have hi : i.val < minSysTagServices := i.isLt
  have hmin : minSysTagServices = 256 := rfl
  have hint : tag.toInt = if 2 * tag.toUInt32.toNat < 2 ^ 32 then (tag.toUInt32.toNat : Int)
      else tag.toUInt32.toNat - 2 ^ 32 := BitVec.toInt_eq_toNat_cond tag.toBitVec
  have hlt : tag.toUInt32.toNat < 2 ^ 32 := UInt32.toNat_lt _
  rw [← UInt32.toNat_inj, toNat_ofNat_slot, Registry.slotOf]
  split
  · simp only [Option.some.injEq, Fin.ext_iff]
    omega
  · simp only [reduceCtorEq, iff_false]
    omega

/-- A tag comes back to user space as the number of its slot. -/
theorem tag_toInt (i : Fin minSysTagServices) : (UInt32.ofNat i).toInt32.toInt = i := by
  have hi : i.val < 256 := i.isLt
  have hint := BitVec.toInt_eq_toNat_cond (UInt32.ofNat i).toInt32.toBitVec
  have hnat : (UInt32.ofNat i).toInt32.toBitVec.toNat = i := toNat_ofNat_slot i
  rw [hnat, if_pos (by omega)] at hint
  exact hint

theorem eq_ofNat_level_iff {j : Fin levelDeep} : level = Int32.ofNat j ↔ level.toInt = j := by
  have hj : j.val < 32 := j.isLt
  rw [← Int32.toInt_inj, Int32.toInt_ofNat_of_lt (by omega)]

theorem levelTooDeep_iff : levelTooDeep level = true ↔ level.toInt ≥ levelDeep := by
  simp [levelTooDeep, Int32.le_iff_toInt_le, levelDeep]

/-! ## Records and slots -/

theorem Describes.relisted (h : Describes room i s) (head : Ptr) (epoch : Fin 2) :
    Describes room i (relisted s head epoch) :=
  ⟨h.key, h.tag, h.uidCreator, h.perm, h.quiet, h.noSleeper⟩

/-- The permission check of the code is the room's own. -/
theorem Describes.validServiceOperation (h : Describes room i s) (caller : Caller)
    (hperm : room.permission = openRoom ∨ room.permission = privateRoom) :
    validServiceOperation caller s = !room.closedTo caller := by
  rw [Model.validServiceOperation, Room.closedTo, h.perm, h.uidCreator]
  rcases hperm with hp | hp <;> cases caller.isRoot <;> simp [hp, openRoom, privateRoom]

theorem Describes.hasSleepers (h : Describes room i s) : hasSleepers s = false := by
  simp [Model.hasSleepers, h.noSleeper]

/-- The record of a slot. -/
theorem SlotAt.record (h : SlotAt m room i l xs) :
    ∃ s, m.services l = some s ∧ Describes room i s := by
  obtain ⟨s, f, hd, ⟨head, epoch, hs, _⟩, _⟩ := h
  exact ⟨_, hs, hd.relisted head epoch⟩

/-- A room is still there after a change of memory that leaves its record, elements and buffers
alone. -/
theorem SlotAt.congr (h : SlotAt m room i l xs) (hs : m'.services l = m.services l)
    (he : ∀ a ∈ xs, m'.elements a = m.elements a)
    (hb : ∀ a bytes, m.buffers a = some bytes → m'.buffers a = some bytes) :
    SlotAt m' room i l xs := by
  obtain ⟨s, f, hd, ⟨head, epoch, hl, hrep⟩, hf⟩ := h
  refine ⟨s, f, hd, ⟨head, epoch, hs.trans hl, hrep.congr he⟩, fun j => ?_⟩
  obtain ⟨hlevel, hsize, hbytes⟩ := hf j
  refine ⟨hlevel, hsize, fun hne => ?_⟩
  obtain ⟨a, ha, hab⟩ := hbytes hne
  exact ⟨a, ha, hb a _ hab⟩

/-- The elements of a room are names in use. -/
theorem SlotAt.lt_brk (h : SlotAt m room i l xs) (hf : FreshAbove m) : ∀ a ∈ xs, a < m.brk := by
  obtain ⟨s, f, hd, ⟨head, epoch, hl, hrep⟩, _⟩ := h
  exact fun a ha => hrep.lt_brk hf ha

theorem RepAt.cells_lt_brk (h : RepAt m R cells) (i : Fin minSysTagServices) :
    ∀ a ∈ cells i, a < m.brk := by
  intro a ha
  cases hi : R i with
  | none => simp [(h.vacant i hi).2] at ha
  | some room =>
      obtain ⟨l, _, hslot⟩ := h.slot i room hi
      exact hslot.lt_brk h.fresh a ha

/-- Two live slots lead to different records, since each record carries the number of its slot. -/
theorem RepAt.slot_ne (h : RepAt m R cells) (hi : R i = some room) (hj : R j = some room')
    (hl : m.tagServices i = some l) (hl' : m.tagServices j = some l') (hij : i ≠ j) : l' ≠ l := by
  rintro rfl
  obtain ⟨a, ha, hslot⟩ := h.slot i room hi
  obtain ⟨b, hb, hslot'⟩ := h.slot j room' hj
  obtain rfl := Option.some.inj (hl.symm.trans ha)
  obtain rfl := Option.some.inj (hl'.symm.trans hb)
  obtain ⟨s, hs, hd⟩ := hslot.record
  obtain ⟨s', hs', hd'⟩ := hslot'.record
  obtain rfl := Option.some.inj (hs.symm.trans hs')
  have htag : (UInt32.ofNat i).toNat = (UInt32.ofNat j).toNat :=
    congrArg UInt32.toNat (hd.tag.symm.trans hd'.tag)
  rw [toNat_ofNat_slot, toNat_ofNat_slot] at htag
  exact hij (Fin.ext htag)

/-! ## The searches are lookups -/

theorem RepAt.slotService (h : RepAt m R cells) (i : Fin minSysTagServices) :
    match R i with
    | none => slotService m i = none
    | some room => ∃ s, slotService m i = some s ∧ Describes room i s := by
  cases hi : R i with
  | none => simp [Serial.slotService, (h.vacant i hi).1]
  | some room =>
      obtain ⟨l, hl, hslot⟩ := h.slot i room hi
      obtain ⟨s, hs, hd⟩ := hslot.record
      exact ⟨s, by simp [Serial.slotService, hl, hs], hd⟩

/-- No slot leads to a freed record. -/
theorem RepAt.intact (h : RepAt m R cells) (hi : m.tagServices i = some l) :
    ∃ room s, R i = some room ∧ m.services l = some s ∧ Describes room i s ∧
      SlotAt m room i l (cells i) := by
  cases hR : R i with
  | none => simp [(h.vacant i hR).1] at hi
  | some room =>
      obtain ⟨a, ha, hslot⟩ := h.slot i room hR
      obtain rfl := Option.some.inj (hi.symm.trans ha)
      obtain ⟨s, hs, hd⟩ := hslot.record
      exact ⟨room, s, rfl, hs, hd, hslot⟩

theorem RepAt.findSlot_key (h : RepAt m R cells) (key : Int32) :
    findSlot (fun s => s.key = key) m = R.tagOfKey key := by
  refine congrArg (fun p => (List.finRange minSysTagServices).find? p) (funext fun i => ?_)
  have hi := h.slotService i
  cases hR : R i with
  | none => simp [hR] at hi; simp [hi]
  | some room =>
      simp only [hR] at hi
      obtain ⟨s, hs, hd⟩ := hi
      simp [hs, hd.key]

theorem RepAt.findSlot_tag (h : RepAt m R cells) (tag : Int32) :
    findSlot (fun s => s.tag = tag.toUInt32) m = (R.roomOf tag).map Prod.fst := by
  have htest : ∀ i, (Serial.slotService m i).any (fun s => s.tag = tag.toUInt32) = true ↔
      Registry.slotOf tag = some i ∧ (R i).isSome := by
    intro i
    have hi := h.slotService i
    cases hR : R i with
    | none => simp [hR] at hi; simp [hi]
    | some room =>
        simp only [hR] at hi
        obtain ⟨s, hs, hd⟩ := hi
        simp [hs, hd.tag, ofNat_eq_toUInt32_iff]
  cases hslot : Registry.slotOf tag with
  | none =>
      have hnone : findSlot (fun s => s.tag = tag.toUInt32) m = none :=
        List.find?_eq_none.mpr fun i _ hi => by
          have hk := ((htest i).mp hi).1
          simp [hslot] at hk
      simp [hnone, Registry.roomOf, hslot]
  | some k =>
      cases hR : R k with
      | none =>
          have hnone : findSlot (fun s => s.tag = tag.toUInt32) m = none :=
            List.find?_eq_none.mpr fun i _ hi => by
              obtain ⟨hk, hsome⟩ := (htest i).mp hi
              obtain rfl := Option.some.inj (hslot.symm.trans hk)
              simp [hR] at hsome
          simp [hnone, Registry.roomOf, hslot, hR]
      | some room =>
          have hfirst := find?_map_eq (f := id) (i := k)
            (p := fun i => (Serial.slotService m i).any fun s => s.tag = tag.toUInt32)
            (List.mem_finRange k) (fun j _ => by
              rw [id, htest j, hslot]
              constructor
              · rintro ⟨hk, _⟩
                exact (Option.some.inj hk).symm
              · rintro rfl
                exact ⟨rfl, by simp [hR]⟩)
          have hfound : findSlot (fun s => s.tag = tag.toUInt32) m = some k := by
            rwa [List.map_id] at hfirst
          simp [hfound, Registry.roomOf, hslot, hR]

theorem RepAt.freeSlot (h : RepAt m R cells) : freeSlot m = R.freeTag := by
  refine congrArg (fun p => (List.finRange minSysTagServices).find? p) (funext fun i => ?_)
  cases hR : R i with
  | none => simp [(h.vacant i hR).1]
  | some room =>
      obtain ⟨l, hl, _⟩ := h.slot i room hR
      simp [hl]

/-! ## Changes of memory -/

/-- A list disjoint from the others may take the place of one of them. -/
theorem apart_update (h : ∀ i j, i ≠ j → ∀ a ∈ cells i, a ∉ cells j)
    (hnew : ∀ k, k ≠ i → ∀ a ∈ xs, a ∉ cells k) :
    ∀ j k, j ≠ k → ∀ a ∈ Function.update cells i xs j, a ∉ Function.update cells i xs k := by
  intro j k hjk a ha hak
  by_cases hji : j = i <;> by_cases hki : k = i
  · exact hjk (hji.trans hki.symm)
  · subst hji
    rw [Function.update_self] at ha
    rw [Function.update_of_ne hki] at hak
    exact hnew k hki a ha hak
  · subst hki
    rw [Function.update_of_ne hji] at ha
    rw [Function.update_self] at hak
    exact hnew j hji a hak ha
  · rw [Function.update_of_ne hji] at ha
    rw [Function.update_of_ne hki] at hak
    exact h j k hjk a ha hak

/-- Fresh memory does not disturb the registry. -/
theorem RepAt.extends (h : RepAt m R cells) (hext : Extends m m')
    (hslots : m'.tagServices = m.tagServices) (hcount : m'.serviceCount = m.serviceCount) :
    RepAt m' R cells where
  fresh := hext.fresh
  sound := h.sound
  count := hcount ▸ h.count
  vacant := fun i hi => hslots ▸ h.vacant i hi
  slot := by
    intro i room hi
    obtain ⟨l, hl, hslot⟩ := h.slot i room hi
    obtain ⟨s, hs, _⟩ := hslot.record
    refine ⟨l, hslots ▸ hl, hslot.congr (hext.services l (h.fresh.service_lt hs)) ?_ ?_⟩
    · exact fun a ha => hext.elements a (h.cells_lt_brk i a ha)
    · exact fun a bytes hab => (hext.buffers a (h.fresh.buffer_lt hab)).trans hab
  apart := h.apart

/-- What another slot holds survives an operation on the list of slot `i`. -/
theorem RepAt.other (h : RepAt m R cells) (hi : R i = some room) (hl : m.tagServices i = some l)
    (hstep : ListStep m m' l (cells i) xs') (hj : R j = some room') (hij : i ≠ j)
    (hl' : m.tagServices j = some l') (hslot : SlotAt m room' j l' (cells j)) :
    SlotAt m' room' j l' (cells j) := by
  refine hslot.congr (hstep.services l' (h.slot_ne hi hj hl hl' hij)) (fun a ha => ?_) ?_
  · exact hstep.elements a (h.cells_lt_brk j a ha) (h.apart j i hij.symm a ha)
  · intro a bytes hab
    rw [hstep.buffers]
    exact hab

/-- An operation on the list of a live slot rewrites the room at that slot. -/
theorem RepAt.listStep (h : RepAt m R cells) (hi : R i = some room)
    (hl : m.tagServices i = some l) (hstep : ListStep m m' l (cells i) xs')
    (hslot : SlotAt m' room' i l xs') (hkey : room'.key = room.key)
    (hperm : room'.permission = room.permission) :
    RepAt m' (Function.update R i (some room')) (Function.update cells i xs') where
  fresh := hstep.fresh
  sound := h.sound.rewrite hi hkey hperm
  count := by
    rw [hstep.count, h.count, Registry.live_update, hi]
    simp [Registry.occupied]
  vacant := by
    intro j hj
    have hji : j ≠ i := by
      rintro rfl
      simp at hj
    rw [Function.update_of_ne hji] at hj ⊢
    rw [hstep.slots]
    exact h.vacant j hj
  slot := by
    intro j r hj
    by_cases hji : j = i
    · subst hji
      obtain rfl : room' = r := by simpa using hj
      exact ⟨l, by rw [hstep.slots, hl], by simpa using hslot⟩
    · rw [Function.update_of_ne hji] at hj ⊢
      obtain ⟨l', hl', hslot'⟩ := h.slot j r hj
      exact ⟨l', by rw [hstep.slots, hl'], h.other hi hl hstep hj (Ne.symm hji) hl' hslot'⟩
  apart := by
    refine apart_update h.apart fun k hki a ha hak => ?_
    rcases hstep.cells a ha with hmem | hge
    · exact h.apart i k (Ne.symm hki) a hmem hak
    · exact Nat.not_lt.mpr hge (h.cells_lt_brk k a hak)

/-- The list behind the record of a slot. -/
theorem SlotAt.list (h : SlotAt m room i l xs) (hs : m.services l = some s) :
    ∃ f, ListRep m s.levels.head xs (levelOrder.map f) ∧
      ∀ j, (f j).level = Int32.ofNat j ∧ Holds m (f j) (room.message j) := by
  obtain ⟨s₀, f, _, ⟨head, epoch, hs₀, hrep⟩, hf⟩ := h
  obtain rfl := Option.some.inj (hs₀.symm.trans hs)
  exact ⟨f, hrep, hf⟩

theorem hasLevel_iff {f : Fin levelDeep → Entry} {j k : Fin levelDeep}
    (hf : (f k).level = Int32.ofNat k) (hj : level.toInt = j) :
    hasLevel level (f k) = true ↔ k = j := by
  simp only [hasLevel, hf, decide_eq_true_iff]
  rw [eq_comm, eq_ofNat_level_iff, hj, Fin.ext_iff]
  omega

/-- The counters and flags of a record are not part of its room. -/
theorem RepAt.touched {s' : TAGService} (h : RepAt m R cells) (hi : R i = some room)
    (hl : m.tagServices i = some l) (hs : m.services l = some s) (ht : Touched m m' l s s') :
    RepAt m' R cells := by
  obtain ⟨a, ha, hslot⟩ := h.slot i room hi
  obtain rfl := Option.some.inj (hl.symm.trans ha)
  obtain ⟨f, hrep, hf⟩ := hslot.list hs
  obtain ⟨s₁, hs₁, hd⟩ := hslot.record
  obtain rfl := Option.some.inj (hs.symm.trans hs₁)
  have hlt := h.fresh.service_lt hs
  obtain rfl := ht.mem
  have hstep : ListStep m { m with services := Function.update m.services l (some s') } l (cells i)
      (cells i) :=
    { slots := rfl
      count := rfl
      buffers := rfl
      services := fun b hb => by simp [hb]
      elements := fun _ _ _ => rfl
      cells := fun _ hb => Or.inl hb
      brk := le_refl _
      fresh := fun b hb => by
        have hne : b ≠ l := fun hbl => Nat.not_lt.mpr hb (hbl ▸ hlt)
        simpa [hne] using h.fresh b hb }
  have hd' : Describes room i s' :=
    ⟨ht.key.trans hd.key, ht.tag.trans hd.tag, ht.uidCreator.trans hd.uidCreator,
      ht.perm.trans hd.perm, ht.quiet, fun j => by rw [ht.readerQueue]; exact hd.noSleeper j⟩
  have hslot' : SlotAt { m with services := Function.update m.services l (some s') } room i l
      (cells i) := by
    refine ⟨s', f, hd', ⟨s'.levels.head, s'.levels.epoch, by simp [relisted], ?_⟩, hf⟩
    rw [ht.head]
    exact hrep.congr fun _ _ => rfl
  have hkept := h.listStep hi hl hstep hslot' rfl rfl
  rwa [← hi, Function.update_eq_self, Function.update_eq_self] at hkept

/-- A new record in a free slot, made of fresh memory, adds a room. -/
theorem RepAt.add (h : RepAt m R cells) (hi : R i = none) (hext : Extends m m')
    (hslots : m'.tagServices = Function.update m.tagServices i (some l))
    (hcount : m'.serviceCount = m.serviceCount + 1) (hslot : SlotAt m' room i l xs)
    (hxs : ∀ b ∈ xs, m.brk ≤ b) (hsound : Registry.Sound (Function.update R i (some room))) :
    RepAt m' (Function.update R i (some room)) (Function.update cells i xs) where
  fresh := hext.fresh
  sound := hsound
  count := by
    have hlive : Registry.live (Function.update R i (some room)) = R.live + 1 := by
      rw [Registry.live_update, hi]
      simp [Registry.occupied]
    have hle := Registry.live_le (R := Function.update R i (some room))
    have hmin : minSysTagServices = 256 := rfl
    have hsum : m'.serviceCount.toNat = m.serviceCount.toNat + 1 := by
      have hsmall : m.serviceCount.toNat + 1 < 2 ^ 32 := by have := h.count; omega
      rw [hcount, UInt32.toNat_add]
      exact Nat.mod_eq_of_lt hsmall
    rw [hlive, hsum]
    have := h.count
    omega
  vacant := by
    intro j hj
    have hji : j ≠ i := by
      rintro rfl
      simp at hj
    rw [Function.update_of_ne hji] at hj ⊢
    rw [hslots, Function.update_of_ne hji]
    exact h.vacant j hj
  slot := by
    intro j r hj
    by_cases hji : j = i
    · subst hji
      obtain rfl : room = r := by simpa using hj
      exact ⟨l, by simp [hslots], by simpa using hslot⟩
    · rw [Function.update_of_ne hji] at hj ⊢
      obtain ⟨l', hl', hslot'⟩ := h.slot j r hj
      obtain ⟨s, hs, _⟩ := hslot'.record
      refine ⟨l', by rw [hslots, Function.update_of_ne hji, hl'], hslot'.congr
        (hext.services l' (h.fresh.service_lt hs))
        (fun a ha => hext.elements a (h.cells_lt_brk j a ha)) fun a bytes hab => ?_⟩
      exact (hext.buffers a (h.fresh.buffer_lt hab)).trans hab
  apart := apart_update h.apart fun k _ a ha hak =>
    Nat.not_lt.mpr (hxs a ha) (h.cells_lt_brk k a hak)

/-- Clearing a slot and freeing its record takes the room away. -/
theorem RepAt.remove (h : RepAt m R cells) (hi : R i = some room)
    (hl : m.tagServices i = some l) :
    RepAt
      { m with
        tagServices := Function.update m.tagServices i none
        services := Function.update m.services l none
        serviceCount := m.serviceCount + -1 }
      (Function.update R i none) (Function.update cells i []) where
  fresh := by
    intro a ha
    have hold := h.fresh a ha
    refine ⟨?_, hold.2⟩
    by_cases hal : a = l
    · simp [hal]
    · simp [hal, hold.1]
  sound := h.sound.remove i
  count := by
    have hlive : Registry.live (Function.update R i none) = R.live - 1 := by
      rw [Registry.live_update, hi]
      simp [Registry.occupied]
    have hnonneg := Registry.live_nonneg (R := Function.update R i none)
    have hle := Registry.live_le (R := R)
    -- one room less, and the counter does not wrap: there was a room to remove
    have hmin : minSysTagServices = 256 := rfl
    have hone : (-1 : UInt32).toNat = 2 ^ 32 - 1 := by decide
    have hcount := h.count
    simp only [UInt32.toNat_add, hone]
    omega
  vacant := by
    intro j hj
    by_cases hji : j = i
    · subst hji
      simp
    · rw [Function.update_of_ne hji] at hj
      simpa [hji] using h.vacant j hj
  slot := by
    intro j r hj
    have hji : j ≠ i := by
      rintro rfl
      simp at hj
    rw [Function.update_of_ne hji] at hj
    obtain ⟨l', hl', hslot'⟩ := h.slot j r hj
    have hne : l' ≠ l := h.slot_ne hi hj hl hl' (Ne.symm hji)
    refine ⟨l', by simp [hji, hl'], ?_⟩
    rw [Function.update_of_ne hji]
    exact hslot'.congr (by simp [hne]) (fun _ _ => rfl) fun _ _ hab => hab
  apart := apart_update h.apart fun k _ a ha => by simp at ha

/-- The memory before any call: a table of `NULL` slots. -/
def emptyMem : Mem where
  tagServices := fun _ => none
  serviceCount := 0
  services := fun _ => none
  elements := fun _ => none
  buffers := fun _ => none
  brk := 0

theorem emptyMem_rep : Rep emptyMem Registry.empty := by
  refine ⟨fun _ => [], ?_, Registry.empty_sound, ?_, ?_, ?_, ?_⟩
  · exact fun _ _ => ⟨rfl, rfl, rfl⟩
  · rw [Registry.empty_live]
    rfl
  · exact fun _ _ => ⟨rfl, rfl⟩
  · exact fun _ _ h => by cases h
  · exact fun _ _ _ _ h => by cases h

end TagMessaging.Serial
