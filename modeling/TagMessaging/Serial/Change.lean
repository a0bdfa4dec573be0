/-
# TagMessaging.Serial.Change -- all that one call can do to memory

`Change` lists the ways in which a call that returns leaves memory: it was refused, it took over a
message and lost it, it put one in a list, it found a key, it set flags and counters of a record,
it filled a slot or it cleared one. Each way names the service it is about and says that the
permission check was passed. The four calls are executed once, here; the shape of memory, what is
closed to whom and what is left allocated are read off the list.
-/
import TagMessaging.Serial.Heap
import TagMessaging.Serial.Runs

namespace TagMessaging.Serial

open TagMessaging.Lib.Effect TagMessaging.Lib.Transition TagMessaging.Lib.FirstMatch
open TagMessaging.Model

/-! ## The ways a call ends -/

/-- The call names the service: by its tag, or by asking for its key. -/
def Names (s : TAGService) : Call → Prop
  | .tagGet key command _ => command = cmdOpen ∧ key = s.key
  | .tagSend tag _ _ _ | .tagReceive tag _ _ _ | .tagCtl tag _ => s.tag = tag.toUInt32

/-- The call names the service in slot `i` and has passed its permission check. -/
structure Served (env : Env) (c : Call) (m : Mem) (i : Fin minSysTagServices) (l : Addr)
    (s : TAGService) : Prop where
  slot : m.tagServices i = some l
  record : m.services l = some s
  names : Names s c
  valid : validServiceOperation env.caller s = true

/-- Nothing but fresh names was spent. -/
structure Same (m m' : Mem) : Prop where
  slots : m'.tagServices = m.tagServices
  services : m'.services = m.services
  elements : m'.elements = m.elements
  buffers : m'.buffers = m.buffers
  brk : m.brk ≤ m'.brk

/-- Memory after `tag_send` took over a message of `size` bytes. -/
def takenMem (m : Mem) (size : Nat) (bytes : List UInt8) : Mem :=
  if size = 0 then withoutBlock m
  else { m with brk := m.brk + 1, buffers := Function.update m.buffers m.brk (some bytes) }

/-- The buffer it was put in. -/
def takenPtr (m : Mem) (size : Nat) : Ptr := if size = 0 then none else some m.brk

/-- A `tag_send` that has passed all its checks, the message being in memory, where the list of the
service carries the entries `es`. -/
structure Sending (env : Env) (c : Call) (m : Mem) (P : Parts) (level : Int32) (size : Nat)
    (bytes : List UInt8) (i : Fin minSysTagServices) (l : Addr) (s : TAGService)
    (es : List Entry) : Prop where
  call : ∃ tag user, c = .tagSend tag level (some user) size
  live : env.moduleLive = true
  fits : size ≤ maxMessageSize
  copied : min env.notCopied size = 0
  served : Served env c m i l s
  shallow : levelTooDeep level = false
  seat : Seat (takenMem m size bytes) i l s (P.cells i) es

/-- How the call `c` may leave the memory `m` of the parts `P`. -/
inductive Change (env : Env) (c : Call) (m : Mem) (P : Parts) : Answer → Mem → Parts → Prop
  /-- An error, with nothing done. -/
  | refused {a : Answer} {m' : Mem} : a.ret < 0 → Same m m' → Change env c m P a m' P
  /-- The message was not copied whole, or there is no such service. -/
  | unsent {tag level : Int32} {user : Nat → UInt8} {size : Nat} {bytes : List UInt8} {a : Answer} :
      c = .tagSend tag level (some user) size → env.moduleLive = true → size ≤ maxMessageSize →
      min env.notCopied size ≠ 0 ∨ findSlot (fun s => s.tag = tag.toUInt32) m = none →
      a.ret < 0 → Change env c m P a (takenMem m size bytes) P
  /-- `rcu_list_replace` had no memory, or did not find the level. -/
  | unstored {level : Int32} {size : Nat} {bytes : List UInt8} {i : Fin minSysTagServices}
      {l : Addr} {s : TAGService} {es : List Entry} {a : Answer} {m' : Mem} :
      Sending env c m P level size bytes i l s es →
      Replaced (env.kmallocFails (takenMem m size bytes).brk) (takenMem m size bytes) l s
        (P.cells i) es ⟨level, takenPtr m size, size⟩ 0 m' →
      a.ret < 0 → Change env c m P a m' P
  /-- The message is in the list, in the place of the entry `y`. -/
  | stored {level : Int32} {size : Nat} {bytes : List UInt8} {i : Fin minSysTagServices}
      {l : Addr} {s : TAGService} {epre epost : List Entry} {y : Entry} {xs' : List Addr}
      {a : Answer} {m' : Mem} :
      Sending env c m P level size bytes i l s (epre ++ y :: epost) →
      env.kmallocFails (takenMem m size bytes).brk = false →
      (∀ z ∈ epre, hasLevel level z = false) → hasLevel level y = true →
      ListStep (takenMem m size bytes) m' l (P.cells i) xs' →
      Tight (takenMem m size bytes) m' (P.cells i) xs' →
      ListAt m' l s xs' (epre ++ ⟨level, takenPtr m size, size⟩ :: epost) →
      Change env c m P a m'
        (P.set i xs' ((epre ++ ⟨level, takenPtr m size, size⟩ :: epost).filterMap Entry.message))
  /-- The tag of a key. -/
  | opened {key permission : Int32} {i : Fin minSysTagServices} {l : Addr} {s : TAGService}
      {a : Answer} : c = .tagGet key cmdOpen permission → key ≠ tagIpcPrivate →
      Served env c m i l s → Change env c m P a m P
  /-- Flags and counters of the record. -/
  | touched {i : Fin minSysTagServices} {l : Addr} {s s' : TAGService} {a : Answer} {m' : Mem} :
      (∀ key command permission, c ≠ .tagGet key command permission) →
      Served env c m i l s → Touched m m' l s s' → Change env c m P a m' P
  /-- A new service. -/
  | created {key permission : Int32} {i : Fin minSysTagServices} {l : Addr} {s : TAGService}
      {xs : List Addr} {a : Answer} {m' : Mem} :
      c = .tagGet key cmdCreate permission → m.tagServices i = none → m.brk ≤ l →
      (s.key ≠ tagIpcPrivate → ∀ j, keyAt m j ≠ some s.key) → m'.services l = some s →
      Extends m m' → m'.tagServices = Function.update m.tagServices i (some l) →
      (∀ b ∈ xs, m.brk ≤ b) → Seated m' i l xs [] → Grown m m' l xs →
      Change env c m P a m' (P.set i xs [])
  /-- A service taken out, after some fresh memory was spent. -/
  | removed {tag : Int32} {i : Fin minSysTagServices} {l : Addr} {s : TAGService} {a : Answer}
      {m₁ : Mem} {count : UInt32} : c = .tagCtl tag cmdRemove → env.moduleLive = true →
      Served env c m i l s → Extends m m₁ → m₁.tagServices = m.tagServices →
      Change env c m P a
        { m₁ with
          tagServices := Function.update m₁.tagServices i none
          services := Function.update m₁.services l none
          serviceCount := count }
        (P.set i [] [])

variable {env : Env} {c : Call} {w w' : World} {m m' : Mem} {P P' : Parts} {a : Answer}
variable {i j : Fin minSysTagServices} {l b : Addr} {s : TAGService} {key tag level : Int32}
variable {size : Nat} {bytes : List UInt8} {E : Fault → Prop}

/-! ## The taken message -/

@[simp] theorem takenMem_tagServices :
    (takenMem m size bytes).tagServices = m.tagServices := by
  unfold takenMem
  split <;> rfl

@[simp] theorem takenMem_services : (takenMem m size bytes).services = m.services := by
  unfold takenMem
  split <;> rfl

@[simp] theorem takenMem_elements : (takenMem m size bytes).elements = m.elements := by
  unfold takenMem
  split <;> rfl

@[simp] theorem takenMem_brk : (takenMem m size bytes).brk = m.brk + 1 := by
  unfold takenMem
  split <;> rfl

theorem takenMem_buffers_of_lt (hb : b < m.brk) :
    (takenMem m size bytes).buffers b = m.buffers b := by
  unfold takenMem
  split
  · rfl
  · simp [Nat.ne_of_lt hb]

theorem takenMem_extends (h : FreshAbove m) : Extends m (takenMem m size bytes) where
  services := fun a _ => by simp
  elements := fun a _ => by simp
  buffers := fun a ha => takenMem_buffers_of_lt ha
  brk := by simp
  fresh := by
    intro a ha
    rw [takenMem_brk] at ha
    have hlt : m.brk < a := ha
    obtain ⟨hs, he, hb⟩ := h a (Nat.le_of_lt hlt)
    refine ⟨by simpa using hs, by simpa using he, ?_⟩
    unfold takenMem
    split
    · exact hb
    · simpa [Nat.ne_of_gt hlt] using hb

/-- The buffer of the message is new and in use. -/
theorem takenPtr_buffer (h : takenPtr m size = some b) :
    b = m.brk ∧ ((takenMem m size bytes).buffers b).isSome := by
  unfold takenPtr at h
  by_cases hzero : size = 0
  · simp [hzero] at h
  · obtain rfl : m.brk = b := by simpa [hzero] using h
    simp [takenMem, hzero]

theorem Same.extends (h : Same m m') (hf : FreshAbove m) : Extends m m' where
  services := fun _ _ => by rw [h.services]
  elements := fun _ _ => by rw [h.elements]
  buffers := fun _ _ => by rw [h.buffers]
  brk := h.brk
  fresh := by
    intro a ha
    rw [h.services, h.elements, h.buffers]
    exact hf a (le_trans h.brk ha)

/-! ## The shape is kept -/

theorem filterMap_message_eq {epre epost : List Entry} {x : Entry}
    (hb : b ∈ (epre ++ x :: epost).filterMap Entry.message) :
    x.message = some b ∨ ∀ y, b ∈ (epre ++ y :: epost).filterMap Entry.message := by
  rw [List.mem_filterMap] at hb
  obtain ⟨z, hz, hzb⟩ := hb
  rcases List.mem_append.mp hz with hpre | hrest
  · exact Or.inr fun y => List.mem_filterMap.mpr ⟨z, by simp [hpre], hzb⟩
  · rcases List.mem_cons.mp hrest with rfl | hpost
    · exact Or.inl hzb
    · exact Or.inr fun y => List.mem_filterMap.mpr ⟨z, by simp [hpost], hzb⟩

/-- The list of a slot is determined by its record. -/
theorem Seat.bufs_eq {es : List Entry} {xs bs : List Addr} (h : Seat m i l s xs es)
    (h' : Seated m i l xs bs) : es.filterMap Entry.message = bs := by
  obtain ⟨s', es', hseat', rfl⟩ := h'
  obtain ⟨_, _, _, hrep⟩ := h.list
  obtain ⟨_, _, _, hrep'⟩ := hseat'.list
  have hes : es.map some = es'.map some := hrep.entries.symm.trans hrep'.entries
  rw [List.map_injective_iff.mpr (Option.some_injective _) hes]

theorem withoutBlock_extends (h : FreshAbove m) : Extends m (withoutBlock m) :=
  ⟨fun _ _ => rfl, fun _ _ => rfl, fun _ _ => rfl, Nat.le_succ _, withoutBlock_fresh h⟩

theorem withElement_extends (h : FreshAbove m) (x : Entry) : Extends m (withElement m x) where
  services := fun _ _ => rfl
  elements := fun a ha => by simp [withElement, Nat.ne_of_lt ha]
  buffers := fun _ _ => rfl
  brk := Nat.le_succ _
  fresh := withElement_fresh h x

theorem Formed.taken (h : Formed m P) (size : Nat) (bytes : List UInt8) :
    Formed (takenMem m size bytes) P :=
  h.extends (takenMem_extends h.fresh) takenMem_tagServices

/-- An element that did not get into the list is only spent memory. -/
theorem Replaced.extends {fails : Bool} {xs : List Addr} {es : List Entry} {x : Entry}
    (h : Replaced fails m l s xs es x 0 m') (hf : FreshAbove m) :
    Extends m m' ∧ m'.tagServices = m.tagServices := by
  cases h with
  | noMemory => exact ⟨withoutBlock_extends hf, rfl⟩
  | absent => exact ⟨withElement_extends hf x, rfl⟩

/-- The seat after the message has taken the place of the entry `y`. -/
theorem Sending.seat_stored {epre epost : List Entry} {y : Entry} {xs' : List Addr}
    (h : Sending env c m P level size bytes i l s (epre ++ y :: epost))
    (hy : hasLevel level y = true)
    (hlist : ListAt m' l s xs' (epre ++ ⟨level, takenPtr m size, size⟩ :: epost)) :
    Seat m' i l s xs' (epre ++ ⟨level, takenPtr m size, size⟩ :: epost) := by
  refine ⟨hlist, h.seat.tag, h.seat.quiet, h.seat.noSleeper, fun x hx => ?_⟩
  have hlevel : y.level = level := by simpa [hasLevel] using hy
  rcases List.mem_append.mp hx with hpre | hrest
  · exact h.seat.inLevel x (by simp [hpre])
  · rcases List.mem_cons.mp hrest with rfl | hpost
    · exact hlevel ▸ h.seat.inLevel y (by simp)
    · exact h.seat.inLevel x (by simp [hpost])

/-- **Every call keeps the shape of memory.** -/
theorem Change.formed (hc : Change env c m P a m' P') (h : Formed m P) : Formed m' P' := by
  cases hc with
  | refused _ hsame => exact h.extends (hsame.extends h.fresh) hsame.slots
  | unsent => exact h.taken _ _
  | @unstored level size bytes i l s es a m' hsend hrep _ =>
    have h₁ := h.taken size bytes
    obtain ⟨hext, hslots⟩ := hrep.extends h₁.fresh
    exact h₁.extends hext hslots
  | @stored level size bytes i l s epre epost y xs' a m' hsend _ _ hy hstep _ hlist =>
    have h₁ := h.taken size bytes
    have hi : (takenMem m size bytes).tagServices i = some l := by
      rw [takenMem_tagServices]
      exact hsend.served.slot
    refine h₁.listStep hi hsend.seat hstep (hsend.seat_stored hy hlist) fun b hb => ?_
    rcases filterMap_message_eq hb with hnew | hold
    · have htaken : b = m.brk ∧ ((takenMem m size bytes).buffers b).isSome := takenPtr_buffer hnew
      obtain ⟨rfl, hbuf⟩ := htaken
      exact ⟨hbuf, fun j _ hj => Nat.lt_irrefl _ (h.bufs_lt_brk hj)⟩
    · have hmem := hold y
      rw [hsend.seat.bufs_eq (h₁.seat i l hi)] at hmem
      exact ⟨h₁.stored i b hmem, fun j hji hj => h.owned j i hji b hj hmem⟩
  | opened => exact h
  | touched _ hserved ht => exact h.touched hserved.slot hserved.record ht
  | created _ _ hl hkey hs hext hslots hxs hseat =>
    exact h.add hext hslots hl hxs hseat hs hkey
  | removed _ _ hserved hext hslots =>
    have h₁ := h.extends hext hslots
    exact h₁.remove (by rw [hslots]; exact hserved.slot) _

/-! ## What is closed to the caller -/

/-- Slot `i` still leads to `l`, and neither the record nor an element of its list nor a buffer of
its messages has changed. -/
structure Intact (m : Mem) (P : Parts) (m' : Mem) (P' : Parts) (i : Fin minSysTagServices)
    (l : Addr) : Prop where
  slot : m'.tagServices i = some l
  record : m'.services l = m.services l
  cells : P'.cells i = P.cells i
  bufs : P'.bufs i = P.bufs i
  elements : ∀ a ∈ P.cells i, m'.elements a = m.elements a
  buffers : ∀ b ∈ P.bufs i, m'.buffers b = m.buffers b

theorem Intact.trans {m'' : Mem} {P'' : Parts} (h : Intact m P m' P' i l)
    (h' : Intact m' P' m'' P'' i l) : Intact m P m'' P'' i l where
  slot := h'.slot
  record := h'.record.trans h.record
  cells := h'.cells.trans h.cells
  bufs := h'.bufs.trans h.bufs
  elements := fun a ha => (h'.elements a (h.cells.symm ▸ ha)).trans (h.elements a ha)
  buffers := fun b hb => (h'.buffers b (h.bufs.symm ▸ hb)).trans (h.buffers b hb)

/-- Fresh memory is not that of a service. -/
theorem Formed.intact_of_extends (h : Formed m P) (hext : Extends m m')
    (hslots : m'.tagServices = m.tagServices) (hi : m.tagServices i = some l) :
    Intact m P m' P i l where
  slot := hslots ▸ hi
  record := by
    obtain ⟨s, hs, _⟩ := h.record hi
    exact hext.services l (h.fresh.service_lt hs)
  cells := rfl
  bufs := rfl
  elements := fun a ha => hext.elements a (h.cells_lt_brk ha)
  buffers := fun b hb => hext.buffers b (h.bufs_lt_brk hb)

/-- The caller is not the one the service in slot `j` serves, so it was served at another slot. -/
theorem Served.ne {l' : Addr} {s' : TAGService} (h : Served env c m i l s)
    (hj : m.tagServices j = some l') (hs' : m.services l' = some s')
    (hclosed : validServiceOperation env.caller s' = false) : j ≠ i := by
  rintro rfl
  obtain rfl := Option.some.inj (h.slot.symm.trans hj)
  obtain rfl := Option.some.inj (h.record.symm.trans hs')
  simp [h.valid] at hclosed

/-- **A call does not touch what is closed to its caller.** -/
theorem Change.closed (hc : Change env c m P a m' P') (h : Formed m P)
    (hj : m.tagServices j = some l) (hs : m.services l = some s)
    (hclosed : validServiceOperation env.caller s = false) : Intact m P m' P' j l := by
  cases hc with
  | refused _ hsame => exact h.intact_of_extends (hsame.extends h.fresh) hsame.slots hj
  | unsent => exact h.intact_of_extends (takenMem_extends h.fresh) takenMem_tagServices hj
  | @unstored level size bytes i l' s' es a m' hsend hrep _ =>
    have h₁ := h.taken size bytes
    obtain ⟨hext, hslots⟩ := hrep.extends h₁.fresh
    exact h.intact_of_extends ((takenMem_extends h.fresh).trans hext)
      (hslots.trans takenMem_tagServices) hj
  | @stored level size bytes i l' s' epre epost y xs' a m' hsend _ _ hy hstep _ hlist =>
    have hji := hsend.served.ne hj hs hclosed
    have h₁ := h.taken size bytes
    refine (h.intact_of_extends (takenMem_extends h.fresh) takenMem_tagServices hj).trans
      ⟨?_, ?_, ?_, ?_, fun a ha => ?_, fun b _ => by rw [hstep.buffers]⟩
    · rw [hstep.slots, takenMem_tagServices]
      exact hj
    · exact hstep.services l (h.slot_ne hsend.served.slot hj hji)
    · simp [Parts.set, hji]
    · simp [Parts.set, hji]
    · exact hstep.elements a (h₁.cells_lt_brk ha) (h₁.apart j i hji a ha)
  | opened => exact ⟨hj, rfl, rfl, rfl, fun _ _ => rfl, fun _ _ => rfl⟩
  | touched _ hserved ht =>
    have hne := h.slot_ne hserved.slot hj (hserved.ne hj hs hclosed)
    obtain rfl := ht.mem
    exact ⟨hj, by simp [hne], rfl, rfl, fun _ _ => rfl, fun _ _ => rfl⟩
  | @created key permission i l' s' xs a m' _ hfree _ _ _ hext hslots _ _ _ =>
    have hji : j ≠ i := by
      rintro rfl
      simp [hfree] at hj
    refine ⟨by simp [hslots, hji, hj], hext.services l (h.fresh.service_lt hs), ?_, ?_,
      fun a ha => hext.elements a (h.cells_lt_brk ha),
      fun b hb => hext.buffers b (h.bufs_lt_brk hb)⟩
    · simp [Parts.set, hji]
    · simp [Parts.set, hji]
  | @removed tag i l' s' a m₁ count _ _ hserved hext hslots =>
    have hji := hserved.ne hj hs hclosed
    have hne := h.slot_ne hserved.slot hj hji
    have h₁ := h.intact_of_extends hext hslots hj
    refine ⟨by simp [hji, h₁.slot], by simp [hne, h₁.record], ?_, ?_, h₁.elements, h₁.buffers⟩
    · simp [Parts.set, hji]
    · simp [Parts.set, hji]

/-- The call that names a service by its tag is served at its slot, if at all. -/
theorem Formed.slot_of_names {l' : Addr} {s' : TAGService} (h : Formed m P)
    (hi : m.tagServices i = some l) (hs : m.services l = some s)
    (hj : m.tagServices j = some l') (hs' : m.services l' = some s') (htag : s.tag = s'.tag) :
    i = j := by
  obtain ⟨s₁, hs₁, htag₁⟩ := h.record hi
  obtain ⟨s₂, hs₂, htag₂⟩ := h.record hj
  obtain rfl := Option.some.inj (hs.symm.trans hs₁)
  obtain rfl := Option.some.inj (hs'.symm.trans hs₂)
  exact ofNat_slot_inj (htag₁.symm.trans (htag.trans htag₂))

/-- **A call that names what is closed to its caller is answered with an error.** -/
theorem Change.refuses (hc : Change env c m P a m' P') (h : Formed m P)
    (hj : m.tagServices j = some l) (hs : m.services l = some s)
    (hclosed : validServiceOperation env.caller s = false) (hnames : Names s c) : a.ret < 0 := by
  -- the service that was served is another one, with another tag
  have hother : ∀ {i l' s'}, Served env c m i l' s' → s'.tag = s.tag → False :=
    fun hserved htag => hserved.ne hj hs hclosed
      (h.slot_of_names hserved.slot hserved.record hj hs htag).symm
  cases hc with
  | refused hret | unsent _ _ _ _ hret | unstored _ _ hret => exact hret
  | stored hsend =>
    obtain ⟨tag, user, rfl⟩ := hsend.call
    exact (hother hsend.served (Eq.trans hsend.served.names (Eq.symm hnames))).elim
  | opened hcall hpub hserved =>
    subst hcall
    have hkey := (hserved.names.2.symm.trans hnames.2)
    rw [hserved.names.2] at hpub
    exact absurd (h.unique j _ _ (keyAt_eq hj hs) (hkey ▸ keyAt_eq hserved.slot hserved.record)
      (hkey ▸ hpub)) (hserved.ne hj hs hclosed)
  | touched hcall hserved =>
    refine (hother hserved ?_).elim
    cases c with
    | tagGet key command permission => exact absurd rfl (hcall key command permission)
    | tagSend | tagReceive | tagCtl => exact Eq.trans hserved.names (Eq.symm hnames)
  | created hcall =>
    subst hcall
    exact absurd hnames.1 (by decide)
  | removed hcall _ hserved =>
    subst hcall
    exact (hother hserved (Eq.trans hserved.names (Eq.symm hnames))).elim

end TagMessaging.Serial
