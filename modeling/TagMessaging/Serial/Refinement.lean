/-
# TagMessaging.Serial.Refinement -- each call does to the memory what it does to the registry

One specification for each call, over a memory that holds a registry: the answer is the registry's
and the memory holds the registry's next state. The calls stop only when an allocation fails, and
`tag_receive` also when a negative level sends it outside its arrays.
-/
import TagMessaging.Serial.Representation

namespace TagMessaging.Serial

open TagMessaging.Lib.Effect TagMessaging.Lib.FirstMatch TagMessaging.Model

variable {m m' : Mem} {R : Registry} {cells : Fin minSysTagServices → List Addr}
variable {i : Fin minSysTagServices} {room : Room} {l : Addr} {xs : List Addr}
variable {s : TAGService} {env : Env} {w : World} {key tag level : Int32} {E : Fault → Prop}

/-! ## The searches -/

theorem wp_searchTAGServiceWithTag {Q : Ptr → World → Prop} (h : RepAt m R cells) (hm : w.mem = m)
    (hnone : R.roomOf tag = none → Q none w)
    (hsome : ∀ i room l s, R.roomOf tag = some (i, room) → R i = some room →
      m.tagServices i = some l → m.services l = some s → Describes room i s →
      SlotAt m room i l (cells i) → Q (some l) w) :
    wp (searchTAGServiceWithTag tag) env w Q E := by
  subst hm
  refine findService_spec (fun i a hi hnone => ?_) ?_
  · obtain ⟨_, s, _, hs, _⟩ := h.intact hi
    simp [hs] at hnone
  · change Q ((findSlot _ w.mem).bind _) w
    rw [h.findSlot_tag]
    cases hroom : R.roomOf tag with
    | none => exact hnone hroom
    | some r =>
        obtain ⟨i, room⟩ := r
        have hi : R i = some room := (Registry.roomOf_eq_some hroom).2
        obtain ⟨l, hl, hslot⟩ := h.slot i room hi
        obtain ⟨s, hs, hd⟩ := hslot.record
        simpa [hl] using hsome i room l s hroom hi hl hs hd hslot

theorem wp_searchTAGServiceWithKey {Q : Ptr → World → Prop} (h : RepAt m R cells) (hm : w.mem = m)
    (hnone : R.tagOfKey key = none → Q none w)
    (hsome : ∀ i room l s, R.tagOfKey key = some i → R i = some room →
      m.tagServices i = some l → m.services l = some s → Describes room i s →
      Q (some l) w) :
    wp (searchTAGServiceWithKey key) env w Q E := by
  subst hm
  refine findService_spec (fun i a hi hnone => ?_) ?_
  · obtain ⟨_, s, _, hs, _⟩ := h.intact hi
    simp [hs] at hnone
  · change Q ((findSlot _ w.mem).bind _) w
    rw [h.findSlot_key]
    cases htag : R.tagOfKey key with
    | none => exact hnone htag
    | some i =>
        obtain ⟨room, hi, _⟩ := (Option.any_eq_true _ _).mp (by simpa using List.find?_some htag)
        obtain ⟨l, hl, hslot⟩ := h.slot i room hi
        obtain ⟨s, hs, hd⟩ := hslot.record
        simpa [hl] using hsome i room l s htag hi hl hs hd

/-! ## `tag_receive` -/

/-- The retries of the copy loop deliver the first bytes, in order. -/
theorem copyToUser_eq (message : List UInt8) (bSize : Nat) (notSent : List Nat) (offset : Nat) :
    copyToUser message bSize notSent offset = (message.drop offset).take (bSize - offset) := by
  induction notSent generalizing offset with
  | nil => rfl
  | cons left rest ih =>
      unfold copyToUser
      by_cases hmore : bSize - offset > 0
      · rw [if_pos hmore]
        set sent := (bSize - offset) - min left (bSize - offset) with hsent
        show (message.drop offset).take sent ++ copyToUser message bSize rest (offset + sent) = _
        have hsum : bSize - offset = sent + (bSize - (offset + sent)) := by omega
        rw [ih, hsum, List.take_add, List.drop_drop]
      · rw [if_neg hmore]
        simp [Nat.eq_zero_of_not_pos hmore]

/-- A `tag_receive` that goes on to index its arrays with a negative level. -/
def Strays (m : Mem) (env : Env) : Call → Prop
  | .tagReceive tag level bufferNull size =>
      env.moduleLive = true ∧ size ≤ maxMessageSize ∧ bufferNull = false ∧ level.toInt < 0 ∧
        ∃ i s, findSlot (fun s => s.tag = tag.toUInt32) m = some i ∧ slotService m i = some s ∧
          validServiceOperation env.caller s = true
  | _ => False

/-- The message of a level is found in the list and read from its buffer. -/
theorem wp_loadMessage {x : Entry} {bytes : List UInt8} {bSize : Nat} {e : Element}
    {Q : List UInt8 → World → Prop} (hx : Holds w.mem x bytes) (he : e.entry = x)
    (hle : bSize ≤ bytes.length) (hQ : ∀ bs, bs.take bSize = bytes.take bSize → Q bs w) :
    wp (loadMessage e.message bSize) env w Q E := by
  subst he
  unfold loadMessage
  by_cases hzero : bSize = 0
  · rw [if_pos hzero]
    exact hQ [] (by simp [hzero])
  · rw [if_neg hzero]
    have hne : bytes ≠ [] := by
      rintro rfl
      simp at hle
      exact hzero hle
    obtain ⟨a, ha, hab⟩ := hx.2 hne
    have hmsg : e.message = some a := ha
    rw [hmsg]
    simpa [hab] using hQ bytes rfl

theorem tagReceive_refines {bufferNull : Bool} {size : Nat} (h : RepAt w.mem R cells)
    (hstray : ¬ Strays w.mem env (.tagReceive tag level bufferNull size)) :
    wp (tagReceive tag level bufferNull size) env w (fun r w' =>
      { ret := r.1, bytes := r.2 } = R.receive env tag level bufferNull size ∧
        Rep w'.mem R) E := by
  have hrep : Rep w.mem R := ⟨cells, h⟩
  simp only [tagReceive, wp_bind, wp_ask, wp_tryModuleGet]
  cases hlive : env.moduleLive with
  | false => exact ⟨by simp [Registry.receive, hlive, Answer.ofRet], hrep⟩
  | true =>
    by_cases hargs : size > maxMessageSize ∨ bufferNull = true
    · rw [if_neg (by simp), if_pos hargs]
      exact ⟨by simp [Registry.receive, hlive, hargs, Answer.ofRet], hrep⟩
    · rw [if_neg (by simp), if_neg hargs]
      simp only [wp_bind, wp_searchLockIrqsave]
      refine wp_searchTAGServiceWithTag h rfl (fun hnone => ?_)
        fun i room l s hroom hi hl hs hd hslot => ?_
      · exact ⟨by simp [Registry.receive, hlive, hargs, hnone, Answer.ofRet], hrep⟩
      · simp only [wp_bind, wp_searchUnlockIrqrestore]
        refine wp_loadService_of hs ?_
        have hvalid := hd.validServiceOperation env.caller
          (h.sound.permission i room hi)
        cases hclosed : room.closedTo env.caller with
        | true =>
          rw [if_pos (by simp [hvalid, hclosed])]
          exact ⟨by simp [Registry.receive, hlive, hargs, hroom, hclosed, Answer.ofRet], hrep⟩
        | false =>
          rw [if_neg (by simp [hvalid, hclosed])]
          by_cases hdeep : level.toInt ≥ levelDeep
          · rw [if_pos (levelTooDeep_iff.mpr hdeep)]
            have hrange : ¬ (0 ≤ level.toInt ∧ level.toInt < levelDeep) := by omega
            refine ⟨?_, hrep⟩
            simp [Registry.receive, hlive, hargs, hroom, hclosed, hrange, Answer.ofRet]
          · rw [if_neg (mt levelTooDeep_iff.mp hdeep)]
            simp only [not_or, Bool.not_eq_true] at hargs
            -- a negative level passes the check: the hypothesis excludes it
            have hneg : ¬ level.toInt < 0 := fun hneg => by
              refine hstray ⟨hlive, Nat.le_of_not_gt hargs.1, hargs.2, hneg, i, s, ?_, ?_, ?_⟩
              · rw [h.findSlot_tag, hroom]
                rfl
              · simp [slotService, hl, hs]
              · simp [hvalid, hclosed]
            have hrange : 0 ≤ level.toInt ∧ level.toInt < levelDeep := by omega
            obtain ⟨f, hlist, hf⟩ := hslot.list hs
            refine wp_seq (rcuListSearch_spec hlist hs hd.quiet h.fresh hrange) fun p w' => ?_
            rintro ⟨⟨s', ht⟩, hfound⟩
            have hrep' : Rep w'.mem R := ⟨cells, h.touched hi hl hs ht⟩
            cases hend : env.waitEnd with
            | signal =>
              simp only [hend] at hfound
              subst hfound
              refine ⟨?_, hrep'⟩
              simp [Registry.receive, hlive, hargs, hroom, hclosed, hrange, hend, Answer.ofRet]
            | woken =>
              set j : Fin levelDeep := ⟨level.toInt.toNat, by omega⟩ with hj
              have hval : level.toInt = j := by rw [hj]; exact (Int.toNat_of_nonneg hrange.1).symm
              have hfirst : (levelOrder.map f).find? (hasLevel level) = some (f j) :=
                find?_map_eq (mem_levelOrder j) fun k _ => hasLevel_iff (hf k).1 hval
              simp only [hend, hfirst] at hfound
              obtain ⟨a, _, rfl, hentry⟩ := hfound
              obtain ⟨e, he, hx⟩ := Option.map_eq_some_iff.mp hentry
              have helem : derefElement w'.mem.elements (some a) = .ok e :=
                derefElement_some (by rw [ht.mem]; exact he)
              obtain ⟨hsize, hbytes⟩ : Holds w'.mem (f j) (room.message j) := by
                rw [ht.mem]
                exact (hf j).2
              have hesize : e.size = (room.message j).length := by
                rw [← hsize, ← hx]
                rfl
              simp only [wp_bind, wp_readMem, id, helem, wp_lift_ok]
              refine wp_loadMessage ⟨hsize, hbytes⟩ hx (by omega) fun bs hbs => ?_
              refine ⟨?_, hrep'⟩
              -- the copy ends where the buffer or the message does
              have hcopy : copyToUser bs (min size e.size) env.notSent 0 =
                  (room.message j).take size := by
                rw [copyToUser_eq, List.drop_zero, Nat.sub_zero, hbs, hesize, List.take_eq_take_iff]
                omega
              rw [hcopy]
              simp only [Registry.receive, hlive, hargs, hroom, hclosed, hrange, hend, hesize]
              rw [← List.length_take]
              rfl

/-! ## `tag_send` -/

/-- Memory after the message was taken over from user space into a fresh buffer, if it has any
bytes. -/
structure Taken (m m' : Mem) (buf : Ptr) : Prop where
  extend : Extends m m'
  slots : m'.tagServices = m.tagServices
  count : m'.serviceCount = m.serviceCount
  isFresh : ∀ a, buf = some a → m.brk ≤ a

/-- `vzalloc` and `copy_from_user`: all bytes are there, or some were left. -/
theorem wp_take (level : Int32) {user : Nat → UInt8} {size : Nat} {Q : Ptr → Nat → World → Prop}
    (hf : FreshAbove w.mem) (hE : ¬ AllocOk env → E .nullPointer)
    (hQ : ∀ buf w', Taken w.mem w'.mem buf →
      (min env.notCopied size = 0 →
        Holds w'.mem ⟨level, buf, size⟩ ((List.range size).map user)) →
      Q buf (min env.notCopied size) w') :
    wp (vzalloc size) env w (fun buf w₁ =>
      wp (copyFromUser buf user size) env w₁ (Q buf) E) E := by
  have hfresh := withoutBlock_fresh hf
  simp only [vzalloc, wp_bind, wp_ask, wp_readMem, wp_emit]
  by_cases hnone : size = 0 ∨ env.kmallocFails w.mem.brk = true
  · rw [if_pos hnone]
    simp only [copyFromUser, wp_bind, wp_modifyMem, wp_pure, wp_ask, wp_emit]
    by_cases hzero : size = 0
    · rw [if_pos hzero]
      have htaken : Taken w.mem (withoutBlock w.mem) none :=
        ⟨⟨fun _ _ => rfl, fun _ _ => rfl, fun _ _ => rfl, Nat.le_succ _, hfresh⟩, rfl, rfl,
          fun _ h => by cases h⟩
      have hq := hQ none ⟨withoutBlock w.mem, w.irq, w.flags,
        w.trace ++ [.maySleep] ++ [.maySleep]⟩ htaken fun _ => ⟨by simp, by simp [hzero]⟩
      rwa [hzero, Nat.min_zero] at hq
    · rw [if_neg hzero]
      have hfail : env.kmallocFails w.mem.brk = true := hnone.resolve_left hzero
      exact hE fun hok => by simp [hok w.mem.brk] at hfail
  · rw [if_neg hnone]
    simp only [copyFromUser, wp_bind, wp_modifyMem, wp_pure, wp_ask, wp_emit]
    refine hQ (some w.mem.brk) _ ⟨⟨fun _ _ => rfl, fun _ _ => rfl, ?_, Nat.le_succ _, ?_⟩, rfl,
      rfl, ?_⟩ fun hall => ⟨by simp, fun _ => ⟨_, rfl, ?_⟩⟩
    · intro a ha
      simp [Nat.ne_of_lt ha]
    · intro a ha
      have hlt : w.mem.brk < a := ha
      simpa [Nat.ne_of_gt hlt] using hf a (Nat.le_of_lt hlt)
    · rintro a ⟨rfl⟩
      exact le_refl _
    · simp [hall]

/-- Freeing the buffer again leaves fresh memory behind. -/
theorem Taken.vfree {buf : Ptr} {Q : Unit → World → Prop} (h : Taken m w.mem buf)
    (hQ : ∀ w', Taken m w'.mem buf → Q () w') : wp (vfree buf) env w Q E := by
  cases buf with
  | none => exact hQ w h
  | some a =>
      have hge := h.isFresh a rfl
      refine hQ _ ⟨⟨h.extend.services, h.extend.elements, fun b hb => ?_, h.extend.brk, ?_⟩,
        h.slots, h.count, h.isFresh⟩
      · have hne : b ≠ a := fun hba => Nat.not_lt.mpr hge (hba ▸ hb)
        simpa [hne] using h.extend.buffers b hb
      · intro b hb
        have hold := h.extend.fresh b hb
        refine ⟨hold.1, hold.2.1, ?_⟩
        by_cases hba : b = a
        · simp [hba]
        · simpa [hba] using hold.2.2

/-- `rcu_list_replace` stores the message at its level, if the level is one of the 32 and there is
memory for the element. -/
theorem rcuListReplace_refines {buf : Ptr} {size : Nat} {bytes : List UInt8}
    (h : RepAt w.mem R cells) (hi : R i = some room) (hl : w.mem.tagServices i = some l)
    (hbytes : Holds w.mem ⟨level, buf, size⟩ bytes) :
    wp (rcuListReplace l level buf size) env w (fun r w' =>
      w'.mem.tagServices = w.mem.tagServices ∧
      ((∃ j : Fin levelDeep, level.toInt = j ∧ r = 1 ∧ Rep w'.mem (R.put i room j bytes)) ∨
        r = 0 ∧ Rep w'.mem R ∧
          (AllocOk env → ¬ (0 ≤ level.toInt ∧ level.toInt < levelDeep)))) E := by
  obtain ⟨a, ha, hslot⟩ := h.slot i room hi
  obtain rfl := Option.some.inj (hl.symm.trans ha)
  obtain ⟨s, hs, hd⟩ := hslot.record
  obtain ⟨f, hlist, hf⟩ := hslot.list hs
  have hat : ListAt w.mem l s (cells i) (levelOrder.map f) :=
    ⟨s.levels.head, s.levels.epoch, hs, hlist⟩
  refine wp_imp (rcuListReplace_spec hat hd.quiet h.fresh) fun r w' => ?_
  rintro ⟨xs', hstep, hout⟩
  refine ⟨hstep.slots, ?_⟩
  have hkept : ∀ x bs, Holds w.mem x bs → Holds w'.mem x bs := fun x bs hx => by
    rw [Holds, hstep.buffers]
    exact hx
  by_cases hhit : env.kmallocFails w.mem.brk = false ∧
      ∃ x ∈ levelOrder.map f, hasLevel level x = true
  · -- the element of the level is replaced, and of this level only
    rw [if_pos hhit] at hout
    obtain ⟨rfl, hat'⟩ := hout
    obtain ⟨_, x, hx, hlevel⟩ := hhit
    obtain ⟨j, _, rfl⟩ := List.mem_map.mp hx
    have hj : level.toInt = j := by
      simp only [hasLevel, (hf j).1, decide_eq_true_iff] at hlevel
      exact eq_ofNat_level_iff.mp hlevel.symm
    rw [replaceFirst_map levelOrder_nodup (mem_levelOrder j)
      fun k _ => hasLevel_iff (hf k).1 hj] at hat'
    refine Or.inl ⟨j, hj, rfl, Function.update cells i xs', ?_⟩
    refine h.listStep hi hl hstep ⟨s, _,
      ⟨hd.key, hd.tag, hd.uidCreator, hd.perm, hd.quiet, hd.noSleeper⟩, hat', fun k => ?_⟩ rfl rfl
    by_cases hkj : k = j
    · subst hkj
      simpa [eq_ofNat_level_iff, hj] using hkept _ _ hbytes
    · simpa [hkj] using ⟨(hf k).1, hkept _ _ (hf k).2⟩
  · -- the list has an element for every level inside the range
    rw [if_neg hhit] at hout
    obtain ⟨rfl, hat'⟩ := hout
    refine Or.inr ⟨rfl, ⟨Function.update cells i xs', ?_⟩, fun hok hrange => hhit ?_⟩
    · have hrep := h.listStep hi hl hstep ⟨s, f, hd, hat', fun k =>
        ⟨(hf k).1, hkept _ _ (hf k).2⟩⟩ rfl rfl
      rwa [← hi, Function.update_eq_self] at hrep
    · set j : Fin levelDeep := ⟨level.toInt.toNat, by omega⟩ with hjdef
      have hj : level.toInt = j := by rw [hjdef]; exact (Int.toNat_of_nonneg hrange.1).symm
      exact ⟨hok _, f j, List.mem_map_of_mem (mem_levelOrder j),
        (hasLevel_iff (hf j).1 hj).mpr rfl⟩

/-- The answer of a `tag_send` that found no memory for the list element. -/
def Exhausted (env : Env) (R : Registry) (r : Int) (m' : Mem) : Prop :=
  ¬ AllocOk env ∧ r = Errno.EBADMSG.neg ∧ Rep m' R

theorem tagSend_refines {buffer : Option (Nat → UInt8)} {size : Nat} (h : RepAt w.mem R cells)
    (hE : ¬ AllocOk env → E .nullPointer) :
    wp (tagSend tag level buffer size) env w (fun r w' =>
      (r = (R.send env tag level buffer size).1 ∧
        Rep w'.mem (R.send env tag level buffer size).2) ∨ Exhausted env R r w'.mem) E := by
  have hrep : Rep w.mem R := ⟨cells, h⟩
  simp only [tagSend, wp_bind, wp_ask, wp_tryModuleGet]
  cases hlive : env.moduleLive with
  | false => exact Or.inl (by simpa [Registry.send, hlive] using hrep)
  | true =>
    rw [if_neg (by simp)]
    by_cases hsize : size > maxMessageSize
    · rw [if_pos hsize]
      refine Or.inl ?_
      cases buffer <;> simpa [Registry.send, hlive, hsize] using hrep
    · rw [if_neg hsize]
      cases buffer with
      | none => exact Or.inl (by simpa [Registry.send, hlive] using hrep)
      | some user =>
        simp only [wp_bind]
        refine wp_take level h.fresh hE fun buf w₁ htaken hholds => ?_
        have h₁ : RepAt w₁.mem R cells := h.extends htaken.extend htaken.slots htaken.count
        by_cases hleft : min env.notCopied size ≠ 0
        · rw [if_pos hleft]
          exact Or.inl (by simpa [Registry.send, hlive, hsize, hleft] using ⟨cells, h₁⟩)
        · rw [if_neg hleft]
          simp only [wp_bind, wp_searchLockIrqsave]
          refine wp_searchTAGServiceWithTag h₁ rfl (fun hnone => ?_)
            fun i room l s hroom hi hl hs hd hslot => ?_
          · exact Or.inl (by simpa [Registry.send, hlive, hsize, hleft, hnone] using ⟨cells, h₁⟩)
          · simp only [wp_bind, wp_searchUnlockIrqrestore]
            refine wp_loadService_of hs ?_
            have hvalid := hd.validServiceOperation env.caller
              (h.sound.permission i room hi)
            cases hclosed : room.closedTo env.caller with
            | true =>
              -- the buffer is freed again, and the rooms are as they were
              rw [if_pos (by simp [hvalid, hclosed]), wp_bind]
              refine Taken.vfree htaken fun w₂ htaken₂ => Or.inl ?_
              have h₂ := h.extends htaken₂.extend htaken₂.slots htaken₂.count
              simpa [Registry.send, hlive, hsize, hleft, hroom, hclosed] using ⟨cells, h₂⟩
            | false =>
              rw [if_neg (by simp [hvalid, hclosed])]
              by_cases hdeep : level.toInt ≥ levelDeep
              · rw [if_pos (levelTooDeep_iff.mpr hdeep), wp_bind]
                refine Taken.vfree htaken fun w₂ htaken₂ => Or.inl ?_
                have h₂ := h.extends htaken₂.extend htaken₂.slots htaken₂.count
                simpa [Registry.send, hlive, hsize, hleft, hroom, hclosed, hdeep] using ⟨cells, h₂⟩
              · rw [if_neg (mt levelTooDeep_iff.mp hdeep)]
                refine wp_seq (rcuListReplace_refines h₁ hi hl (hholds (not_not.mp hleft)))
                  fun r w₂ => ?_
                rintro ⟨hslots, ⟨j, hj, rfl, hput⟩ | ⟨rfl, hkept, hmiss⟩⟩
                · -- the message is stored; nobody is in the queue of the level
                  obtain ⟨cells₂, h₂⟩ := hput
                  obtain ⟨room₂, s₂, _, hs₂, hd₂, _⟩ := h₂.intact (hslots ▸ hl)
                  have hrange : 0 ≤ level.toInt ∧ level.toInt < levelDeep := by
                    have := j.isLt
                    omega
                  have hindex : levelIndex level = pure ⟨level.toInt.toNat, by omega⟩ :=
                    dif_pos hrange
                  have hjv : j = ⟨level.toInt.toNat, by omega⟩ := Fin.ext (by simp [hj])
                  rw [hjv] at h₂
                  rw [if_neg (by simp), hindex, wp_bind, wp_pure, wp_bind]
                  refine wp_loadList_of hs₂ ?_
                  rw [if_pos (hd₂.noSleeper _)]
                  refine Or.inl ?_
                  simpa [Registry.send, hlive, hsize, hleft, hroom, hclosed, hdeep, hrange] using
                    ⟨cells₂, h₂⟩
                · -- no element of this level, or no memory for the new one
                  rw [if_pos (by simp)]
                  by_cases hok : AllocOk env
                  · have hrange := hmiss hok
                    refine Or.inl ?_
                    simpa [Registry.send, hlive, hsize, hleft, hroom, hclosed, hdeep, hrange] using
                      hkept
                  · exact Or.inr ⟨hok, rfl, hkept⟩

/-! ## `tag_get` -/

/-- The counter reads 256 when every tag is taken. -/
theorem serviceCount_ge_iff (h : RepAt m R cells) :
    m.serviceCount ≥ UInt32.ofNat minSysTagServices ↔ R.freeTag = none := by
  have hle := Registry.live_le (R := R)
  have hbound : (UInt32.ofNat minSysTagServices).toNat = minSysTagServices := by decide
  have hcount := h.count
  rw [ge_iff_le, UInt32.le_iff_toNat_le, hbound, Registry.freeTag_eq_none_iff_live]
  omega

/-- `new_TAG_Service` makes the room at the smallest free tag; its caller adds 1 to the counter. -/
theorem newTAGService_refines {permission : Int32} (h : RepAt w.mem R cells)
    (hfree : R.freeTag = some i) (hok : AllocOk env)
    (hperm : permission = openRoom ∨ permission = privateRoom) (hkey : key ≠ 0)
    (hnew : key ≠ tagIpcPrivate → ∀ j r, R j = some r → r.key ≠ key) :
    wp (newTAGService key env.caller.tgid permission) env w (fun p w' =>
      ∃ l s, p = some l ∧ w'.mem.services l = some s ∧ s.tag = UInt32.ofNat i ∧
        Rep { w'.mem with serviceCount := w'.mem.serviceCount + 1 }
          (Function.update R i (some ⟨key, env.caller.tgid, permission, fun _ => []⟩))) E := by
  rw [wp_newTAGService, h.freeSlot, hfree]
  refine wp_imp (fillSlot_spec h.fresh fun hnot => absurd hok hnot) fun p w' => ?_
  rintro ⟨rfl, xs, es, hext, hslots, hcount, hxs, hlist, hes⟩
  rw [hes hok] at hlist
  obtain ⟨head, epoch, hs, hrep⟩ := hlist
  refine ⟨w.mem.brk, _, rfl, hs, rfl, Function.update cells i xs, ?_⟩
  have hslot : SlotAt { w'.mem with serviceCount := w'.mem.serviceCount + 1 }
      ⟨key, env.caller.tgid, permission, fun _ => []⟩ i w.mem.brk xs :=
    ⟨_, emptyEntry, ⟨rfl, rfl, rfl, rfl, fun _ => le_refl _, fun _ => rfl⟩,
      ⟨head, epoch, hs, hrep.congr fun _ _ => rfl⟩, fun j => ⟨rfl, rfl, fun hne => absurd rfl hne⟩⟩
  refine h.add (Registry.freeTag_isNone hfree) (hext.congr rfl rfl rfl rfl) hslots ?_ hslot hxs ?_
  · rw [← hcount]
  · exact h.sound.add hperm hkey hnew

theorem tagGetCreate_refines {permission : Int32} (h : RepAt w.mem R cells) (hok : AllocOk env)
    (hperm : permission = openRoom ∨ permission = privateRoom) (hkey : key ≠ 0) :
    wp (tagGetCreate key permission) env w (fun r w' =>
      r = (R.create env key permission).1 ∧ Rep w'.mem (R.create env key permission).2) E := by
  have hrep : Rep w.mem R := ⟨cells, h⟩
  simp only [tagGetCreate, wp_bind, wp_ask, wp_readMem]
  cases hfree : R.freeTag with
  | none =>
    rw [if_pos ((serviceCount_ge_iff h).mpr hfree)]
    simpa [Registry.create, hfree] using hrep
  | some i =>
    rw [if_neg (fun hge => by simp [(serviceCount_ge_iff h).mp hge] at hfree)]
    by_cases hpriv : key = tagIpcPrivate
    · rw [if_pos hpriv]
      simp only [wp_bind, wp_searchLockIrqsave]
      refine wp_imp (newTAGService_refines h hfree hok hperm hkey fun hne => absurd hpriv hne)
        fun p w' => ?_
      rintro ⟨l, s, rfl, hs, htag, hnew⟩
      simp only [wp_bind, wp_searchUnlockIrqrestore, addServiceCount, wp_modifyMem, wp_modulePut]
      refine wp_loadService_of hs ?_
      rw [htag, tag_toInt]
      simpa [Registry.create, hfree, hpriv] using hnew
    · rw [if_neg hpriv]
      simp only [wp_bind, wp_searchLockIrqsave]
      refine wp_searchTAGServiceWithKey h rfl (fun hnone => ?_) fun k room l s hfound _ _ _ _ => ?_
      · simp only [wp_bind]
        have habsent : key ≠ tagIpcPrivate → ∀ j r, R j = some r → r.key ≠ key := by
          intro _ j r hj heq
          have hno := List.find?_eq_none.mp hnone j (List.mem_finRange j)
          simp [hj, heq] at hno
        refine wp_imp (newTAGService_refines h hfree hok hperm hkey habsent) fun p w' => ?_
        rintro ⟨l, s, rfl, hs, htag, hnew⟩
        simp only [wp_bind, wp_searchUnlockIrqrestore, addServiceCount, wp_modifyMem, wp_modulePut]
        refine wp_loadService_of hs ?_
        rw [htag, tag_toInt]
        simpa [Registry.create, hfree, hpriv, hnone] using hnew
      · simpa [Registry.create, hfree, hpriv, hfound] using hrep

theorem tagGetOpen_refines (h : RepAt w.mem R cells) :
    wp (tagGetOpen key) env w (fun r w' => r = R.openKey env key ∧ Rep w'.mem R) E := by
  have hrep : Rep w.mem R := ⟨cells, h⟩
  simp only [tagGetOpen, wp_bind, wp_ask]
  by_cases hpriv : key = tagIpcPrivate
  · rw [if_pos hpriv]
    simpa [Registry.openKey, hpriv] using hrep
  · rw [if_neg hpriv]
    simp only [wp_bind, wp_searchLockIrqsave]
    refine wp_searchTAGServiceWithKey h rfl (fun hnone => ?_) fun i room l s hfound hi _ hs hd => ?_
    · simpa [Registry.openKey, hpriv, hnone] using hrep
    · simp only [wp_bind, wp_searchUnlockIrqrestore]
      refine wp_loadService_of hs ?_
      have hvalid := hd.validServiceOperation env.caller (h.sound.permission i room hi)
      cases hclosed : room.closedTo env.caller with
      | true =>
        rw [if_pos (by simp [hvalid, hclosed])]
        simpa [Registry.openKey, hpriv, hfound, hi, hclosed] using hrep
      | false =>
        rw [if_neg (by simp [hvalid, hclosed]), hd.tag, tag_toInt]
        simpa [Registry.openKey, hpriv, hfound, hi, hclosed] using hrep

theorem tagGet_refines {command permission : Int32} (h : RepAt w.mem R cells)
    (hok : command = cmdCreate → AllocOk env) :
    wp (tagGet key command permission) env w (fun r w' =>
      r = (R.get env key command permission).1 ∧
        Rep w'.mem (R.get env key command permission).2) E := by
  have hrep : Rep w.mem R := ⟨cells, h⟩
  simp only [tagGet, wp_bind, wp_tryModuleGet]
  cases hlive : env.moduleLive with
  | false => simpa [Registry.get, hlive] using hrep
  | true =>
    rw [if_neg (by simp)]
    by_cases hperm : permission = openRoom ∨ permission = privateRoom
    · have hpermNot : ¬ (permission ≠ openRoom ∧ permission ≠ privateRoom) := by tauto
      rw [if_neg (by simp [permAmmisible, hperm])]
      by_cases hkey : key = 0
      · rw [if_pos (by simp [keyAmmissible, hkey])]
        simpa [Registry.get, hlive, hpermNot, hkey] using hrep
      · rw [if_neg (by simp [keyAmmissible, hkey])]
        by_cases hcreate : command = cmdCreate
        · rw [if_pos hcreate]
          refine wp_imp (tagGetCreate_refines h (hok hcreate) hperm hkey) fun r w' hr => ?_
          simpa [Registry.get, hlive, hpermNot, hkey, hcreate] using hr
        · rw [if_neg hcreate]
          by_cases hopen : command = cmdOpen
          · rw [if_pos hopen]
            refine wp_imp (tagGetOpen_refines h) fun r w' hr => ?_
            have hne : ¬ cmdOpen = cmdCreate := hopen ▸ hcreate
            simpa [Registry.get, hlive, hpermNot, hkey, hne, hopen] using hr
          · rw [if_neg hopen]
            simpa [Registry.get, hlive, hpermNot, hkey, hcreate, hopen] using hrep
    · have hpermNot : permission ≠ openRoom ∧ permission ≠ privateRoom := by tauto
      rw [if_pos (by simp [permAmmisible, hperm])]
      simpa [Registry.get, hlive, hpermNot] using hrep

/-! ## `tag_ctl` -/

/-- Storing 1 in the flags touches nothing else. -/
theorem wakeUpLevels_spec {is : List (Fin levelDeep)} (hs : w.mem.services l = some s)
    (hq : Quiet s.levels) :
    wp (wakeUpLevels l is) env w (fun _ w' => ∃ s', Touched w.mem w'.mem l s s') E := by
  induction is generalizing w s with
  | nil => exact ⟨s, Touched.refl hs hq⟩
  | cons i is ih =>
      rw [wakeUpLevels, wakeUpAll, wp_bind]
      refine wp_storeList_of hs ?_
      set s₁ : TAGService :=
        { s with levels := { s.levels with ready := Function.update s.levels.ready i 1 } }
      have ht : Touched w.mem { w.mem with services := Function.update w.mem.services l (some s₁) }
          l s s₁ := ⟨rfl, rfl, rfl, rfl, rfl, rfl, rfl, rfl, hq⟩
      refine wp_imp (ih (s := s₁) (by simp) hq) fun _ w' => ?_
      rintro ⟨s', ht'⟩
      exact ⟨s', ht.trans ht'⟩

theorem tagCtlAwakeAll_refines (h : RepAt w.mem R cells) :
    wp (tagCtlAwakeAll tag) env w (fun r w' =>
      r = (match R.roomOf tag with
        | none => Errno.ENOMSG.neg
        | some (_, room) => if room.closedTo env.caller then Errno.EBADRQC.neg else 0) ∧
        Rep w'.mem R) E := by
  have hrep : Rep w.mem R := ⟨cells, h⟩
  simp only [tagCtlAwakeAll, wp_bind, wp_ask, wp_searchLockIrqsave]
  refine wp_searchTAGServiceWithTag h rfl (fun hnone => ?_)
    fun i room l s hroom hi hl hs hd _ => ?_
  · simpa [hnone] using hrep
  · simp only [wp_bind, wp_searchUnlockIrqrestore]
    refine wp_loadService_of hs ?_
    have hvalid := hd.validServiceOperation env.caller (h.sound.permission i room hi)
    cases hclosed : room.closedTo env.caller with
    | true =>
      rw [if_pos (by simp [hvalid, hclosed])]
      simpa [hroom, hclosed] using hrep
    | false =>
      rw [if_neg (by simp [hvalid, hclosed])]
      refine wp_seq (wakeUpLevels_spec hs hd.quiet) fun _ w' => ?_
      rintro ⟨s', ht⟩
      simpa [hroom, hclosed] using ⟨cells, h.touched hi hl hs ht⟩

theorem tagCtlRemove_refines (h : RepAt w.mem R cells) (hE : ¬ AllocOk env → E .nullPointer) :
    wp (tagCtlRemove tag) env w (fun r w' =>
      match R.roomOf tag with
      | none => r = Errno.ENODATA.neg ∧ Rep w'.mem R
      | some (i, room) =>
        if room.closedTo env.caller then r = Errno.EBADRQC.neg ∧ Rep w'.mem R
        else r = 0 ∧ Rep w'.mem (Function.update R i none)) E := by
  have hrep : Rep w.mem R := ⟨cells, h⟩
  simp only [tagCtlRemove, wp_bind, wp_ask, wp_searchLockIrqsave]
  refine wp_searchTAGServiceWithTag h rfl (fun hnone => ?_)
    fun i room l s hroom hi hl hs hd _ => ?_
  · simpa [hnone] using hrep
  · simp only [hroom, wp_bind]
    refine wp_loadService_of hs ?_
    have hvalid := hd.validServiceOperation env.caller (h.sound.permission i room hi)
    cases hclosed : room.closedTo env.caller with
    | true =>
      rw [if_pos (by simp [hvalid, hclosed])]
      simpa using hrep
    | false =>
      rw [if_neg (by simp [hvalid, hclosed]), if_neg (by simp [hd.hasSleepers]), wp_bind]
      refine wp_kmallocService (fun hok t => ?_) fun hfail t => ?_
      · -- the scratch service is built in fresh memory and then forgotten
        set spare : TAGService := { env.staleService w.mem.brk with key := 0, tag := -1 }
          with hspare
        simp only [wp_bind, wp_storeService]
        refine ⟨fun hnone => by simp [withService] at hnone, fun s₁ hs₁ => ?_⟩
        obtain rfl : env.staleService w.mem.brk = s₁ := by simpa [withService] using hs₁
        refine initLevels_spec (m := w.mem) (s := spare) (by simp [hspare]) ?_ (le_refl _)
          fun w' xs es hext hslots hcount _ _ _ => ?_
        · refine (withService_extends h.fresh spare).congr ?_ rfl rfl rfl
          simp [withService, hspare]
        · have h' : RepAt w'.mem R cells := h.extends hext hslots hcount
          have hl' : w'.mem.tagServices i = some l := by rw [hslots]; exact hl
          obtain ⟨_, s', _, hs', hd', _⟩ := h'.intact hl'
          have hindex : slotIndex s'.tag = pure i := by
            have hnat : s'.tag.toNat = i := by rw [hd'.tag, toNat_ofNat_slot]
            simp only [slotIndex, hnat, i.isLt, dif_pos]
          refine wp_loadService_of hs' ?_
          rw [hindex]
          simpa [loadSlot, storeSlot, kfreeService, addServiceCount, hl'] using
            ⟨_, h'.remove (by assumption) hl'⟩
      · have hnot : ¬ AllocOk env := fun hok => by simp [hok w.mem.brk] at hfail
        simpa using hE hnot

theorem tagCtl_refines {command : Int32} (h : RepAt w.mem R cells)
    (hE : ¬ AllocOk env → E .nullPointer) :
    wp (tagCtl tag command) env w (fun r w' =>
      r = (R.ctl env tag command).1 ∧ Rep w'.mem (R.ctl env tag command).2) E := by
  have hrep : Rep w.mem R := ⟨cells, h⟩
  simp only [tagCtl, wp_bind, wp_tryModuleGet]
  cases hlive : env.moduleLive with
  | false => simpa [Registry.ctl, hlive] using hrep
  | true =>
    rw [if_neg (by simp)]
    by_cases hneg : tag < 0
    · rw [if_pos hneg]
      simpa [Registry.ctl, hlive, hneg] using hrep
    · rw [if_neg hneg]
      by_cases hawake : command = cmdAwakeAll
      · rw [if_pos hawake]
        refine wp_imp (tagCtlAwakeAll_refines h) fun r w' hr => ?_
        cases hroom : R.roomOf tag with
        | none => simpa [Registry.ctl, hlive, hneg, hawake, hroom] using hr
        | some found =>
          cases hclosed : found.2.closedTo env.caller <;>
            simpa [Registry.ctl, hlive, hneg, hawake, hroom, hclosed] using hr
      · rw [if_neg hawake]
        by_cases hremove : command = cmdRemove
        · have hne : ¬ cmdRemove = cmdAwakeAll := hremove ▸ hawake
          rw [if_pos hremove]
          refine wp_imp (tagCtlRemove_refines h hE) fun r w' hr => ?_
          cases hroom : R.roomOf tag with
          | none => simpa [Registry.ctl, hlive, hneg, hremove, hne, hroom] using hr
          | some found =>
            cases hclosed : found.2.closedTo env.caller <;>
              simpa [Registry.ctl, hlive, hneg, hremove, hne, hroom, hclosed] using hr
        · rw [if_neg hremove]
          simpa [Registry.ctl, hlive, hneg, hawake, hremove] using hrep

/-! ## A call -/

/-- The calls that create a service. -/
def Creates : Call → Prop
  | .tagGet _ command _ => command = cmdCreate
  | _ => False

/-- A call answers as the registry does and leaves its next state, or it is a `tag_send` that found
no memory and changed nothing. -/
def Simulates (R : Registry) (env : Env) (c : Call) (answer : Answer) (m' : Mem) : Prop :=
  (answer = (R.step env c).1 ∧ Rep m' (R.step env c).2) ∨
    (∃ tag level buffer size, c = .tagSend tag level buffer size) ∧
      ∃ r, answer = .ofRet r ∧ Exhausted env R r m'

/-- Any call, on any memory that holds a registry. -/
theorem routine_refines {c : Call} (h : Rep w.mem R) (hstray : ¬ Strays w.mem env c)
    (hok : Creates c → AllocOk env) (hE : ¬ AllocOk env → E .nullPointer) :
    wp c.routine env w (fun answer w' => Simulates R env c answer w'.mem) E := by
  obtain ⟨cells, h⟩ := h
  cases c with
  | tagGet key command permission =>
    refine wp_seq (tagGet_refines h hok) fun r w' hr => Or.inl ?_
    exact ⟨congrArg Answer.ofRet hr.1, hr.2⟩
  | tagSend tag level buffer size =>
    refine wp_seq (tagSend_refines h hE) fun r w' hr => ?_
    rcases hr with ⟨rfl, hrep⟩ | hexh
    · exact Or.inl ⟨rfl, hrep⟩
    · exact Or.inr ⟨⟨tag, level, buffer, size, rfl⟩, r, rfl, hexh⟩
  | tagReceive tag level bufferNull size =>
    exact wp_seq (tagReceive_refines h hstray) fun r w' hr => Or.inl hr
  | tagCtl tag command =>
    refine wp_seq (tagCtl_refines h hE) fun r w' hr => Or.inl ?_
    exact ⟨congrArg Answer.ofRet hr.1, hr.2⟩

end TagMessaging.Serial
