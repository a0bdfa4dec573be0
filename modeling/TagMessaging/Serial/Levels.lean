/-
# TagMessaging.Serial.Levels -- the level a user passes as an index and as a key

`tag_send` and `tag_receive` with the two list operations they call as parameters. With the
operations of `rcu-list.c` they are the calls of the model; with `checkedOps` in their place the
call stops as soon as it hands over a key that is none of the 32 levels. An index outside an array
of the list stops a call in any case. So a call is inside its levels when, with the checked
operations, it never stops for an index.
-/
import TagMessaging.Serial.Execution

namespace TagMessaging.Serial

open TagMessaging.Lib.Effect TagMessaging.Lib.Transition TagMessaging.Model

/-! ## The calls over the list operations -/

/-- `list_replace` and `list_search`, as the two calls use them. -/
structure ListOps where
  replace : Addr → Int32 → Ptr → Nat → Kernel Int
  search : Addr → Int32 → Kernel Ptr

/-- The operations of `rcu-list.c`. -/
def rcuListOps : ListOps where
  replace := rcuListReplace
  search := rcuListSearch

/-- `tag_send` from the list operation on. -/
def sendTail (ops : ListOps) (l : Addr) (level : Int32) (buf : Ptr) (size : Nat) : Kernel Int := do
  let res ← ops.replace l level buf size
  if res ≠ 1 then
    modulePut
    pure Errno.EBADMSG.neg
  else
    let i ← levelIndex level
    let list ← loadList l
    if list.readerQueue i = 0 then
      modulePut
      pure 0
    else
      wakeUpAll l i
      modulePut
      pure 0

/-- `tag_send`. -/
def tagSendOver (ops : ListOps) (tag level : Int32) (buffer : Option (Nat → UInt8)) (size : Nat) :
    Kernel Int := do
  let env ← .ask
  let live ← tryModuleGet
  if !live then
    pure Errno.ENOSYS.neg
  else if size > maxMessageSize then
    modulePut
    pure Errno.EXFULL.neg
  else
    match buffer with
    | none => do
        modulePut
        pure Errno.EXFULL.neg
    | some user => do
        let buf ← vzalloc size
        let left ← copyFromUser buf user size
        if left ≠ 0 then
          modulePut
          pure Errno.ENODATA.neg
        else
          let flags ← searchLockIrqsave .readLock
          let p ← searchTAGServiceWithTag tag
          match p with
          | none => do
              searchUnlockIrqrestore .readUnlock flags
              modulePut
              pure Errno.ENOMSG.neg
          | some l => do
              searchUnlockIrqrestore .readUnlock flags
              let service ← loadService p
              if !validServiceOperation env.caller service then
                vfree buf
                modulePut
                pure Errno.EBADRQC.neg
              else if levelTooDeep level then
                vfree buf
                modulePut
                pure Errno.EBADSLT.neg
              else
                sendTail ops l level buf size

/-- `tag_receive` from the list operation on. -/
def receiveTail (ops : ListOps) (l : Addr) (level : Int32) (size : Nat) (notSent : List Nat) :
    Kernel (Int × List UInt8) := do
  let found ← ops.search l level
  match found with
  | none => do
      modulePut
      pure (Errno.EUCLEAN.neg, [])
  | some _ => do
      let m ← readMem id
      let e ← .lift (derefElement m.elements found)
      let bSize := min size e.size
      let message ← loadMessage e.message bSize
      emit .maySleep
      modulePut
      pure ((bSize : Int), copyToUser message bSize notSent 0)

/-- `tag_receive`. -/
def tagReceiveOver (ops : ListOps) (tag level : Int32) (bufferNull : Bool) (size : Nat) :
    Kernel (Int × List UInt8) := do
  let env ← .ask
  let live ← tryModuleGet
  if !live then
    pure (Errno.ENOSYS.neg, [])
  else if size > maxMessageSize ∨ bufferNull then
    modulePut
    pure (Errno.EXFULL.neg, [])
  else
    let flags ← searchLockIrqsave .readLock
    let p ← searchTAGServiceWithTag tag
    match p with
    | none => do
        searchUnlockIrqrestore .readUnlock flags
        modulePut
        pure (Errno.ENOMSG.neg, [])
    | some l => do
        searchUnlockIrqrestore .readUnlock flags
        let service ← loadService p
        if !validServiceOperation env.caller service then
          modulePut
          pure (Errno.EBADRQC.neg, [])
        else if levelTooDeep level then
          modulePut
          pure (Errno.EBADSLT.neg, [])
        else
          receiveTail ops l level size env.notSent

/-- With the operations of `rcu-list.c` these are the calls. -/
theorem tagSendOver_rcuListOps : tagSendOver rcuListOps = tagSend := rfl

theorem tagReceiveOver_rcuListOps : tagReceiveOver rcuListOps = tagReceive := rfl

/-! ## Staying inside the levels -/

instance InLevel.decidable (level : Int32) : Decidable (InLevel level) :=
  inferInstanceAs (Decidable (_ ∧ _))

/-- The operations of `rcu-list.c`, stopping for a key that is none of the 32 levels. -/
def checkedOps : ListOps where
  replace l key msg size :=
    if InLevel key then rcuListReplace l key msg size else .stop (.outOfRange key.toInt)
  search l key := if InLevel key then rcuListSearch l key else .stop (.outOfRange key.toInt)

theorem checkedOps_replace_of_inLevel {key : Int32} (h : InLevel key) (l : Addr) (msg : Ptr)
    (size : Nat) : checkedOps.replace l key msg size = rcuListReplace l key msg size := if_pos h

theorem checkedOps_replace_of_not {key : Int32} (h : ¬ InLevel key) (l : Addr) (msg : Ptr)
    (size : Nat) : checkedOps.replace l key msg size = .stop (.outOfRange key.toInt) := if_neg h

theorem checkedOps_search_of_inLevel {key : Int32} (h : InLevel key) (l : Addr) :
    checkedOps.search l key = rcuListSearch l key := if_pos h

theorem checkedOps_search_of_not {key : Int32} (h : ¬ InLevel key) (l : Addr) :
    checkedOps.search l key = .stop (.outOfRange key.toInt) := if_neg h

/-- No array index of the action is outside its array, and no key it hands to the checked
operations is outside the levels. -/
def StaysInside {α : Type} (act : Kernel α) (env : Env) (w : World) : Prop :=
  ∀ i, act env w ≠ .error (.outOfRange i)

/-- A service that the caller may use has the tag. -/
def Admitted (m : Mem) (env : Env) (tag : Int32) : Prop :=
  ∃ i s, findSlot (fun s => s.tag = tag.toUInt32) m = some i ∧ slotService m i = some s ∧
    validServiceOperation env.caller s = true

/-- A `tag_send` that the checks on everything but the level let pass. -/
def SendPasses (m : Mem) (env : Env) (tag : Int32) (buffer : Option (Nat → UInt8)) (size : Nat) :
    Prop :=
  env.moduleLive = true ∧ size ≤ maxMessageSize ∧ buffer.isSome ∧
    (size = 0 ∨ env.kmallocFails m.brk = false) ∧ min env.notCopied size = 0 ∧ Admitted m env tag

/-- A `tag_receive` that the checks on everything but the level let pass. -/
def ReceivePasses (m : Mem) (env : Env) (tag : Int32) (bufferNull : Bool) (size : Nat) : Prop :=
  env.moduleLive = true ∧ size ≤ maxMessageSize ∧ bufferNull = false ∧ Admitted m env tag

variable {env : Env} {w : World} {P : Parts} {tag level : Int32} {size : Nat} {m : Mem}
variable {ops : ListOps} {buffer : Option (Nat → UInt8)} {bufferNull : Bool} {l : Addr} {buf : Ptr}
variable {α : Type} {act : Kernel α} {E : Fault → Prop} {ls : List Done}

theorem staysInside_iff :
    StaysInside act env w ↔ wp act env w (fun _ _ => True) fun x => ∀ i, x ≠ .outOfRange i := by
  unfold StaysInside wp
  cases act env w with
  | error x => simp
  | ok r => simp

theorem not_staysInside_of_wp
    (h : wp act env w (fun _ _ => False) fun x => ∃ i, x = .outOfRange i) :
    ¬ StaysInside act env w := by
  unfold wp at h
  intro hstays
  split at h
  · exact h
  · obtain ⟨i, rfl⟩ := h
    exact hstays i (by assumption)

theorem admitted_iff {i : Fin minSysTagServices} {s : TAGService}
    (hfind : findSlot (fun s => s.tag = tag.toUInt32) m = some i)
    (hs : slotService m i = some s) :
    Admitted m env tag ↔ validServiceOperation env.caller s = true := by
  constructor
  · rintro ⟨i', s', hfind', hs', hvalid⟩
    obtain rfl := Option.some.inj (hfind.symm.trans hfind')
    obtain rfl := Option.some.inj (hs.symm.trans hs')
    exact hvalid
  · exact fun hvalid => ⟨i, s, hfind, hs, hvalid⟩

/-- A `tag_send` gets to the list operation exactly when the checks let it pass. -/
theorem wp_tagSendOver {Q : Int → World → Prop} (h : Formed w.mem P)
    (htail : SendPasses w.mem env tag buffer size → levelTooDeep level = false →
      ∀ i l buf w', Formed w'.mem P → w'.mem.tagServices i = some l →
        wp (sendTail ops l level buf size) env w' Q E)
    (hend : (SendPasses w.mem env tag buffer size → levelTooDeep level = true) → ∀ r w', Q r w')
    (hnull : ¬ SendPasses w.mem env tag buffer size → E .nullPointer) :
    wp (tagSendOver ops tag level buffer size) env w Q E := by
  have hfail : ¬ SendPasses w.mem env tag buffer size → ∀ r w', Q r w' :=
    fun hnot => hend fun hpass => absurd hpass hnot
  simp only [tagSendOver, wp_bind, wp_ask, wp_tryModuleGet]
  by_cases hlive : env.moduleLive = true
  · rw [if_neg (by simp [hlive])]
    by_cases hsize : size > maxMessageSize
    · rw [if_pos hsize]
      exact hfail (fun hpass => Nat.not_lt.mpr hpass.2.1 hsize) _ _
    · rw [if_neg hsize]
      cases buffer with
      | none => exact hfail (fun hpass => by simpa using hpass.2.2.1) _ _
      | some user =>
        simp only [wp_bind]
        refine wp_takeOver (fun hnone => hnull fun hpass => hnone hpass.2.2.2.1)
          fun halloc bytes t => ?_
        have h₁ : Formed (takenMem w.mem size bytes) P := h.taken size bytes
        by_cases hleft : min env.notCopied size ≠ 0
        · rw [if_pos hleft]
          exact hfail (fun hpass => hleft hpass.2.2.2.2.1) _ _
        · rw [if_neg hleft]
          have hpasses : Admitted w.mem env tag → SendPasses w.mem env tag (some user) size :=
            fun hadm => ⟨hlive, not_lt.mp hsize, rfl, halloc, not_not.mp hleft, hadm⟩
          simp only [wp_bind, wp_searchLockIrqsave]
          -- the buffer is new memory: the search sees the slots as they were before it
          refine h₁.wp_findService rfl (fun hnone => ?_) fun i l s hfind hi hs _ => ?_
          · refine hfail (fun hpass => ?_) _ _
            obtain ⟨i, s, hfind, _⟩ := hpass.2.2.2.2.2
            rw [findSlot_takenMem] at hnone
            exact absurd (hnone.symm.trans hfind) (by simp)
          · rw [findSlot_takenMem] at hfind
            rw [takenMem_tagServices] at hi
            have hslot : slotService w.mem i = some s := by simpa [slotService, hi] using hs
            have hiff : Admitted w.mem env tag ↔ validServiceOperation env.caller s = true :=
              admitted_iff hfind hslot
            simp only [wp_bind, wp_searchUnlockIrqrestore]
            refine wp_loadService_of hs ?_
            by_cases hvalid : validServiceOperation env.caller s = true
            · rw [if_neg (by simp [hvalid])]
              by_cases hdeep : levelTooDeep level = true
              · rw [if_pos hdeep, wp_bind]
                exact wp_vfree_taken h.fresh rfl fun w₂ _ => hend (fun _ => hdeep) _ _
              · rw [if_neg hdeep]
                refine htail (hpasses (hiff.mpr hvalid)) (by simpa using hdeep) i l _ _ h₁ ?_
                rw [takenMem_tagServices]
                exact hi
            · rw [if_pos (by simpa using hvalid), wp_bind]
              refine wp_vfree_taken h.fresh rfl fun w₂ _ => hfail (fun hpass => ?_) _ _
              exact hvalid (hiff.mp hpass.2.2.2.2.2)
  · rw [if_pos (by simpa using hlive)]
    exact hfail (fun hpass => hlive hpass.1) _ _

/-- A `tag_receive` gets to the list operation exactly when the checks let it pass. -/
theorem wp_tagReceiveOver {Q : Int × List UInt8 → World → Prop} (h : Formed w.mem P)
    (htail : ReceivePasses w.mem env tag bufferNull size → levelTooDeep level = false →
      ∀ i l w', Formed w'.mem P → w'.mem.tagServices i = some l →
        wp (receiveTail ops l level size env.notSent) env w' Q E)
    (hend : (ReceivePasses w.mem env tag bufferNull size → levelTooDeep level = true) →
      ∀ r w', Q r w') :
    wp (tagReceiveOver ops tag level bufferNull size) env w Q E := by
  have hfail : ¬ ReceivePasses w.mem env tag bufferNull size → ∀ r w', Q r w' :=
    fun hnot => hend fun hpass => absurd hpass hnot
  simp only [tagReceiveOver, wp_bind, wp_ask, wp_tryModuleGet]
  by_cases hlive : env.moduleLive = true
  · rw [if_neg (by simp [hlive])]
    by_cases hargs : size > maxMessageSize ∨ bufferNull = true
    · rw [if_pos hargs]
      refine hfail (fun hpass => ?_) _ _
      rcases hargs with hsize | hbuffer
      · exact Nat.not_lt.mpr hpass.2.1 hsize
      · simp [hpass.2.2.1] at hbuffer
    · rw [if_neg hargs]
      simp only [not_or, Bool.not_eq_true] at hargs
      simp only [wp_bind, wp_searchLockIrqsave]
      refine h.wp_findService rfl (fun hnone => ?_) fun i l s hfind hi hs _ => ?_
      · refine hfail (fun hpass => ?_) _ _
        obtain ⟨i, s, hfind, _⟩ := hpass.2.2.2
        exact absurd (hnone.symm.trans hfind) (by simp)
      · have hslot : slotService w.mem i = some s := by simpa [slotService, hi] using hs
        have hiff : Admitted w.mem env tag ↔ validServiceOperation env.caller s = true :=
          admitted_iff hfind hslot
        simp only [wp_bind, wp_searchUnlockIrqrestore]
        refine wp_loadService_of hs ?_
        by_cases hvalid : validServiceOperation env.caller s = true
        · rw [if_neg (by simp [hvalid])]
          by_cases hdeep : levelTooDeep level = true
          · rw [if_pos hdeep]
            exact hend (fun _ => hdeep) _ _
          · rw [if_neg hdeep]
            exact htail ⟨hlive, not_lt.mp hargs.1, hargs.2, hiff.mpr hvalid⟩
              (by simpa using hdeep) i l _ h hi
        · rw [if_pos (by simpa using hvalid)]
          exact hfail (fun hpass => hvalid (hiff.mp hpass.2.2.2)) _ _
  · rw [if_pos (by simpa using hlive)]
    exact hfail (fun hpass => hlive hpass.1) _ _

/-! ## The list operation -/

theorem wp_sendTail_checked {i : Fin minSysTagServices} (h : Formed w.mem P)
    (hi : w.mem.tagServices i = some l) (hlevel : InLevel level) :
    wp (sendTail checkedOps l level buf size) env w (fun _ _ => True) E := by
  obtain ⟨s, es, hseat, _⟩ := h.seat i l hi
  have hindex : levelIndex level = pure (indexOf level.toInt hlevel) := dif_pos hlevel
  rw [sendTail, checkedOps_replace_of_inLevel hlevel, wp_bind]
  refine wp_imp (rcuListReplace_cases hseat.list hseat.quiet h.fresh) fun r w₁ hr => ?_
  generalize hm' : w₁.mem = m' at hr
  cases hr with
  | noMemory | absent =>
    rw [if_pos (by simp)]
    trivial
  | hit _ xs' epre y epost _ _ _ _ _ _ hlist =>
    subst hm'
    obtain ⟨head, epoch, hs, _⟩ := hlist
    rw [if_neg (by simp), hindex, wp_bind, wp_pure, wp_bind]
    refine wp_loadList_of hs ?_
    split
    · trivial
    · rw [wakeUpAll, wp_bind]
      exact wp_storeList_of hs trivial

theorem wp_receiveTail_checked {i : Fin minSysTagServices} {notSent : List Nat}
    (h : Formed w.mem P) (hi : w.mem.tagServices i = some l) (hlevel : InLevel level)
    (hE : E .nullPointer) :
    wp (receiveTail checkedOps l level size notSent) env w (fun _ _ => True) E := by
  obtain ⟨s, hs, _⟩ := h.record hi
  rw [receiveTail, checkedOps_search_of_inLevel hlevel]
  refine wp_seq (h.wp_search rfl hi hs hlevel) fun p w' => ?_
  rintro ⟨⟨s', ht⟩, hfound⟩
  cases p with
  | none => trivial
  | some a =>
    obtain ⟨_, e, he, hbufs⟩ := hfound a rfl
    simp only [wp_bind, wp_readMem, id, derefElement_some he, wp_lift_ok]
    refine wp_loadMessage_of hE (fun b hb => ?_) fun _ => trivial
    rw [ht.mem]
    exact h.stored i b (hbufs b hb)

theorem inLevel_of_shallow (hneg : 0 ≤ level.toInt) (hshallow : levelTooDeep level = false) :
    InLevel level := by
  refine ⟨hneg, not_le.mp fun hge => ?_⟩
  rw [levelTooDeep_iff.mpr hge] at hshallow
  exact Bool.noConfusion hshallow

theorem shallow_of_neg (hneg : ¬ 0 ≤ level.toInt) : levelTooDeep level ≠ true := fun hdeep => by
  have hge := levelTooDeep_iff.mp hdeep
  rw [levelDeep] at hge
  omega

/-- `tag_send` on formed memory. -/
theorem sendOver_staysInside_iff (h : Formed w.mem P) :
    StaysInside (tagSendOver checkedOps tag level buffer size) env w ↔
      (SendPasses w.mem env tag buffer size → 0 ≤ level.toInt) := by
  constructor
  · intro hstays hpass
    by_contra hneg
    refine not_staysInside_of_wp (wp_tagSendOver h (fun _ _ i l buf w' _ _ => ?_)
      (fun hdeep => absurd (hdeep hpass) (shallow_of_neg hneg))
      (fun hnot => absurd hpass hnot)) hstays
    rw [sendTail, checkedOps_replace_of_not fun hlevel => hneg hlevel.1]
    exact ⟨_, rfl⟩
  · intro hneg
    rw [staysInside_iff]
    refine wp_tagSendOver h (fun hpass hshallow i l buf w' h' hi => ?_) (fun _ _ _ => trivial)
      fun _ => by simp
    exact wp_sendTail_checked h' hi (inLevel_of_shallow (hneg hpass) hshallow)

/-- `tag_receive` on formed memory. -/
theorem receiveOver_staysInside_iff (h : Formed w.mem P) :
    StaysInside (tagReceiveOver checkedOps tag level bufferNull size) env w ↔
      (ReceivePasses w.mem env tag bufferNull size → 0 ≤ level.toInt) := by
  constructor
  · intro hstays hpass
    by_contra hneg
    refine not_staysInside_of_wp (wp_tagReceiveOver h (fun _ _ i l w' _ _ => ?_)
      (fun hdeep => absurd (hdeep hpass) (shallow_of_neg hneg))) hstays
    rw [receiveTail, checkedOps_search_of_not fun hlevel => hneg hlevel.1]
    exact ⟨_, rfl⟩
  · intro hneg
    rw [staysInside_iff]
    refine wp_tagReceiveOver h (fun hpass hshallow i l w' h' hi => ?_) fun _ _ _ => trivial
    exact wp_receiveTail_checked h' hi (inLevel_of_shallow (hneg hpass) hshallow) (by simp)

/-- **Level indices.** In every state reached, a call stays inside its levels exactly when the level
is not negative or another check turns the call away. -/
theorem level_indices (h : Run serial Inside ls w) (env : Env) (tag level : Int32) (size : Nat) :
    (∀ buffer, StaysInside (tagSendOver checkedOps tag level buffer size) env w ↔
      (SendPasses w.mem env tag buffer size → 0 ≤ level.toInt)) ∧
    ∀ bufferNull, StaysInside (tagReceiveOver checkedOps tag level bufferNull size) env w ↔
      (ReceivePasses w.mem env tag bufferNull size → 0 ≤ level.toInt) := by
  obtain ⟨P, hP⟩ := reached_formed h
  exact ⟨fun buffer => sendOver_staysInside_iff hP, fun _ => receiveOver_staysInside_iff hP⟩

/-- In the state the two creations lead to, the caller 12 may use the open room at tag 1. -/
theorem twoRooms_admitted : ∃ ls w, Run serial Inside ls w ∧ Admitted w.mem (callerEnv 12) 1 := by
  obtain ⟨w, hrun, hrep⟩ := twoRooms_run
  refine ⟨_, w, hrun.weaken fun _ _ => And.right, ?_⟩
  obtain ⟨cells, h⟩ := hrep
  have hroom : (Registry.empty.answers twoRooms).2.roomOf 1 =
      some (⟨1, by decide⟩, ⟨6, 11, openRoom, fun _ => []⟩) := rfl
  obtain ⟨l, hl, hslot⟩ := h.slot ⟨1, by decide⟩ _ rfl
  obtain ⟨s, hs, hd⟩ := hslot.record
  refine ⟨⟨1, by decide⟩, s, ?_, by simp [slotService, hl, hs], ?_⟩
  · rw [h.findSlot_tag, hroom]
    rfl
  · rw [hd.validServiceOperation _ (Or.inl rfl)]
    rfl

theorem level_indices_twoRooms : ∃ ls w, Run serial Inside ls w ∧
    SendPasses w.mem (callerEnv 12) 1 (some fun _ => 65) 4 ∧
    StaysInside (tagSendOver checkedOps 1 31 (some fun _ => 65) 4) (callerEnv 12) w ∧
    StaysInside (tagReceiveOver checkedOps 1 31 false 4) (callerEnv 12) w := by
  obtain ⟨ls, w, hrun, hadm⟩ := twoRooms_admitted
  obtain ⟨hsend, hreceive⟩ := level_indices hrun (callerEnv 12) 1 31 4
  exact ⟨ls, w, hrun, ⟨rfl, by decide, rfl, Or.inr rfl, rfl, hadm⟩,
    (hsend _).mpr fun _ => by decide, (hreceive _).mpr fun _ => by decide⟩

/-- A negative level passes the comparison of both calls. -/
theorem negative_level : ∃ ls w, Run serial Inside ls w ∧ Admitted w.mem (callerEnv 12) 1 ∧
    ¬ StaysInside (tagSendOver checkedOps 1 (-1) (some fun _ => 65) 4) (callerEnv 12) w ∧
    ¬ StaysInside (tagReceiveOver checkedOps 1 (-205) false 16) (callerEnv 12) w := by
  obtain ⟨ls, w, hrun, hadm⟩ := twoRooms_admitted
  obtain ⟨P, hP⟩ := reached_formed hrun
  refine ⟨ls, w, hrun, hadm, fun hstays => ?_, fun hstays => ?_⟩
  · have hneg := (sendOver_staysInside_iff hP).mp hstays
      ⟨rfl, by decide, rfl, Or.inr rfl, rfl, hadm⟩
    exact absurd hneg (by decide)
  · have hneg := (receiveOver_staysInside_iff hP).mp hstays ⟨rfl, by decide, rfl, hadm⟩
    exact absurd hneg (by decide)

end TagMessaging.Serial
