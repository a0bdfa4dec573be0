/-
# TagMessaging.Serial.Blind -- what the calls cannot see

The four calls from near worlds. Every field of a new record and of its list is stored before the
slot is searched, so the calls answer alike whatever their fresh blocks held; only `tag_receive`
reads a message, so the others answer alike whatever the messages are.
-/
import TagMessaging.Serial.Near

namespace TagMessaging.Serial

open TagMessaging.Lib.Effect TagMessaging.Model

variable {f : Env → Stock} {X B Z : Addr → Prop} {env : Env} {w w' : World} {α : Type}
variable {a : Addr} {p : Ptr} {key : Int32} {s s' : TAGService}

/-! ## Fresh records -/

/-- No record: the block number is spent, and the call may have slept. -/
theorem kmallocService_fails (ha : w.mem.brk = a) (hfail : env.kmallocFails a = true) :
    kmallocService env w =
      .ok (none, { w with mem := withoutBlock w.mem, trace := w.trace ++ [.maySleep] }) := by
  subst ha
  refine eq_ok_of_wp ?_
  simp [kmallocService, hfail, withMem, withoutBlock]

/-- Memory with a fresh record at `a`. -/
def withRecord (m : Mem) (a : Addr) (s : TAGService) : Mem :=
  { m with brk := a + 1, services := Function.update m.services a (some s) }

/-- A record with whatever its block held before. -/
theorem kmallocService_succeeds (ha : w.mem.brk = a) (hok : env.kmallocFails a = false) :
    kmallocService env w = .ok (some a, { w with
      mem := withRecord w.mem a (env.staleService a), trace := w.trace ++ [.maySleep] }) := by
  subst ha
  refine eq_ok_of_wp ?_
  simp [kmallocService, hok, withMem, withRecord]

/-- A store to a record that is there, as an equation. -/
theorem storeService_eq (g : TAGService → TAGService) (hs : w.mem.services a = some s) :
    storeService (some a) g env w = .ok ((), withMem w
      { w.mem with services := Function.update w.mem.services a (some (g s)) }) := by
  refine eq_ok_of_wp ?_
  simp [hs]

/-- The list of a record after `rcu_list_init`. -/
def emptyRcuList : RcuList where
  epoch := 0
  standing := fun _ => 0
  head := none
  readerQueue := fun _ => 0
  ready := fun _ => 0
  waiters := fun _ => 0

/-- The world once a new service has its slot and its empty list. -/
def seatedWorld (w : World) (i : Fin minSysTagServices) (a : Addr) (s : TAGService) : World where
  mem := { withRecord w.mem a s with tagServices := Function.update w.mem.tagServices i (some a) }
  irq := w.irq
  flags := w.flags
  trace := w.trace ++ [.maySleep]

/-- Nothing of what the fresh record held is left when the levels are inserted. -/
theorem fillSlot_eq {i : Fin minSysTagServices} {uidCreator perm : Int32} (ha : w.mem.brk = a)
    (hok : env.kmallocFails a = false) :
    fillSlot i key uidCreator perm env w =
      (do
        insertLevels a (List.finRange levelDeep)
        pure (some a) : Kernel Ptr) env (seatedWorld w i a
          { key := key
            tag := UInt32.ofNat i
            uidCreator := uidCreator
            perm := perm
            levels := emptyRcuList }) := by
  refine (bind_apply_of_ok (kmallocService_succeeds ha hok)).trans ?_
  refine (bind_apply_of_ok rfl).trans ?_
  refine (bind_apply_of_ok (storeService_eq _ (Function.update_self ..))).trans ?_
  refine (bind_apply_of_ok (storeService_eq _ (Function.update_self ..))).trans ?_
  simp only [withMem, withRecord, Function.update_idem]
  rfl

/-- A new record takes a slot. -/
theorem Near.seat (h : Near f X B Z w w') (i : Fin minSysTagServices) (s : TAGService) :
    Near f X B (Also Z (some w.mem.brk)) (seatedWorld w i w.mem.brk s)
      (seatedWorld w' i w.mem.brk s) := by
  have hm := h.mem
  refine ⟨⟨congrArg (Function.update · i _) hm.slots, hm.count, fun b => ?_, fun b hb => ?_,
    fun j b hj => ?_, fun hne b hb => ?_, hm.elements, hm.buffers, rfl⟩, h.irq, h.flags,
    congrArg (· ++ _) h.trace⟩
  · show (Function.update w'.mem.services w.mem.brk (some s) b).map _ =
      (Function.update w.mem.services w.mem.brk (some s) b).map _
    by_cases hba : b = w.mem.brk
    · simp [hba]
    · simpa [hba] using hm.lists b
  · show Function.update w'.mem.services w.mem.brk (some s) b =
      Function.update w.mem.services w.mem.brk (some s) b
    by_cases hba : b = w.mem.brk
    · simp [hba]
    · have hz : Z b := hb.resolve_right fun heq => hba (Option.some.inj heq).symm
      simpa [hba] using hm.records b hz
  · have hslot : Function.update w.mem.tagServices i (some w.mem.brk) j = some b := hj
    by_cases hji : j = i
    · exact Or.inr (by simpa [hji] using hslot)
    · exact Or.inl (hm.seated j b (by simpa [hji] using hslot))
  · show b < w.mem.brk + 1
    rcases hb with hz | heq
    · exact Nat.lt_succ_of_lt (hm.below hne b hz)
    · rw [← Option.some.inj heq]
      exact Nat.lt_succ_self w.mem.brk

/-- Two worlds with different fresh blocks are near again once the slot is filled. -/
theorem parallel_fillSlot (i : Fin minSysTagServices) (key uidCreator perm : Int32) :
    ParallelTo (restock f) (Near f X B Z) (fun p => Near f X B (Also Z p))
      (fillSlot i key uidCreator perm) := by
  intro env w w' hw
  have hbrk := hw.mem.brk
  cases hfail : env.kmallocFails w.mem.brk with
  | true =>
    -- the store through `NULL` stops both
    exact couple_under_bind_of_ok (kmallocService_fails rfl hfail)
      (kmallocService_fails hbrk hfail) (couple_of_error (x := .nullPointer) rfl rfl)
  | false =>
    have hrest : ParallelTo (restock f) (Near f X B (Also Z (some w.mem.brk)))
        (fun p => Near f X B (Also Z p)) (do
          insertLevels w.mem.brk (List.finRange levelDeep)
          pure (some w.mem.brk) : Kernel Ptr) :=
      parallel_bind (lockstep_insertLevels _ _) fun _ => parallelTo_pure fun _ _ ht => ht
    exact couple_under_of_eval (fillSlot_eq rfl hfail) (fillSlot_eq hbrk hfail)
      (hrest env _ _ (hw.seat i _))

/-- A fresh record that takes no slot. -/
theorem Near.scratch (h : Near f X B Z w w') (hlevels : s'.levels = s.levels)
    (hsame : f = ownStock → s' = s) (ev : List Event) :
    Near f X B Z { w with mem := withRecord w.mem w.mem.brk s, trace := w.trace ++ ev }
      { w' with mem := withRecord w'.mem w.mem.brk s', trace := w'.trace ++ ev } := by
  refine ⟨?_, h.irq, h.flags, congrArg (· ++ _) h.trace⟩
  have hspent : MemNear f X B Z { w.mem with brk := w.mem.brk + 1 }
      { w'.mem with brk := w.mem.brk + 1 } := by
    have hspend := h.mem.spend
    rw [withoutBlock, withoutBlock, h.mem.brk] at hspend
    exact hspend
  refine hspent.storeRecord hlevels fun hz => ?_
  by_cases hf : f = ownStock
  · exact hsame hf
  · exact absurd (h.mem.below hf _ hz) (lt_irrefl _)

/-! ## The calls that read no message -/

/-- A search ends at `NULL` or at a record that is the same on both sides. -/
theorem parallel_findService (test : TAGService → Bool) (is : List (Fin minSysTagServices)) :
    ParallelTo (restock f) (Near f X B Z)
      (fun p t t' => (∀ a, p = some a → Z a) ∧ Near f X B Z t t') (findService test is) := by
  induction is with
  | nil => exact parallelTo_pure fun _ _ hw => ⟨fun _ hp => by simp at hp, hw⟩
  | cons i is ih =>
    refine parallel_bind_fact (parallel_loadSlot i) fun p hp => ?_
    cases p with
    | none => exact ih
    | some a =>
      exact parallel_bind (lockstep_loadService hp) fun s =>
        parallel_ite (parallelTo_pure fun _ _ hw => ⟨hp, hw⟩) ih

/-- The search for a slot that is `NULL`, by induction on the slots to come. -/
theorem parallel_newTAGServiceFrom (key uidCreator perm : Int32)
    (is : List (Fin minSysTagServices)) :
    ParallelTo (restock f) (Near f X B Z) (fun p => Near f X B (Also Z p))
      (newTAGServiceFrom key uidCreator perm is) := by
  induction is with
  | nil => exact parallelTo_pure fun _ _ hw => hw.also_null
  | cons i is ih =>
    refine parallel_bind_fact (parallel_loadSlot i) fun p _ => ?_
    cases p with
    | some a => exact ih
    | none => exact parallel_fillSlot i key uidCreator perm

/-- A return. -/
theorem lockstep_pure (a : α) : Lockstep f X B Z (pure a) := parallel_pure a

/-- The put alone. -/
theorem lockstep_modulePut : Lockstep f X B Z modulePut := lockstep_emit _

/-- The put and the return of a call. -/
theorem lockstep_put (a : α) : Lockstep f X B Z (do modulePut; pure a) :=
  parallel_bind lockstep_modulePut fun _ => parallel_pure a

/-- The new record is the same on both sides. -/
theorem also_new (p : Ptr) (a : Addr) (hp : p = some a) : Also Z p a := Or.inr hp

/-- `CREATE`: the record its answer is read from is the new one. -/
theorem twin_tagGetCreate (key permission : Int32) :
    ParallelTo (restock f) (Near f X B Z) (fun _ => Twin f X B Z)
      (tagGetCreate key permission) := by
  refine parallel_ask (fun _ => rfl) fun env =>
    parallel_bind (lockstep_readMem fun _ _ hm => hm.count) fun count =>
    parallel_ite (lockstep_put _).twin (parallel_ite ?_ ?_)
  · refine parallel_bind (lockstep_searchLockIrqsave _) fun flags =>
      parallel_bind (parallel_newTAGServiceFrom _ _ _ _) fun p => Lockstep.twin_also ?_
    cases p with
    | none => exact lockstep_put _
    | some l =>
      exact parallel_bind (lockstep_searchUnlockIrqrestore _ _) fun _ =>
        parallel_bind (lockstep_addServiceCount 1) fun _ =>
        parallel_bind lockstep_modulePut fun _ =>
        parallel_bind (lockstep_loadService (also_new _)) fun _ => parallel_pure _
  · refine parallel_bind (lockstep_searchLockIrqsave _) fun flags =>
      parallel_bind_fact (parallel_findService _ _) fun found _ => ?_
    cases found with
    | some l =>
      exact Lockstep.twin (parallel_bind (lockstep_searchUnlockIrqrestore _ _) fun _ =>
        lockstep_put _)
    | none =>
      refine parallel_bind (parallel_newTAGServiceFrom _ _ _ _) fun p => Lockstep.twin_also ?_
      cases p with
      | none => exact lockstep_put _
      | some l =>
        exact parallel_bind (lockstep_addServiceCount 1) fun _ =>
          parallel_bind (lockstep_searchUnlockIrqrestore _ _) fun _ =>
          parallel_bind lockstep_modulePut fun _ =>
          parallel_bind (lockstep_loadService (also_new _)) fun _ => parallel_pure _

/-- `OPEN`: the record checked is one that a slot leads to. -/
theorem lockstep_tagGetOpen (key : Int32) : Lockstep f X B Z (tagGetOpen key) := by
  refine parallel_ask (fun _ => rfl) fun env => parallel_ite (parallel_pure _) ?_
  refine parallel_bind (lockstep_searchLockIrqsave _) fun flags =>
    parallel_bind_fact (parallel_findService _ _) fun p hp => ?_
  cases p with
  | none => exact parallel_bind (lockstep_searchUnlockIrqrestore _ _) fun _ => lockstep_put _
  | some l =>
    exact parallel_bind (lockstep_searchUnlockIrqrestore _ _) fun _ =>
      parallel_bind (lockstep_loadService hp) fun _ =>
        parallel_ite (lockstep_put _) (parallel_pure _)

/-- `tag_get`, whatever the command. -/
theorem twin_tagGet (key command permission : Int32) :
    ParallelTo (restock f) (Near f X B Z) (fun _ => Twin f X B Z)
      (tagGet key command permission) :=
  parallel_bind lockstep_tryModuleGet fun _ => parallel_ite (lockstep_pure _).twin <|
    parallel_ite (lockstep_put _).twin <| parallel_ite (lockstep_put _).twin <|
    parallel_ite (twin_tagGetCreate key permission) <|
    parallel_ite (lockstep_tagGetOpen key).twin (lockstep_pure _).twin

/-- `tag_send`: the message is stored and never read. -/
theorem lockstep_tagSend (tag level : Int32) (buffer : Option (Nat → UInt8)) (size : Nat) :
    Lockstep f X B Z (tagSend tag level buffer size) := by
  refine parallel_ask (fun _ => rfl) fun env => parallel_bind lockstep_tryModuleGet fun _ =>
    parallel_ite (parallel_pure _) (parallel_ite (lockstep_put _) ?_)
  cases buffer with
  | none => exact lockstep_put _
  | some user =>
    refine parallel_bind (lockstep_vzalloc size) fun buf =>
      parallel_bind (lockstep_copyFromUser buf user size) fun left =>
      parallel_ite (lockstep_put _) ?_
    refine parallel_bind (lockstep_searchLockIrqsave _) fun flags =>
      parallel_bind_fact (parallel_findService _ _) fun p hp => ?_
    cases p with
    | none => exact parallel_bind (lockstep_searchUnlockIrqrestore _ _) fun _ => lockstep_put _
    | some l =>
      refine parallel_bind (lockstep_searchUnlockIrqrestore _ _) fun _ =>
        parallel_bind (lockstep_loadService hp) fun _ =>
        parallel_ite (parallel_bind (lockstep_vfree buf) fun _ => lockstep_put _) <|
        parallel_ite (parallel_bind (lockstep_vfree buf) fun _ => lockstep_put _) <|
        parallel_bind (lockstep_rcuListReplace l level buf size) fun res =>
        parallel_ite (lockstep_put _) ?_
      exact parallel_bind (lockstep_levelIndex level) fun i =>
        parallel_bind (lockstep_loadList l) fun _ => parallel_ite (lockstep_put _)
          (parallel_bind (lockstep_storeList l _) fun _ => lockstep_put _)

/-- `AWAKE_ALL`. -/
theorem lockstep_tagCtlAwakeAll (tag : Int32) : Lockstep f X B Z (tagCtlAwakeAll tag) := by
  refine parallel_ask (fun _ => rfl) fun env =>
    parallel_bind (lockstep_searchLockIrqsave _) fun flags =>
    parallel_bind_fact (parallel_findService _ _) fun p hp => ?_
  cases p with
  | none => exact parallel_bind (lockstep_searchUnlockIrqrestore _ _) fun _ => lockstep_put _
  | some l =>
    exact parallel_bind (lockstep_searchUnlockIrqrestore _ _) fun _ =>
      parallel_bind (lockstep_loadService hp) fun _ => parallel_ite (lockstep_put _) <|
      parallel_bind (lockstep_wakeUpLevels l _) fun _ =>
      parallel_bind (lockstep_searchUnlockIrqrestore _ _) fun _ => lockstep_put _

/-- The scratch service of `tag_ctl_TBDE_REMOVE` up to its empty list. -/
theorem scratch_eq {γ : Type} {k : Addr → Kernel γ} (ha : w.mem.brk = a)
    (hok : env.kmallocFails a = false) :
    (do
      let emptyService ← kmallocService
      storeService emptyService fun service => { service with key := 0, tag := -1 }
      match emptyService with
      | none => .stop .nullPointer
      | some l => do
          rcuListInit l
          k l : Kernel γ) env w = k a env { w with
        mem := withRecord w.mem a
          { env.staleService a with key := 0, tag := -1, levels := emptyRcuList }
        trace := w.trace ++ [.maySleep] } := by
  refine (bind_apply_of_ok (kmallocService_succeeds ha hok)).trans ?_
  refine (bind_apply_of_ok (storeService_eq _ (Function.update_self ..))).trans ?_
  refine (bind_apply_of_ok (storeService_eq _ (Function.update_self ..))).trans ?_
  simp only [withMem, withRecord, Function.update_idem]
  rfl

/-- No slot leads to the scratch service, whose `uidCreator` and `perm` are never stored. -/
theorem lockstep_scratch {γ : Type} {k : Addr → Kernel γ} (hk : ∀ l, Lockstep f X B Z (k l)) :
    Lockstep f X B Z (do
      let emptyService ← kmallocService
      storeService emptyService fun service => { service with key := 0, tag := -1 }
      match emptyService with
      | none => .stop .nullPointer
      | some l => do
          rcuListInit l
          k l : Kernel γ) := by
  intro env w w' hw
  have hbrk := hw.mem.brk
  cases hfail : env.kmallocFails w.mem.brk with
  | true =>
    exact couple_under_bind_of_ok (kmallocService_fails rfl hfail)
      (kmallocService_fails hbrk hfail) (couple_of_error (x := .nullPointer) rfl rfl)
  | false =>
    refine couple_under_of_eval (scratch_eq rfl hfail) (scratch_eq hbrk hfail)
      (hk w.mem.brk env _ _ (hw.scratch ?_ ?_ [.maySleep]))
    · rfl
    · rintro rfl
      rfl

/-- `REMOVE`: of the scratch service only the block number is left. -/
theorem lockstep_tagCtlRemove (tag : Int32) : Lockstep f X B Z (tagCtlRemove tag) := by
  refine parallel_ask (fun _ => rfl) fun env =>
    parallel_bind (lockstep_searchLockIrqsave _) fun flags =>
    parallel_bind_fact (parallel_findService _ _) fun p hp => ?_
  cases p with
  | none => exact parallel_bind (lockstep_searchUnlockIrqrestore _ _) fun _ => lockstep_put _
  | some l =>
    refine parallel_bind (lockstep_loadService hp) fun _ => parallel_ite (lockstep_put _) <|
      parallel_ite (parallel_pure _) <| lockstep_scratch fun k => ?_
    exact parallel_bind (lockstep_insertLevels k _) fun _ =>
      parallel_bind (lockstep_loadService hp) fun _ => parallel_bind (lockstep_slotIndex _) fun i =>
      parallel_bind_fact (parallel_loadSlot i) fun tmp _ =>
      parallel_bind (lockstep_clearSlot i) fun _ =>
      parallel_bind (lockstep_kfreeService tmp) fun _ =>
      parallel_bind (lockstep_addServiceCount _) fun _ =>
      parallel_bind (lockstep_searchUnlockIrqrestore _ _) fun _ => lockstep_put _

/-- `tag_ctl`, whatever the command. -/
theorem lockstep_tagCtl (tag command : Int32) : Lockstep f X B Z (tagCtl tag command) :=
  parallel_bind lockstep_tryModuleGet fun _ => parallel_ite (lockstep_put _) <|
    parallel_ite (lockstep_put _) <| parallel_ite (lockstep_tagCtlAwakeAll tag) <|
    parallel_ite (lockstep_tagCtlRemove tag) (parallel_pure _)

/-! ## A call that reads one -/

/-- The message is read from a buffer that is the same on both sides. -/
theorem lockstep_loadMessage (hB : ∀ b, p = some b → ¬ B b) (bSize : Nat) :
    Lockstep f X B Z (loadMessage p bSize) := by
  unfold loadMessage
  refine parallel_ite (parallel_pure _) ?_
  cases p with
  | none => exact parallel_stop _
  | some b =>
    refine parallel_bind (lockstep_readMem fun _ _ hm => hm.buffers b (hB b rfl)) fun bytes => ?_
    cases bytes with
    | none => exact parallel_stop _
    | some bytes => exact parallel_pure bytes

/-- `tag_receive`: the element found is the same on both sides, and so is its message. -/
theorem lockstep_tagReceive (tag level : Int32) (bufferNull : Bool) (size : Nat) :
    Lockstep f (fun _ => False) (fun _ => False) Z (tagReceive tag level bufferNull size) := by
  refine parallel_ask (fun _ => rfl) fun env => parallel_bind lockstep_tryModuleGet fun _ =>
    parallel_ite (parallel_pure _) (parallel_ite (lockstep_put _) ?_)
  refine parallel_bind (lockstep_searchLockIrqsave _) fun flags =>
    parallel_bind_fact (parallel_findService _ _) fun p hp => ?_
  cases p with
  | none => exact parallel_bind (lockstep_searchUnlockIrqrestore _ _) fun _ => lockstep_put _
  | some l =>
    refine parallel_bind (lockstep_searchUnlockIrqrestore _ _) fun _ =>
      parallel_bind (lockstep_loadService hp) fun _ => parallel_ite (lockstep_put _) <|
      parallel_ite (lockstep_put _) <|
      parallel_bind (lockstep_rcuListSearch l level) fun found => ?_
    cases found with
    | none => exact lockstep_put _
    | some a =>
      intro env w w' hw
      have helem : w'.mem.elements a = w.mem.elements a := hw.mem.elements.outside a id
      have hderef : derefElement w'.mem.elements (some a) =
          derefElement w.mem.elements (some a) := by
        simp only [derefElement, helem]
      refine couple_under_bind_of_ok rfl rfl ?_
      show Couple _ (Action.lift (derefElement w.mem.elements (some a)) >>= _) w
        ((Action.lift (derefElement w'.mem.elements (some a)) >>= _).under _) w' _
      rw [hderef]
      exact parallel_bind (parallel_lift _) (fun e =>
        parallel_bind (lockstep_loadMessage (fun _ _ => id) _) fun message =>
        parallel_bind (lockstep_emit _) fun _ => lockstep_put _) env w w' hw

/-- One call, whatever it is. -/
theorem twin_exec (c : Call) :
    Parallel (restock f) (Twin f (fun _ => False) (fun _ => False) Z) c.exec := by
  have hroutine : Parallel (restock f) (Twin f (fun _ => False) (fun _ => False) Z) c.routine := by
    refine twin_of_near fun Z => ?_
    cases c with
    | tagGet key command permission =>
      exact parallel_bind (twin_tagGet key command permission) fun _ => parallel_pure _
    | tagSend tag level buffer size =>
      exact Lockstep.twin (parallel_bind (lockstep_tagSend tag level buffer size) fun _ =>
        parallel_pure _)
    | tagReceive tag level bufferNull size =>
      exact Lockstep.twin (parallel_bind (lockstep_tagReceive tag level bufferNull size) fun _ =>
        parallel_pure _)
    | tagCtl tag command =>
      exact Lockstep.twin (parallel_bind (lockstep_tagCtl tag command) fun _ => parallel_pure _)
  rintro env w w' ⟨Z', hZ, hw⟩
  exact hroutine env _ _ ⟨Z', hZ, hw.mem, hw.irq, hw.flags, rfl⟩

/-! ## Under one environment -/

/-- With one environment on both sides, lockstep says that nothing is seen. -/
theorem blind_of_lockstep {k : Kernel α} (h : ∀ Z, Lockstep ownStock X B Z k) :
    Blind (Alike X B) k :=
  blind_of_twin (twin_of_near fun Z => (h Z).twin)

theorem blind_emit (ev : Event) : Blind (Alike X B) (emit ev) :=
  blind_of_lockstep fun _ => lockstep_emit ev

theorem blind_tryModuleGet : Blind (Alike X B) tryModuleGet :=
  blind_of_lockstep fun _ => lockstep_tryModuleGet

theorem blind_put (a : α) : Blind (Alike X B) (do modulePut; pure a) :=
  blind_of_lockstep fun _ => lockstep_put a

theorem blind_searchLockIrqsave (op : LockOp) : Blind (Alike X B) (searchLockIrqsave op) :=
  blind_of_lockstep fun _ => lockstep_searchLockIrqsave op

theorem blind_searchUnlockIrqrestore (op : LockOp) (saved : Bool) :
    Blind (Alike X B) (searchUnlockIrqrestore op saved) :=
  blind_of_lockstep fun _ => lockstep_searchUnlockIrqrestore op saved

theorem blind_findService (test : TAGService → Bool) (is : List (Fin minSysTagServices)) :
    Blind (Alike X B) (findService test is) :=
  blind_of_lockstep fun _ => (parallel_findService test is).imp fun _ _ _ ht => ht.2

theorem blind_rcuListSearch (l : Addr) (key : Int32) : Blind (Alike X B) (rcuListSearch l key) :=
  blind_of_lockstep fun _ => lockstep_rcuListSearch l key

theorem blind_loadMessage {bSize : Nat} (hB : ∀ b, p = some b → ¬ B b) :
    Blind (Alike X B) (loadMessage p bSize) :=
  blind_of_lockstep fun _ => lockstep_loadMessage hB bSize

theorem blind_tagGet (key command permission : Int32) :
    Blind (Alike X B) (tagGet key command permission) :=
  blind_of_twin (twin_of_near fun _ => twin_tagGet key command permission)

theorem blind_tagSend (tag level : Int32) (buffer : Option (Nat → UInt8)) (size : Nat) :
    Blind (Alike X B) (tagSend tag level buffer size) :=
  blind_of_lockstep fun _ => lockstep_tagSend tag level buffer size

theorem blind_tagCtl (tag command : Int32) : Blind (Alike X B) (tagCtl tag command) :=
  blind_of_lockstep fun _ => lockstep_tagCtl tag command

end TagMessaging.Serial
