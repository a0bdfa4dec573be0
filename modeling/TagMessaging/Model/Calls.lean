/-
# TagMessaging.Model.Calls -- the four system calls of `TAG_Messaging.c`

Each function has the source's own sequence of locks, checks, module references and early returns,
with the unlock and `module_put` lines exactly where the source has them and nowhere else.
-/
import TagMessaging.Model.Service

namespace TagMessaging.Model

open TagMessaging.Lib.Effect

/-! ## `tag_get` -/

/-- `__sync_add_and_fetch(&serviceCount, d)`. -/
def addServiceCount (d : UInt32) : Kernel Unit :=
  modifyMem fun m => { m with serviceCount := m.serviceCount + d }

/-- `tag_get_CREATE`. -/
def tagGetCreate (key permission : Int32) : Kernel Int := do
  let env ← .ask
  let count ← readMem Mem.serviceCount
  if count ≥ UInt32.ofNat minSysTagServices then
    modulePut
    pure Errno.ETOOMANYREFS.neg
  else if key = tagIpcPrivate then
    let flags ← searchLockIrqsave .writeLock
    let p ← newTAGService key env.caller.tgid permission
    match p with
    | none => do
        modulePut
        pure Errno.EBADR.neg
    | some _ => do
        searchUnlockIrqrestore .writeUnlock flags
        addServiceCount 1
        modulePut
        let service ← loadService p
        pure service.tag.toInt32.toInt
  else
    let flags ← searchLockIrqsave .writeLock
    let found ← searchTAGServiceWithKey key
    match found with
    | some _ => do
        searchUnlockIrqrestore .writeUnlock flags
        modulePut
        pure Errno.EBADR.neg
    | none => do
        let p ← newTAGService key env.caller.tgid permission
        match p with
        | none => do
            modulePut
            pure Errno.EFAULT.neg
        | some _ => do
            addServiceCount 1
            searchUnlockIrqrestore .writeUnlock flags
            modulePut
            let service ← loadService p
            pure service.tag.toInt32.toInt

/-- `tag_get_OPEN`. -/
def tagGetOpen (key : Int32) : Kernel Int := do
  let env ← .ask
  if key = tagIpcPrivate then
    pure Errno.EBADSLT.neg
  else
    let flags ← searchLockIrqsave .readLock
    let p ← searchTAGServiceWithKey key
    match p with
    | some _ => do
        searchUnlockIrqrestore .readUnlock flags
        let service ← loadService p
        if !validServiceOperation env.caller service then
          modulePut
          pure Errno.EBADRQC.neg
        else
          pure service.tag.toInt32.toInt
    | none => do
        searchUnlockIrqrestore .readUnlock flags
        modulePut
        pure Errno.ENOMSG.neg

/-- `tag_get`. -/
def tagGet (key command permission : Int32) : Kernel Int := do
  let live ← tryModuleGet
  if !live then
    pure Errno.ENOSYS.neg
  else if permAmmisible permission ≠ 0 then
    modulePut
    pure Errno.EBADRQC.neg
  else if keyAmmissible key ≠ 0 then
    modulePut
    pure Errno.EILSEQ.neg
  else if command = cmdCreate then
    tagGetCreate key permission
  else if command = cmdOpen then
    tagGetOpen key
  else
    pure Errno.EILSEQ.neg

/-! ## `tag_send` -/

/-- `level >= levelDeep`: the comparison is signed. -/
def levelTooDeep (level : Int32) : Bool := level ≥ Int32.ofNat levelDeep

/-- `service->levels.ready[i] = 1; wake_up_all(&service->levels.readerQueue[i]);`: the threads of
the queue are other calls, which the wake-up lets run later. -/
def wakeUpAll (l : Addr) (i : Fin levelDeep) : Kernel Unit :=
  storeList l fun list => { list with ready := Function.update list.ready i 1 }

/-- `tag_send`. The pointer `buffer` is `none` for `NULL`; otherwise it gives the caller's
memory. -/
def tagSend (tag level : Int32) (buffer : Option (Nat → UInt8)) (size : Nat) : Kernel Int := do
  let env ← .ask
  let live ← tryModuleGet
  if !live then
    pure Errno.ENOSYS.neg
  else if size > maxMessageSize then
    modulePut
    pure Errno.EXFULL.neg
  else
    match buffer with
    | none => do
        modulePut
        pure Errno.EXFULL.neg
    | some user => do
        let buf ← vzalloc size
        let left ← copyFromUser buf user size
        if left ≠ 0 then
          modulePut
          pure Errno.ENODATA.neg
        else
          let flags ← searchLockIrqsave .readLock
          let p ← searchTAGServiceWithTag tag
          match p with
          | none => do
              searchUnlockIrqrestore .readUnlock flags
              modulePut
              pure Errno.ENOMSG.neg
          | some l => do
              searchUnlockIrqrestore .readUnlock flags
              let service ← loadService p
              if !validServiceOperation env.caller service then
                vfree buf
                modulePut
                pure Errno.EBADRQC.neg
              else if levelTooDeep level then
                vfree buf
                modulePut
                pure Errno.EBADSLT.neg
              else
                let res ← rcuListReplace l level buf size
                if res ≠ 1 then
                  modulePut
                  pure Errno.EBADMSG.neg
                else
                  let i ← levelIndex level
                  let list ← loadList l
                  if list.readerQueue i = 0 then
                    modulePut
                    pure 0
                  else
                    wakeUpAll l i
                    modulePut
                    pure 0

/-! ## `tag_receive` -/

/-- `while (bSize - offset > 0) { not_send = copy_to_user(buffer + offset, e->message + offset,
bSize - offset); offset += (bSize - offset) - not_send; }`: the bytes that arrive, given what the
successive calls leave uncopied. -/
def copyToUser (message : List UInt8) (bSize : Nat) : List Nat → Nat → List UInt8
  | [], offset => (message.drop offset).take (bSize - offset)
  | left :: rest, offset =>
      if bSize - offset > 0 then
        let sent := (bSize - offset) - min left (bSize - offset)
        (message.drop offset).take sent ++ copyToUser message bSize rest (offset + sent)
      else
        []

/-- The bytes of the message, which are looked at only when there are any. -/
def loadMessage (p : Ptr) (bSize : Nat) : Kernel (List UInt8) :=
  if bSize = 0 then pure []
  else
    match p with
    | none => .stop .nullPointer
    | some a => do
        match ← readMem (fun m => m.buffers a) with
        | none => .stop (.dangling a)
        | some bytes => pure bytes

/-- `tag_receive`: the return value and the bytes stored in the caller's buffer. -/
def tagReceive (tag level : Int32) (bufferNull : Bool) (size : Nat) :
    Kernel (Int × List UInt8) := do
  let env ← .ask
  let live ← tryModuleGet
  if !live then
    pure (Errno.ENOSYS.neg, [])
  else if size > maxMessageSize ∨ bufferNull then
    modulePut
    pure (Errno.EXFULL.neg, [])
  else
    let flags ← searchLockIrqsave .readLock
    let p ← searchTAGServiceWithTag tag
    match p with
    | none => do
        searchUnlockIrqrestore .readUnlock flags
        modulePut
        pure (Errno.ENOMSG.neg, [])
    | some l => do
        searchUnlockIrqrestore .readUnlock flags
        let service ← loadService p
        if !validServiceOperation env.caller service then
          modulePut
          pure (Errno.EBADRQC.neg, [])
        else if levelTooDeep level then
          modulePut
          pure (Errno.EBADSLT.neg, [])
        else
          let found ← rcuListSearch l level
          match found with
          | none => do
              modulePut
              pure (Errno.EUCLEAN.neg, [])
          | some _ => do
              let m ← readMem id
              let e ← .lift (derefElement m.elements found)
              let bSize := min size e.size
              let message ← loadMessage e.message bSize
              emit .maySleep
              modulePut
              pure ((bSize : Int), copyToUser message bSize env.notSent 0)

/-! ## `tag_ctl` -/

/-- `for (i = 0; i < levelDeep; i++) { service->levels.ready[i] = 1; wake_up_all(…); }` -/
def wakeUpLevels (l : Addr) : List (Fin levelDeep) → Kernel Unit
  | [] => pure ()
  | i :: is => do
      wakeUpAll l i
      wakeUpLevels l is

/-- `tag_ctl_TBDE_AWAKE_ALL`: its last unlock is a `write_unlock` with no lock held. -/
def tagCtlAwakeAll (tag : Int32) : Kernel Int := do
  let env ← .ask
  let flags ← searchLockIrqsave .readLock
  let p ← searchTAGServiceWithTag tag
  match p with
  | none => do
      searchUnlockIrqrestore .readUnlock flags
      modulePut
      pure Errno.ENOMSG.neg
  | some l => do
      searchUnlockIrqrestore .readUnlock flags
      let service ← loadService p
      if !validServiceOperation env.caller service then
        modulePut
        pure Errno.EBADRQC.neg
      else
        wakeUpLevels l (List.finRange levelDeep)
        searchUnlockIrqrestore .writeUnlock flags
        modulePut
        pure 0

/-- `waitqueue_active` on one of the queues of the service. -/
def hasSleepers (service : TAGService) : Bool :=
  (List.finRange levelDeep).any fun level => service.levels.readerQueue level ≠ 0

/-- `tag_ctl_TBDE_REMOVE`. The scratch service it builds is not used and not freed; two of its
error paths return with `searchLock` taken. -/
def tagCtlRemove (tag : Int32) : Kernel Int := do
  let env ← .ask
  let flags ← searchLockIrqsave .readLock
  let p ← searchTAGServiceWithTag tag
  match p with
  | none => do
      searchUnlockIrqrestore .readUnlock flags
      modulePut
      pure Errno.ENODATA.neg
  | some _ => do
      let service ← loadService p
      if !validServiceOperation env.caller service then
        modulePut
        pure Errno.EBADRQC.neg
      else if hasSleepers service then
        pure Errno.EADDRINUSE.neg
      else
        let emptyService ← kmallocService
        storeService emptyService fun service => { service with key := 0, tag := -1 }
        match emptyService with
        | none => .stop .nullPointer
        | some l => do
            rcuListInit l
            insertLevels l (List.finRange levelDeep)
            let service ← loadService p
            let i ← slotIndex service.tag
            let tmp ← loadSlot i
            storeSlot i none
            kfreeService tmp
            addServiceCount (-1)
            searchUnlockIrqrestore .readUnlock flags
            modulePut
            pure 0

/-- `tag_ctl`. -/
def tagCtl (tag command : Int32) : Kernel Int := do
  let live ← tryModuleGet
  if !live then
    modulePut
    pure Errno.ENOSYS.neg
  else if tag < 0 then
    modulePut
    pure Errno.ENOSR.neg
  else if command = cmdAwakeAll then
    tagCtlAwakeAll tag
  else if command = cmdRemove then
    tagCtlRemove tag
  else
    pure Errno.EILSEQ.neg

/-! ## A call -/

/-- The four calls with their arguments. -/
inductive Call where
  | tagGet (key command permission : Int32)
  | tagSend (tag level : Int32) (buffer : Option (Nat → UInt8)) (size : Nat)
  | tagReceive (tag level : Int32) (bufferNull : Bool) (size : Nat)
  | tagCtl (tag command : Int32)

/-- What a call gives back: its return value and the bytes it stored in the caller's buffer. -/
structure Answer where
  ret : Int
  bytes : List UInt8
  deriving DecidableEq, Repr

/-- The answer of a call that stores nothing in the caller's memory. -/
def Answer.ofRet (ret : Int) : Answer := { ret := ret, bytes := [] }

/-- The routine behind a call. -/
def Call.routine : Call → Kernel Answer
  | .tagGet key command permission => do
      let ret ← Model.tagGet key command permission
      pure (.ofRet ret)
  | .tagSend tag level buffer size => do
      let ret ← Model.tagSend tag level buffer size
      pure (.ofRet ret)
  | .tagReceive tag level bufferNull size => do
      let r ← Model.tagReceive tag level bufferNull size
      pure { ret := r.1, bytes := r.2 }
  | .tagCtl tag command => do
      let ret ← Model.tagCtl tag command
      pure (.ofRet ret)

/-- One call from start to return, with a trace of its own. -/
def Call.exec (c : Call) : Kernel Answer := fun env w => c.routine env { w with trace := [] }

end TagMessaging.Model
