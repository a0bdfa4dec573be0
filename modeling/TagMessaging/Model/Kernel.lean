/-
# TagMessaging.Model.Kernel -- the memory of the module and what it asks of the kernel

The records of `TAG_Messaging.h` and `list.h`, the allocated memory they live in, and the kernel
services the module calls, as actions over that memory. Nothing here decides anything: the
functions of the source are in the modules that follow.

Boundary of the model.

* `int` is `Int32` and `unsigned int` is `UInt32`; `size_t` and byte counts are `Nat`; `long` and
  the counters `standing`, `waiters` and `ready` are `Int`.
* Memory is a map from names to typed blocks. Every allocation takes a fresh name, `kfree` and
  `vfree` take the block away, and a load or store through a pointer whose block is gone, or
  through `NULL`, or past the end of an array, stops the call with a `Fault`.
* A lock operation is recorded in the trace of the call and changes the interrupt state; it does
  not wait. Who may hold the lock at the same time is the subject of the interleaved models.
* `printk` and `AUDIT` lines are left out.
-/
import TagMessaging.Lib.Effect
import TagMessaging.Lib.RwLock

namespace TagMessaging.Model

open TagMessaging.Lib.Effect

/-! ## Constants -/

/-- Number of levels of a service (`levelDeep`). -/
def levelDeep : Nat := 32

/-- Longest message, in bytes (`MAX_MESSAGE_SIZE`). -/
def maxMessageSize : Nat := 4096

/-- Number of slots of the table (`min_sys_TAG_Services`, which is also `MAX_SERVICE_NUM`). -/
def minSysTagServices : Nat := 256

/-- Numerals of the index types: epochs, levels, slots, and threads in a run of three. -/
instance neZeroTwo : NeZero (2 : Nat) := ⟨by decide⟩
instance neZeroThree : NeZero (3 : Nat) := ⟨by decide⟩
instance neZeroLevelDeep : NeZero levelDeep := ⟨by decide⟩
instance neZeroServices : NeZero minSysTagServices := ⟨by decide⟩

theorem toNat_lt {z : Int} {n : Nat} (h : 0 ≤ z ∧ z < n) : z.toNat < n := by
  omega

/-- An integer in range as an index. -/
abbrev indexOf {n : Nat} (z : Int) (h : 0 ≤ z ∧ z < n) : Fin n := ⟨z.toNat, toNat_lt h⟩

/-- `enum tag_get_KEY`. -/
def tagIpcPrivate : Int32 := -1

/-- `enum tag_get_command`. -/
def cmdCreate : Int32 := 0
def cmdOpen : Int32 := 1

/-- `enum tag_get_permission`. -/
def openRoom : Int32 := 0
def privateRoom : Int32 := 1

/-- `enum tag_ctl_command`. -/
def cmdAwakeAll : Int32 := 0
def cmdRemove : Int32 := 1

/-- The error numbers the calls answer with. -/
inductive Errno where
  | EFAULT | ENOSYS | ENOMSG | EBADR | EXFULL | EBADRQC | EBADSLT | ENODATA | ENOSR | EBADMSG
  | EILSEQ | EADDRINUSE | ETOOMANYREFS | EUCLEAN
  deriving DecidableEq, Repr

/-- Their values in `errno.h`. -/
def Errno.value : Errno → Int
  | .EFAULT => 14
  | .ENOSYS => 38
  | .ENOMSG => 42
  | .EBADR => 53
  | .EXFULL => 54
  | .EBADRQC => 56
  | .EBADSLT => 57
  | .ENODATA => 61
  | .ENOSR => 63
  | .EBADMSG => 74
  | .EILSEQ => 84
  | .EADDRINUSE => 98
  | .ETOOMANYREFS => 109
  | .EUCLEAN => 117

/-- `-E…` as a return value. -/
def Errno.neg (e : Errno) : Int := -e.value

theorem Errno.neg_lt_zero (e : Errno) : e.neg < 0 := by
  cases e <;> decide

/-! ## Records -/

/-- The name of an allocated block. -/
abbrev Addr := Nat

/-- A pointer: `none` is `NULL`. -/
abbrev Ptr := Option Addr

/-- `element`: one level's message. -/
structure Element where
  next : Ptr
  level : Int32
  message : Ptr
  size : Nat
  deriving DecidableEq, Repr

/-- `rcu_list`. Its `write_lock` is known by the name of the record the list sits in, and
`readerQueue` is the number of threads in each wait queue. -/
structure RcuList where
  epoch : Fin 2
  standing : Fin 2 → Int
  head : Ptr
  readerQueue : Fin levelDeep → Nat
  ready : Fin levelDeep → Int
  waiters : Fin levelDeep → Int

/-- `TAG_Service`. -/
structure TAGService where
  key : Int32
  tag : UInt32
  uidCreator : Int32
  perm : Int32
  levels : RcuList

/-- What the module keeps in memory: the table, its counter and the allocated blocks. -/
structure Mem where
  tagServices : Fin minSysTagServices → Ptr
  serviceCount : UInt32
  services : Addr → Option TAGService
  elements : Addr → Option Element
  buffers : Addr → Option (List UInt8)
  /-- The next fresh name. -/
  brk : Addr

/-! ## Events, faults and the world -/

/-- The four operations on `searchLock`. -/
abbrev LockOp := Lib.RwLock.Op

/-- What a call does that the memory does not show. -/
inductive Event where
  /-- `try_module_get`, with its answer. -/
  | moduleGet (ok : Bool)
  | modulePut
  | searchLock (op : LockOp)
  /-- `write_lock` of the list in the record `l`. -/
  | listLock (l : Addr)
  | listUnlock (l : Addr)
  /-- An operation that may sleep: a `GFP_KERNEL` allocation, a user copy, a wait. -/
  | maySleep
  deriving DecidableEq, Repr

/-- Why a call does not come back with a value. -/
inductive Fault where
  | nullPointer
  /-- The block was freed, or never allocated. -/
  | dangling (a : Addr)
  /-- An array index outside its array. -/
  | outOfRange (i : Int)
  /-- A loop whose condition nobody is left to change. -/
  | spin
  deriving DecidableEq, Repr

/-- Memory, the interrupt state of the CPU, the file-level `flags` of `rcu-list.c` and the trace of
the current call. -/
structure World where
  mem : Mem
  irq : Bool
  flags : Bool
  trace : List Event

/-- How `wait_event_interruptible` ends. -/
inductive WaitEnd where
  /-- Another call stored 1 in `ready[key]` and executed `wake_up_all`. -/
  | woken
  | signal
  deriving DecidableEq, Repr

/-- `current`: its thread group and whether its `uid` is 0. -/
structure Caller where
  tgid : Int32
  isRoot : Bool
  deriving DecidableEq, Repr

/-- What the kernel answers during one call. -/
structure Env where
  caller : Caller
  /-- The answer of `try_module_get`. -/
  moduleLive : Bool
  /-- The bytes `copy_from_user` leaves uncopied. -/
  notCopied : Nat
  waitEnd : WaitEnd
  /-- The bytes successive calls of `copy_to_user` leave uncopied; after these it copies all. -/
  notSent : List Nat
  /-- Whether the allocation of this name fails. -/
  kmallocFails : Addr → Bool
  /-- What fresh blocks happen to hold. -/
  staleService : Addr → TAGService
  staleElement : Addr → Element

/-- A routine of the module. -/
abbrev Kernel (α : Type) := Action Env World Fault α

/-! ## Kernel services -/

/-- Record an event. -/
def emit (ev : Event) : Kernel Unit := .modify fun w => { w with trace := w.trace ++ [ev] }

/-- Change memory. -/
def modifyMem (f : Mem → Mem) : Kernel Unit := .modify fun w => { w with mem := f w.mem }

/-- Read memory. -/
def readMem {α : Type} (f : Mem → α) : Kernel α := do
  let w ← .get
  pure (f w.mem)

def tryModuleGet : Kernel Bool := do
  let env ← .ask
  emit (.moduleGet env.moduleLive)
  pure env.moduleLive

def modulePut : Kernel Unit := emit .modulePut

/-- `…_lock_irqsave(&searchLock, flags)`: the answer is what is saved in the local `flags`. -/
def searchLockIrqsave (op : LockOp) : Kernel Bool := do
  let w ← .get
  .modify fun w => { w with irq := false }
  emit (.searchLock op)
  pure w.irq

/-- `…_unlock_irqrestore(&searchLock, flags)`. -/
def searchUnlockIrqrestore (op : LockOp) (saved : Bool) : Kernel Unit := do
  emit (.searchLock op)
  .modify fun w => { w with irq := saved }

/-- `write_lock_irqsave(&l->write_lock, flags)` of `rcu-list.c`, where `flags` is file-level. -/
def listLockIrqsave (l : Addr) : Kernel Unit := do
  .modify fun w => { w with flags := w.irq, irq := false }
  emit (.listLock l)

def listUnlockIrqrestore (l : Addr) : Kernel Unit := do
  emit (.listUnlock l)
  .modify fun w => { w with irq := w.flags }

/-- `kmalloc(sizeof(TAG_Service), …)`. -/
def kmallocService : Kernel Ptr := do
  let env ← .ask
  let a ← readMem Mem.brk
  emit .maySleep
  if env.kmallocFails a then
    modifyMem fun m => { m with brk := a + 1 }
    pure none
  else
    modifyMem fun m =>
      { m with brk := a + 1, services := Function.update m.services a (some (env.staleService a)) }
    pure (some a)

/-- `kmalloc(sizeof(element), GFP_KERNEL)`. -/
def kmallocElement : Kernel Ptr := do
  let env ← .ask
  let a ← readMem Mem.brk
  emit .maySleep
  if env.kmallocFails a then
    modifyMem fun m => { m with brk := a + 1 }
    pure none
  else
    modifyMem fun m =>
      { m with brk := a + 1, elements := Function.update m.elements a (some (env.staleElement a)) }
    pure (some a)

/-- `vzalloc(size)`; a request for no bytes gives `NULL`. -/
def vzalloc (size : Nat) : Kernel Ptr := do
  let env ← .ask
  let a ← readMem Mem.brk
  emit .maySleep
  if size = 0 ∨ env.kmallocFails a then
    modifyMem fun m => { m with brk := a + 1 }
    pure none
  else
    modifyMem fun m =>
      { m with
        brk := a + 1
        buffers := Function.update m.buffers a (some (List.replicate size 0)) }
    pure (some a)

/-- `vfree`. -/
def vfree (p : Ptr) : Kernel Unit :=
  match p with
  | none => pure ()
  | some a => modifyMem fun m => { m with buffers := Function.update m.buffers a none }

/-- `kfree` of a service record. -/
def kfreeService (p : Ptr) : Kernel Unit :=
  match p with
  | none => pure ()
  | some a => modifyMem fun m => { m with services := Function.update m.services a none }

/-- `kfree` of a list element. -/
def kfreeElement (a : Addr) : Kernel Unit :=
  modifyMem fun m => { m with elements := Function.update m.elements a none }

/-- `copy_from_user(buf, buffer, size)`: the number of bytes left uncopied. -/
def copyFromUser (buf : Ptr) (buffer : Nat → UInt8) (size : Nat) : Kernel Nat := do
  let env ← .ask
  emit .maySleep
  let left := min env.notCopied size
  match buf with
  | none => if size = 0 then pure 0 else .stop .nullPointer
  | some a => do
      modifyMem fun m =>
        { m with
          buffers := Function.update m.buffers a
            (some ((List.range (size - left)).map buffer ++ List.replicate left 0)) }
      pure left

/-! ## Loads and stores -/

/-- Load through a pointer to a service record. -/
def loadService (p : Ptr) : Kernel TAGService :=
  match p with
  | none => .stop .nullPointer
  | some a => do
      match ← readMem (fun m => m.services a) with
      | none => .stop (.dangling a)
      | some s => pure s

/-- Store through a pointer to a service record. -/
def storeService (p : Ptr) (f : TAGService → TAGService) : Kernel Unit := do
  let s ← loadService p
  match p with
  | none => pure ()
  | some a =>
      modifyMem fun m => { m with services := Function.update m.services a (some (f s)) }

/-- Load from the list in the record at `l`. -/
def loadList (l : Addr) : Kernel RcuList := do
  let s ← loadService (some l)
  pure s.levels

/-- Store in the list in the record at `l`. -/
def storeList (l : Addr) (f : RcuList → RcuList) : Kernel Unit :=
  storeService (some l) fun s => { s with levels := f s.levels }

/-- The element a pointer leads to. -/
def derefElement (elements : Addr → Option Element) (p : Ptr) : Except Fault Element :=
  match p with
  | none => .error .nullPointer
  | some a =>
    match elements a with
    | none => .error (.dangling a)
    | some e => .ok e

/-- The slot `tagServices[i]`. -/
def loadSlot (i : Fin minSysTagServices) : Kernel Ptr := readMem fun m => m.tagServices i

def storeSlot (i : Fin minSysTagServices) (p : Ptr) : Kernel Unit :=
  modifyMem fun m => { m with tagServices := Function.update m.tagServices i p }

/-- `i` as an index of an array with an entry for each level. -/
def levelIndex (i : Int32) : Kernel (Fin levelDeep) :=
  if h : 0 ≤ i.toInt ∧ i.toInt < levelDeep then
    pure (indexOf i.toInt h)
  else
    .stop (.outOfRange i.toInt)

/-- `tag` as an index of the table. -/
def slotIndex (tag : UInt32) : Kernel (Fin minSysTagServices) :=
  if h : tag.toNat < minSysTagServices then
    pure ⟨tag.toNat, h⟩
  else
    .stop (.outOfRange tag.toNat)

end TagMessaging.Model
