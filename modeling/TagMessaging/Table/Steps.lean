/-
# TagMessaging.Table.Steps -- the table of services under interleaving

Any number of threads call `tag_get`, `tag_send`, `tag_receive` and `tag_ctl`, one step at a time.
A call is cut at every acquire and release of `searchLock`, at its permission check, where it joins
and leaves a wait queue, and in `REMOVE` at the load and the clear of the slot, the `kfree` and the
counter. What runs between two cuts is one step.

`searchLock` is a reader-writer lock word: a release changes it whoever holds the lock, which the
stray `write_unlock` of `AWAKE_ALL` does. A service record is a name in `services`; `kfree` takes it
away, and a step that reads or writes a record that is not there ends the thread in `wild`. What the
calls do to the levels of a service is the subject of `Wakeup` and `Rcu`: here it is that they
access the record. Allocations succeed, and levels are the 32 that a service has.

`freed` and `removals` count, beside the code, how often a name went through `kfree` and how many
`REMOVE` calls that found it returned 0.
-/
import TagMessaging.Model.Service
import TagMessaging.Lib.Transition
import TagMessaging.Lib.RwLock

namespace TagMessaging.Table

open TagMessaging.Model TagMessaging.Lib.Transition TagMessaging.Lib.RwLock

/-! ## Threads -/

/-- The calls that look a service up. -/
inductive Op where
  | open (key : Int32)
  | send (tag : Int32) (level : Fin levelDeep)
  | receive (tag : Int32) (level : Fin levelDeep)
  | awakeAll (tag : Int32)
  | remove (tag : Int32)
  deriving DecidableEq, Repr

/-- The comparison of `searchTAG_Service_withKey` and of `searchTAG_Service_withTag`. -/
def Op.test : Op → TAGService → Bool
  | .open key, service => service.key = key
  | .send tag _, service | .receive tag _, service | .awakeAll tag, service
  | .remove tag, service =>
      service.tag = tag.toUInt32

/-- Where a thread stands; `a` is its local variable `service`. -/
inductive Pc where
  | idle
  -- tag_get_CREATE
  /-- Before the capacity test. -/
  | creating (c : Caller) (key perm : Int32)
  /-- Before `write_lock`. -/
  | admitted (c : Caller) (key perm : Int32)
  /-- The lock is held; a public key is searched next. -/
  | writing (c : Caller) (key perm : Int32)
  /-- The key was found: `write_unlock` and `-EBADR` ahead. -/
  | refused
  /-- In `new_TAG_Service`. -/
  | choosing (c : Caller) (key perm : Int32)
  /-- `tagServices[i]` was read as `NULL`. -/
  | filling (c : Caller) (key perm : Int32) (i : Fin minSysTagServices)
  | filled (key : Int32) (a : Addr)
  /-- A public service: the counter is raised, `write_unlock` ahead. -/
  | counted (a : Addr)
  /-- A private one: the lock is released, the counter ahead. -/
  | unlocked (a : Addr)
  /-- `return service->tag;` -/
  | created (a : Addr)
  -- the other calls, up to the permission check
  | looking (c : Caller) (op : Op)
  | reading (c : Caller) (op : Op)
  /-- Not found: `read_unlock` ahead. -/
  | missed
  /-- `read_unlock` ahead, in `REMOVE` the permission check. -/
  | found (c : Caller) (op : Op) (a : Addr)
  /-- The lock is released, the permission check ahead. -/
  | holding (c : Caller) (op : Op) (a : Addr)
  -- tag_get_OPEN: `return service->tag;`
  | opening (a : Addr)
  -- tag_send
  | sending (level : Fin levelDeep) (a : Addr)
  /-- `list_replace` is done, `waitqueue_active` ahead. -/
  | replaced (level : Fin levelDeep) (a : Addr)
  /-- The store in `ready` and `wake_up_all` ahead. -/
  | noticed (level : Fin levelDeep) (a : Addr)
  -- tag_receive
  | receiving (level : Fin levelDeep) (a : Addr)
  | queued (level : Fin levelDeep) (a : Addr)
  /-- Taken out of the queue by a `wake_up_all`. -/
  | awakened (level : Fin levelDeep) (a : Addr)
  /-- Out of the wait, the rest of `rcu_list_search` ahead. -/
  | left (a : Addr)
  -- tag_ctl_TBDE_AWAKE_ALL
  | waking (level : Fin levelDeep) (a : Addr)
  /-- `write_unlock` ahead. -/
  | awoken
  -- tag_ctl_TBDE_REMOVE, with the lock held
  /-- The caller is permitted, the look at the queues ahead. -/
  | checked (a : Addr)
  /-- `tmp = tagServices[service->tag];` ahead. -/
  | unused (a : Addr)
  /-- `tagServices[service->tag] = NULL;` ahead. -/
  | loaded (a : Addr) (tmp : Ptr)
  /-- `kfree(tmp)` ahead. -/
  | cleared (a : Addr) (tmp : Ptr)
  /-- The counter ahead. -/
  | freed (a : Addr)
  /-- `read_unlock` and `return 0;` ahead. -/
  | discounted (a : Addr)
  /-- The thread accessed a record that is not there, or a slot that is not. -/
  | wild
  deriving DecidableEq, Repr

/-- What a thread does next. -/
inductive Act where
  /-- The next step of the call it is in. -/
  | advance
  /-- A call of `tag_get` with `CREATE`, past the checks of `tag_get`. -/
  | create (c : Caller) (key perm : Int32)
  | call (c : Caller) (op : Op)
  /-- A woken receiver tests its flag, finds it reset and joins the queue again. -/
  | sleepAgain
  deriving DecidableEq, Repr

/-! ## States and steps -/

/-- The table, the records, the lock word and the threads. -/
structure St (τ : Type) where
  slots : Fin minSysTagServices → Ptr
  serviceCount : UInt32
  services : Addr → Option TAGService
  brk : Addr
  lock : Word
  freed : Addr → Nat
  removals : Addr → Nat
  pc : τ → Pc

variable {τ : Type}

/-- After `initService`. -/
def initial : St τ where
  slots := fun _ => none
  serviceCount := 0
  services := fun _ => none
  brk := 0
  lock := .free
  freed := fun _ => 0
  removals := fun _ => 0
  pc := fun _ => .idle

/-- The record `new_TAG_Service` fills in for slot `i`. -/
def newService (c : Caller) (key perm : Int32) (i : Fin minSysTagServices) : TAGService where
  key := key
  tag := UInt32.ofNat i
  uidCreator := c.tgid
  perm := perm
  levels :=
    { epoch := 0
      standing := fun _ => 0
      head := none
      readerQueue := fun _ => 0
      ready := fun _ => 0
      waiters := fun _ => 0 }

/-- A linear search of the table; `none` when it reads a record that is not there. -/
def search (s : St τ) (test : TAGService → Bool) : List (Fin minSysTagServices) → Option Ptr
  | [] => some none
  | i :: is =>
      match s.slots i with
      | none => search s test is
      | some a =>
          match s.services a with
          | none => none
          | some service => if test service then some (some a) else search s test is

/-- The first slot that is `NULL`. -/
def freeSlot (s : St τ) : Option (Fin minSysTagServices) :=
  (List.finRange minSysTagServices).find? fun i => s.slots i = none

/-- `service->tag` as an index of the table. -/
def tagIndex (service : TAGService) : Option (Fin minSysTagServices) :=
  if h : service.tag.toNat < minSysTagServices then some ⟨service.tag.toNat, h⟩ else none

/-- The thread waits in the queue of a level of the service `a`. -/
def Pc.InQueue (a : Addr) (p : Pc) : Prop := ∃ level, p = .queued level a

instance (a : Addr) (p : Pc) : Decidable (p.InQueue a) := by
  cases p with
  | queued level b =>
      exact decidable_of_iff (b = a) (by simp [Pc.InQueue])
  | _ => exact isFalse (by simp [Pc.InQueue])

/-- `waitqueue_active` on the queue of a level. -/
def WaitqueueActive (s : St τ) (level : Fin levelDeep) (a : Addr) : Prop :=
  ∃ u, s.pc u = .queued level a

instance [Fintype τ] (s : St τ) (level : Fin levelDeep) (a : Addr) :
    Decidable (WaitqueueActive s level a) := inferInstanceAs (Decidable (∃ _, _))

/-- `waitqueue_active` on some queue of the service. -/
def HasSleepers (s : St τ) (a : Addr) : Prop := ∃ u, (s.pc u).InQueue a

instance [Fintype τ] (s : St τ) (a : Addr) : Decidable (HasSleepers s a) :=
  inferInstanceAs (Decidable (∃ _, _))

/-- The thread after `wake_up_all` on the queue of a level. -/
def Pc.wake (level : Fin levelDeep) (a : Addr) (p : Pc) : Pc :=
  if p = .queued level a then .awakened level a else p

/-- What a call does after its permission check. -/
def Op.start (a : Addr) : Op → Pc
  | .open _ => .opening a
  | .send _ level => .sending level a
  | .receive _ level => .receiving level a
  | .awakeAll _ => .waking 0 a
  | .remove _ => .checked a

/-- The loop of `AWAKE_ALL` after the level. -/
def nextLevel (level : Fin levelDeep) (a : Addr) : Pc :=
  if h : level + 1 < levelDeep then .waking ⟨level + 1, h⟩ a else .awoken

/-- An operation on `searchLock`. -/
def St.lockOp (s : St τ) (op : LockOp) : St τ := { s with lock := s.lock.apply op }

/-- `__sync_add_and_fetch(&serviceCount, d)`. -/
def St.addCount (s : St τ) (d : UInt32) : St τ := { s with serviceCount := s.serviceCount + d }

/-- `tagServices[i] = kmalloc(..)` and the stores that fill the record in. -/
def St.fill (s : St τ) (i : Fin minSysTagServices) (service : TAGService) : St τ :=
  { s with
    services := Function.update s.services s.brk (some service)
    slots := Function.update s.slots i (some s.brk)
    brk := s.brk + 1 }

/-- `tagServices[i] = NULL`. -/
def St.clear (s : St τ) (i : Fin minSysTagServices) : St τ :=
  { s with slots := Function.update s.slots i none }

/-- `kfree`, which does nothing to `NULL`. -/
def St.kfree (s : St τ) : Ptr → St τ
  | none => s
  | some a =>
      { s with
        services := Function.update s.services a none
        freed := Function.update s.freed a (s.freed a + 1) }

/-- `wake_up_all` on the queue of a level. -/
def St.wakeAll (s : St τ) (level : Fin levelDeep) (a : Addr) : St τ :=
  { s with pc := fun u => (s.pc u).wake level a }

variable [DecidableEq τ]

/-- Thread `t` goes on to `p`. -/
def St.goto (s : St τ) (t : τ) (p : Pc) : St τ := { s with pc := Function.update s.pc t p }

/-- A step that accesses the record `a`. -/
def St.access (s : St τ) (t : τ) (a : Addr) (next : TAGService → St τ) : St τ :=
  match s.services a with
  | none => s.goto t .wild
  | some service => next service

/-- A step that accesses the slot of the record `a`. -/
def St.accessSlot (s : St τ) (t : τ) (a : Addr) (next : Fin minSysTagServices → St τ) : St τ :=
  s.access t a fun service =>
    match tagIndex service with
    | none => s.goto t .wild
    | some i => next i

/-- An acquire of `searchLock`; `none` while it is not granted. -/
def St.acquire (s : St τ) (t : τ) (op : LockOp) (p : Pc) : Option (St τ) :=
  if s.lock.Grants op then some ((s.lockOp op).goto t p) else none

/-- A search of the table, and where the thread goes with its result. -/
def St.lookup (s : St τ) (t : τ) (test : TAGService → Bool) (next : Ptr → Pc) : St τ :=
  match search s test (List.finRange minSysTagServices) with
  | none => s.goto t .wild
  | some p => s.goto t (next p)

/-- The next step of thread `t`; `none` where it has to wait. -/
def advance [Fintype τ] (s : St τ) (t : τ) : Option (St τ) :=
  match s.pc t with
  | .idle => none
  | .creating c key perm =>
      some (s.goto t
        (if s.serviceCount ≥ UInt32.ofNat minSysTagServices then .idle else .admitted c key perm))
  | .admitted c key perm => s.acquire t .writeLock (.writing c key perm)
  | .writing c key perm =>
      if key = tagIpcPrivate then some (s.goto t (.choosing c key perm))
      else
        some (s.lookup t (fun service => service.key = key) fun
          | none => .choosing c key perm
          | some _ => .refused)
  | .refused => some ((s.lockOp .writeUnlock).goto t .idle)
  | .choosing c key perm =>
      match freeSlot s with
      | none => some (s.goto t .idle)
      | some i => some (s.goto t (.filling c key perm i))
  | .filling c key perm i =>
      some ((s.fill i (newService c key perm i)).goto t (.filled key s.brk))
  | .filled key a =>
      if key = tagIpcPrivate then some ((s.lockOp .writeUnlock).goto t (.unlocked a))
      else some ((s.addCount 1).goto t (.counted a))
  | .counted a => some ((s.lockOp .writeUnlock).goto t (.created a))
  | .unlocked a => some ((s.addCount 1).goto t (.created a))
  | .created a => some (s.access t a fun _ => s.goto t .idle)
  | .looking c op => s.acquire t .readLock (.reading c op)
  | .reading c op =>
      some (s.lookup t op.test fun
        | none => .missed
        | some a => .found c op a)
  | .missed => some ((s.lockOp .readUnlock).goto t .idle)
  | .found c (.remove _) a =>
      some (s.access t a fun service =>
        s.goto t (if validServiceOperation c service then .checked a else .idle))
  | .found c op a => some ((s.lockOp .readUnlock).goto t (.holding c op a))
  | .holding c op a =>
      some (s.access t a fun service =>
        s.goto t (if validServiceOperation c service then op.start a else .idle))
  | .opening a => some (s.access t a fun _ => s.goto t .idle)
  | .sending level a => some (s.access t a fun _ => s.goto t (.replaced level a))
  | .replaced level a =>
      some (s.access t a fun _ =>
        s.goto t (if WaitqueueActive s level a then .noticed level a else .idle))
  | .noticed level a => some (s.access t a fun _ => (s.wakeAll level a).goto t .idle)
  | .receiving level a => some (s.access t a fun _ => s.goto t (.queued level a))
  | .queued _ a => some (s.access t a fun _ => s.goto t (.left a))
  | .awakened _ a => some (s.access t a fun _ => s.goto t (.left a))
  | .left a => some (s.access t a fun _ => s.goto t .idle)
  | .waking level a =>
      some (s.access t a fun _ => (s.wakeAll level a).goto t (nextLevel level a))
  | .awoken => some ((s.lockOp .writeUnlock).goto t .idle)
  | .checked a =>
      some (s.access t a fun _ => s.goto t (if HasSleepers s a then .idle else .unused a))
  | .unused a => some (s.accessSlot t a fun i => s.goto t (.loaded a (s.slots i)))
  | .loaded a tmp => some (s.accessSlot t a fun i => (s.clear i).goto t (.cleared a tmp))
  | .cleared a tmp => some ((s.kfree tmp).goto t (.freed a))
  | .freed a => some ((s.addCount (-1)).goto t (.discounted a))
  | .discounted a =>
      some ({ s.lockOp .readUnlock with
        removals := Function.update s.removals a (s.removals a + 1) }.goto t .idle)
  | .wild => none

/-- One step of one thread. -/
def step [Fintype τ] (s : St τ) : τ × Act → Option (St τ)
  | (t, .advance) => advance s t
  | (t, .create c key perm) =>
      if s.pc t = .idle then some (s.goto t (.creating c key perm)) else none
  | (t, .call c op) => if s.pc t = .idle then some (s.goto t (.looking c op)) else none
  | (t, .sleepAgain) =>
      match s.pc t with
      | .awakened level a => some (s.access t a fun _ => s.goto t (.queued level a))
      | _ => none

/-- The table and its threads. -/
def table (τ : Type) [DecidableEq τ] [Fintype τ] : System (St τ) (τ × Act) :=
  System.ofStep initial step

/-! ## What a thread holds -/

/-- The thread has found or created the service `a` and has still to access it, or to free it. -/
def Pc.Touches (a : Addr) : Pc → Prop
  | .filled _ b | .counted b | .unlocked b | .created b | .found _ _ b | .holding _ _ b
  | .opening b | .sending _ b | .replaced _ b | .noticed _ b | .receiving _ b | .queued _ b
  | .awakened _ b | .left b | .waking _ b | .checked b | .unused b => b = a
  | .loaded b tmp => b = a ∨ tmp = some a
  | .cleared _ tmp => tmp = some a
  | _ => False

instance (a : Addr) (p : Pc) : Decidable (p.Touches a) := by
  rcases p <;> dsimp only [Pc.Touches] <;> infer_instance

end TagMessaging.Table
