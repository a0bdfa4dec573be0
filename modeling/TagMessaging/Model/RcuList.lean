/-
# TagMessaging.Model.RcuList -- the list of `rcu-list.c`

One call at a time. The walks over the links and the relinkings are pure functions of the elements
(`findLevel`, `findBefore`, `relinkInsert`, `relinkRemove`, `relinkReplace`), so that the
interleaved model of the same list takes them as its steps. A walk takes fuel; running out of it
is the fault of a loop that does not end.

A writer's wait for the readers of the old epoch is `awaitStanding`. When one call runs at a time
nobody is left to lower a positive counter, so there the wait either falls through or spins.
-/
import TagMessaging.Model.Kernel

namespace TagMessaging.Model

open TagMessaging.Lib.Effect

/-! ## Walks over the links -/

/-- `while (p != NULL) { if (p->level == key) break; p = p->next; }` -/
def findLevel (elements : Addr → Option Element) (key : Int32) : Nat → Ptr → Except Fault Ptr
  | _, none => .ok none
  | 0, some _ => .error .spin
  | fuel + 1, some a => do
      let e ← derefElement elements (some a)
      if e.level = key then pure (some a) else findLevel elements key fuel e.next

/-- `while (elem != NULL) { if (elem->next != NULL && elem->next->level == key) …; break;
elem = elem->next; }`: the element before the first later one with the key. -/
def findBefore (elements : Addr → Option Element) (key : Int32) : Nat → Ptr → Except Fault Ptr
  | _, none => .ok none
  | 0, some _ => .error .spin
  | fuel + 1, some a => do
      let e ← derefElement elements (some a)
      match e.next with
      | none => findBefore elements key fuel none
      | some b => do
          let eb ← derefElement elements (some b)
          if eb.level = key then pure (some a) else findBefore elements key fuel (some b)

/-- Store `p` in the `next` field of the element at `a`. -/
def setNext (elements : Addr → Option Element) (a : Addr) (p : Ptr) : Addr → Option Element :=
  Function.update elements a ((elements a).map fun e => { e with next := p })

/-! ## Relinkings -/

/-- A list after a relinking: its elements, its head and the element taken out of it. -/
structure Relinked where
  elements : Addr → Option Element
  head : Ptr
  removed : Ptr

/-- `p->next = l->head; l->head = p;` -/
def relinkInsert (elements : Addr → Option Element) (head : Ptr) (p : Addr) : Relinked where
  elements := setNext elements p head
  head := some p
  removed := none

/-- The relinking of `rcu_list_remove`. -/
def relinkRemove (elements : Addr → Option Element) (fuel : Nat) (head : Ptr) (key : Int32) :
    Except Fault Relinked :=
  match head with
  | none => .ok { elements := elements, head := head, removed := none }
  | some p => do
      let e ← derefElement elements (some p)
      if e.level = key then
        pure { elements := elements, head := e.next, removed := some p }
      else
        match ← findBefore elements key fuel (some p) with
        | none => pure { elements := elements, head := head, removed := none }
        | some q => do
            let eq ← derefElement elements (some q)
            let er ← derefElement elements eq.next
            pure { elements := setNext elements q er.next, head := head, removed := eq.next }

/-- The relinking of `rcu_list_replace`; `none` is its two early returns, for an empty list and for
a list without the key. -/
def relinkReplace (elements : Addr → Option Element) (fuel : Nat) (head : Ptr) (key : Int32)
    (newElement : Addr) : Except Fault (Option Relinked) :=
  match head with
  | none => .ok none
  | some elem => do
      let e ← derefElement elements (some elem)
      if e.level = key then
        pure (some
          { elements := setNext elements newElement e.next
            head := some newElement
            removed := some elem })
      else
        match ← findBefore elements key fuel (some elem) with
        | none => pure none
        | some q => do
            let eq ← derefElement elements (some q)
            let er ← derefElement elements eq.next
            let linked := setNext elements q (some newElement)
            pure (some
              { elements := setNext linked newElement er.next
                head := head
                removed := eq.next })

/-! ## The operations -/

/-- `rcu_list_init`. -/
def rcuListInit (l : Addr) : Kernel Unit :=
  storeList l fun _ =>
    { epoch := 0
      standing := fun _ => 0
      head := none
      readerQueue := fun _ => 0
      ready := fun _ => 0
      waiters := fun _ => 0 }

/-- `while (l->standing[grace_epoch] > 0);` -/
def awaitStanding (l : Addr) (graceEpoch : Fin 2) : Kernel Unit := do
  let list ← loadList l
  if list.standing graceEpoch > 0 then .stop .spin else pure ()

/-- `kmalloc` an element and fill it in; the answer is `NULL` when there is no memory. -/
def newElement (key : Int32) (msg : Ptr) (size : Nat) : Kernel Ptr := do
  let p ← kmallocElement
  match p with
  | none => pure none
  | some a => do
      modifyMem fun m =>
        { m with
          elements := Function.update m.elements a
            (some { next := none, level := key, message := msg, size := size }) }
      pure (some a)

/-- Take over a relinking. -/
def storeRelinked (l : Addr) (r : Relinked) : Kernel Unit := do
  modifyMem fun m => { m with elements := r.elements }
  storeList l fun list => { list with head := r.head }

/-- `rcu_list_insert`. -/
def rcuListInsert (l : Addr) (key : Int32) (msg : Ptr) (size : Nat) : Kernel Int := do
  let p ← newElement key msg size
  match p with
  | none => pure 0
  | some a => do
      listLockIrqsave l
      let list ← loadList l
      let elements ← readMem Mem.elements
      storeRelinked l (relinkInsert elements list.head a)
      storeList l fun list => { list with epoch := list.epoch + 1 }
      awaitStanding l list.epoch
      listUnlockIrqrestore l
      pure 1

/-- `rcu_list_remove`. -/
def rcuListRemove (l : Addr) (key : Int32) : Kernel Int := do
  listLockIrqsave l
  let list ← loadList l
  let m ← readMem id
  let r ← .lift (relinkRemove m.elements m.brk list.head key)
  storeRelinked l r
  awaitStanding l (list.epoch + 1)
  storeList l fun list => { list with epoch := list.epoch + 1 }
  awaitStanding l list.epoch
  listUnlockIrqrestore l
  match r.removed with
  | some a => do
      kfreeElement a
      pure 1
  | none => pure 0

/-- `rcu_list_replace`. Its two early returns leave `write_lock` taken and the new element
allocated. -/
def rcuListReplace (l : Addr) (key : Int32) (msg : Ptr) (size : Nat) : Kernel Int := do
  let p ← newElement key msg size
  match p with
  | none => pure 0
  | some a => do
      listLockIrqsave l
      let list ← loadList l
      let m ← readMem id
      let r ← .lift (relinkReplace m.elements m.brk list.head key a)
      match r with
      | none => pure 0
      | some r => do
          storeRelinked l r
          storeList l fun list => { list with epoch := list.epoch + 1 }
          awaitStanding l list.epoch
          listUnlockIrqrestore l
          match r.removed with
          | some b => do
              kfreeElement b
              pure 1
          | none => pure 0

/-- `wait_event_interruptible(l->readerQueue[key], l->ready[key] == 1)`, entered with the flag at
0: whether a signal ended it. A wake-up comes from another call, which stored 1 in the flag. -/
def waitEventInterruptible (l : Addr) (key : Fin levelDeep) : Kernel Bool := do
  let env ← .ask
  emit .maySleep
  match env.waitEnd with
  | .signal => pure true
  | .woken => do
      storeList l fun list => { list with ready := Function.update list.ready key 1 }
      pure false

/-- `__sync_fetch_and_add(&l->standing[epoch], d)`. -/
def addStanding (l : Addr) (epoch : Fin 2) (d : Int) : Kernel Unit :=
  storeList l fun list =>
    { list with standing := Function.update list.standing epoch (list.standing epoch + d) }

/-- `l->waiters[key] += d`. -/
def addWaiters (l : Addr) (key : Fin levelDeep) (d : Int) : Kernel Unit :=
  storeList l fun list =>
    { list with waiters := Function.update list.waiters key (list.waiters key + d) }

/-- `rcu_list_search`. The branch of a signal lowers `standing` without having raised it. -/
def rcuListSearch (l : Addr) (key : Int32) : Kernel Ptr := do
  let list ← loadList l
  let myEpoch := list.epoch
  let i ← levelIndex key
  storeList l fun list => { list with ready := Function.update list.ready i 0 }
  addWaiters l i 1
  let interrupted ← waitEventInterruptible l i
  if interrupted then
    addStanding l myEpoch (-1)
    addWaiters l i (-1)
    pure none
  else
    addStanding l myEpoch 1
    let list ← loadList l
    let m ← readMem id
    let p ← .lift (findLevel m.elements key m.brk list.head)
    addStanding l myEpoch (-1)
    addWaiters l i (-1)
    pure p

end TagMessaging.Model
