/-
# TagMessaging.Rcu.Steps -- the list of `rcu-list.c` under interleaving

Any number of threads run `rcu_list_search`, `rcu_list_insert`, `rcu_list_replace` and
`rcu_list_remove` on one list, one atomic step at a time in sequentially consistent memory. A `Pc`
says between which two statements a thread stands and holds its local variables. The walks and
relinkings are those of `Model.RcuList`: a writer relinks in one step, under `write_lock`; a reader
makes one step for each pointer hop.

A test of `standing` that does not let the writer through changes nothing and is not a step. A
thread asleep in `wait_event_interruptible` goes on after a `wake_up_all` of its queue or a signal.
The counter `waiters`, which no list operation reads, is left to the models that are about it.
-/
import TagMessaging.Model.RcuList
import TagMessaging.Model.Links
import TagMessaging.Lib.Transition

namespace TagMessaging.Rcu

open TagMessaging.Model TagMessaging.Lib.Transition

/-! ## Threads -/

/-- A write to the list, as its caller asks for it. -/
inductive Write where
  | insert (x : Entry)
  | replace (x : Entry)
  | remove (key : Int32)
  deriving DecidableEq, Repr

/-- The same with its element allocated and filled in. -/
inductive Change where
  | insert (a : Addr)
  | replace (key : Int32) (a : Addr)
  | remove (key : Int32)
  deriving DecidableEq, Repr

/-- The element a change brings along. -/
def Change.newElement : Change → Ptr
  | .insert a => some a
  | .replace _ a => some a
  | .remove _ => none

/-- Where a thread stands. `e` is the reader's `my_epoch`, `g` the writer's `grace_epoch`. -/
inductive Pc where
  | idle
  -- rcu_list_search
  /-- `my_epoch` is loaded. -/
  | sampled (key : Int32) (e : Fin 2)
  /-- `ready[key]` is reset and the thread is in the queue, about to test the flag. -/
  | queued (key : Int32) (i : Fin levelDeep) (e : Fin 2)
  | asleep (key : Int32) (i : Fin levelDeep) (e : Fin 2)
  /-- The wait returned `-ERESTARTSYS`. -/
  | signalled (e : Fin 2)
  | woken (key : Int32) (e : Fin 2)
  /-- `standing[my_epoch]` is raised. -/
  | counted (key : Int32) (e : Fin 2)
  /-- In the loop, with `p` to be looked at. -/
  | walking (key : Int32) (e : Fin 2) (p : Ptr)
  /-- Out of the loop with `p`, `standing[my_epoch]` not lowered yet. -/
  | leaving (e : Fin 2) (p : Ptr)
  /-- `rcu_list_search` has returned `p`. -/
  | returned (p : Ptr)
  -- a thread that sets the flag of a level and wakes its queue
  | notifying (i : Fin levelDeep)
  -- rcu_list_insert, rcu_list_replace and rcu_list_remove
  | prepared (c : Change)
  | locked (c : Change)
  /-- `rcu_list_remove` after its relinking and its load of `grace_epoch`, before
  `while (l->standing[temp] > 0);`. -/
  | unlinked (removed : Ptr) (g : Fin 2)
  /-- Before the store of the new epoch. -/
  | relinked (removed : Ptr) (g : Fin 2)
  /-- Before `while (l->standing[grace_epoch] > 0);`. -/
  | flipped (removed : Ptr) (g : Fin 2)
  | drained (removed : Ptr)
  /-- `write_lock` released, `kfree(removed)` ahead. -/
  | unlocked (removed : Ptr)
  /-- The reader followed a pointer to an element that is not there. -/
  | lost (e : Fin 2)
  /-- The thread made another access that C gives no meaning. -/
  | wild
  deriving DecidableEq, Repr

/-- What a thread does next. -/
inductive Act where
  /-- The next statement of the operation it is in. -/
  | advance
  /-- A call of `rcu_list_search`. -/
  | search (key : Int32)
  /-- A call of a writer, and whether its `kmalloc` fails. -/
  | write (op : Write) (kmallocFails : Bool)
  /-- The store of 1 in `ready[i]`, which a `wake_up_all` of the queue follows. -/
  | notify (i : Fin levelDeep)
  /-- A signal for a thread asleep. -/
  | signal
  deriving DecidableEq, Repr

/-! ## States and steps -/

/-- The elements, the list record, its `write_lock` and the threads. -/
structure St (τ : Type) where
  elements : Addr → Option Element
  brk : Addr
  list : RcuList
  lock : Option τ
  pc : τ → Pc

variable {τ : Type}

/-- After `rcu_list_init`, before any call. -/
def initial : St τ where
  elements := fun _ => none
  brk := 0
  list :=
    { epoch := 0
      standing := fun _ => 0
      head := none
      readerQueue := fun _ => 0
      ready := fun _ => 0
      waiters := fun _ => 0 }
  lock := none
  pc := fun _ => .idle

/-- Thread `t` goes on to `p`. -/
def St.goto [DecidableEq τ] (s : St τ) (t : τ) (p : Pc) : St τ :=
  { s with pc := Function.update s.pc t p }

/-- `l->ready[i] = v`. -/
def St.setReady (s : St τ) (i : Fin levelDeep) (v : Int) : St τ :=
  { s with list := { s.list with ready := Function.update s.list.ready i v } }

/-- `__sync_fetch_and_add(&l->standing[e], d)`. -/
def St.addStanding (s : St τ) (e : Fin 2) (d : Int) : St τ :=
  { s with
    list := { s.list with
      standing := Function.update s.list.standing e (s.list.standing e + d) } }

@[simp] theorem setReady_pc (s : St τ) (i : Fin levelDeep) (v : Int) :
    (s.setReady i v).pc = s.pc := rfl

@[simp] theorem addStanding_pc (s : St τ) (e : Fin 2) (d : Int) :
    (s.addStanding e d).pc = s.pc := rfl

@[simp] theorem goto_pc_self [DecidableEq τ] (s : St τ) (t : τ) (p : Pc) : (s.goto t p).pc t = p :=
  Function.update_self ..

/-- `key` as an index of `ready` and `readerQueue`. -/
def readyIndex (key : Int32) : Option (Fin levelDeep) :=
  if h : 0 ≤ key.toInt ∧ key.toInt < levelDeep then
    some (indexOf key.toInt h)
  else
    none

/-- The thread after `wake_up_all(&l->readerQueue[i])`. -/
def Pc.wake (i : Fin levelDeep) : Pc → Pc
  | .asleep key j e => if j = i then .queued key j e else .asleep key j e
  | p => p

/-- The element of a call, allocated under the name `a`. -/
def Write.prepare (a : Addr) : Write → Change
  | .insert _ => .insert a
  | .replace x => .replace x.level a
  | .remove key => .remove key

/-- The content of the element a call allocates. -/
def Write.entry : Write → Option Entry
  | .insert x => some x
  | .replace x => some x
  | .remove _ => none

/-- The relinking of a change; `none` is the early return of `rcu_list_replace`. -/
def Change.relink (s : St τ) : Change → Except Fault (Option Relinked)
  | .insert a => .ok (some (relinkInsert s.elements s.list.head a))
  | .replace key a => relinkReplace s.elements s.brk s.list.head key a
  | .remove key => (relinkRemove s.elements s.brk s.list.head key).map some

/-- What the writer does after its relinking: only `rcu_list_remove` waits for the other epoch
before it stores the new one. -/
def Change.relinked : Change → Ptr → Fin 2 → Pc
  | .remove _, removed, g => .unlinked removed g
  | _, removed, g => .relinked removed g

/-- `kmalloc` of an element and the stores that fill it in. -/
def St.allocate (s : St τ) (x : Entry) : St τ :=
  { s with
    elements := Function.update s.elements s.brk
      (some { next := none, level := x.level, message := x.message, size := x.size })
    brk := s.brk + 1 }

/-- One hop: `if (p->level == key) break; p = p->next;`. -/
def St.hop (s : St τ) (key : Int32) (e : Fin 2) : Ptr → Pc
  | none => .leaving e none
  | some a =>
      match s.elements a with
      | none => .lost e
      | some el => if el.level = key then .leaving e (some a) else .walking key e el.next

/-- `if (removed) kfree(removed);` -/
def St.kfree (s : St τ) : Ptr → St τ
  | none => s
  | some a => { s with elements := Function.update s.elements a none }

variable [DecidableEq τ]

/-- A call of a writer: the allocation comes before the lock, and a failure returns 0. -/
def St.write (s : St τ) (t : τ) (op : Write) (kmallocFails : Bool) : St τ :=
  match op.entry with
  | none => s.goto t (.prepared (op.prepare s.brk))
  | some x => if kmallocFails then s else (s.allocate x).goto t (.prepared (op.prepare s.brk))

/-- The relinking of a writer that holds the lock, and its `grace_epoch = l->epoch;`. -/
def St.relink (s : St τ) (t : τ) (c : Change) : St τ :=
  match c.relink s with
  | .error _ => s.goto t .wild
  | .ok none => s.goto t .idle
  | .ok (some r) =>
      ({ s with elements := r.elements, list := { s.list with head := r.head } }).goto t
        (c.relinked r.removed s.list.epoch)

/-- The next statement of thread `t`; `none` where it has to wait. -/
def advance (s : St τ) (t : τ) : Option (St τ) :=
  match s.pc t with
  | .idle => none
  | .sampled key e =>
      match readyIndex key with
      | none => some (s.goto t .wild)
      | some i => some ((s.setReady i 0).goto t (.queued key i e))
  | .queued key i e =>
      some (s.goto t (if s.list.ready i = 1 then .woken key e else .asleep key i e))
  | .asleep .. => none
  | .signalled e => some ((s.addStanding e (-1)).goto t (.returned none))
  | .woken key e => some ((s.addStanding e 1).goto t (.counted key e))
  | .counted key e => some (s.goto t (.walking key e s.list.head))
  | .walking key e p => some (s.goto t (s.hop key e p))
  | .leaving e p => some ((s.addStanding e (-1)).goto t (.returned p))
  | .returned _ => some (s.goto t .idle)
  | .notifying i => some { s with pc := fun u => if u = t then .idle else (s.pc u).wake i }
  | .prepared c =>
      if s.lock = none then some ({ s with lock := some t }.goto t (.locked c)) else none
  | .locked c => some (s.relink t c)
  | .unlinked removed g =>
      if s.list.standing (g + 1) > 0 then none else some (s.goto t (.relinked removed g))
  | .relinked removed g =>
      some ({ s with list := { s.list with epoch := g + 1 } }.goto t (.flipped removed g))
  | .flipped removed g =>
      if s.list.standing g > 0 then none else some (s.goto t (.drained removed))
  | .drained removed => some ({ s with lock := none }.goto t (.unlocked removed))
  | .unlocked removed => some ((s.kfree removed).goto t .idle)
  | .lost _ => none
  | .wild => none

/-- One step of one thread. -/
def step (s : St τ) : τ × Act → Option (St τ)
  | (t, .advance) => advance s t
  | (t, .search key) =>
      if s.pc t = .idle then some (s.goto t (.sampled key s.list.epoch)) else none
  | (t, .write op kmallocFails) => if s.pc t = .idle then some (s.write t op kmallocFails) else none
  | (t, .notify i) =>
      if s.pc t = .idle then some ((s.setReady i 1).goto t (.notifying i)) else none
  | (t, .signal) =>
      match s.pc t with
      | .asleep key i e => some (s.goto t (if s.list.ready i = 1 then .woken key e else .signalled e))
      | _ => none

/-- The list and its threads. -/
def rcuList (τ : Type) [DecidableEq τ] : System (St τ) (τ × Act) := System.ofStep initial step

/-! ## What a thread holds -/

/-- The reader is counted in `standing[e]`: it is between its increment and its decrement. -/
def Pc.CountedIn (e : Fin 2) : Pc → Prop
  | .counted _ e' => e' = e
  | .walking _ e' _ => e' = e
  | .leaving e' _ => e' = e
  | .lost e' => e' = e
  | _ => False

instance (e : Fin 2) (p : Pc) : Decidable (p.CountedIn e) := by
  cases p <;> unfold Pc.CountedIn <;> infer_instance

/-- The reader is between its increment and its decrement and holds a pointer to `a`. -/
def Pc.PointsTo (a : Addr) : Pc → Prop
  | .walking _ _ p => p = some a
  | .leaving _ p => p = some a
  | _ => False

instance (a : Addr) (p : Pc) : Decidable (p.PointsTo a) := by
  cases p <;> unfold Pc.PointsTo <;> infer_instance

/-- The writer keeps `a` out of the list: not linked in yet, or taken out and not freed. -/
def Pc.Owns (a : Addr) : Pc → Prop
  | .prepared c => c.newElement = some a
  | .locked c => c.newElement = some a
  | .unlinked removed _ => removed = some a
  | .relinked removed _ => removed = some a
  | .flipped removed _ => removed = some a
  | .drained removed => removed = some a
  | .unlocked removed => removed = some a
  | _ => False

/-- The thread is in a call of a writer. -/
def Pc.Writing : Pc → Prop
  | .prepared _ | .locked _ | .unlinked _ _ | .relinked _ _ | .flipped _ _ | .drained _
  | .unlocked _ => True
  | _ => False

/-- The writer is between `write_lock` and `write_unlock`. -/
def Pc.InSection : Pc → Prop
  | .locked _ | .unlinked _ _ | .relinked _ _ | .flipped _ _ | .drained _ => True
  | _ => False

/-- The writer took `a` out of the list and has still to wait for the readers counted in `e`. -/
def Pc.Defers (e : Fin 2) (a : Addr) : Pc → Prop
  | .unlinked removed _ => removed = some a
  | .relinked removed g => removed = some a ∧ e = g
  | .flipped removed g => removed = some a ∧ e = g
  | _ => False

end TagMessaging.Rcu
