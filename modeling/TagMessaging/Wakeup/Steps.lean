/-
# TagMessaging.Wakeup.Steps -- the levels of one service under interleaving

Any number of threads call `tag_receive`, `tag_send` and `AWAKE_ALL` on one service, past the checks
on their arguments, one atomic step at a time in sequentially consistent memory. Each level has its
element in the service's list, its flag `ready` and its wait queue.

`wait_event_interruptible` joins the queue, tests the flag and sleeps; `wake_up_all` takes every
thread out of the queue, and each joins it again before its next test. The relinking of
`list_replace` and the walk to the element of the level are one step each: how they run against each
other is the subject of `Rcu`, and that the list has one element for each level is
`Serial.message_store`. The `kfree` of the element that was replaced is a step of its own, and so are
the reads of the receiver after its walk: `e->size`, and `e->message` for each `copy_to_user`. A
receiver that reads a freed element is `wild`.

What the code does not keep is kept beside it, and no step depends on it: the messages ever stored
at a level, which of them a sender stored, who stored the last 1 in a flag, and for each receiver
how many messages had been stored when it began, when it looked its element up, and who woke it.
-/
import TagMessaging.Model.Kernel
import TagMessaging.Lib.Transition

namespace TagMessaging.Wakeup

open TagMessaging.Model TagMessaging.Lib.Transition

/-! ## Threads -/

/-- The bytes of a message. -/
abbrev Msg := List UInt8

/-- Who stores 1 in a flag and wakes the queue: a `tag_send`, known by the position of its message
among those stored at the level, or an `AWAKE_ALL`. -/
inductive Waker where
  | send (k : Nat)
  | awakeAll
  deriving DecidableEq, Repr

/-- A call of `tag_receive`. -/
structure Receive where
  level : Fin levelDeep
  size : Nat
  /-- How many messages had been stored at the level when the call began. -/
  began : Nat
  /-- Whether a `wake_up_all` found the thread in the queue. -/
  woken : Bool := false
  /-- The first `tag_send` whose `wake_up_all` found the thread in the queue. -/
  sender : Option Nat := none
  deriving DecidableEq, Repr

/-- `bSize = min(size, e->size);`. -/
def Receive.bSize (r : Receive) (m : Msg) : Nat := min r.size m.length

/-- How a wait ends: a test read the 1 that this waker stored, or a signal came. -/
inductive Ending where
  | flag (w : Waker)
  | signal
  deriving DecidableEq, Repr

/-- Where a thread stands. -/
inductive Pc where
  | idle
  -- tag_receive
  /-- Before `l->ready[key] = 0;`. -/
  | entered (r : Receive)
  | reset (r : Receive)
  /-- In the queue, about to test the flag. -/
  | queued (r : Receive)
  | asleep (r : Receive)
  /-- Taken out of the queue by a `wake_up_all`, not in it again yet. -/
  | awakened (r : Receive)
  | signalled (r : Receive)
  /-- A test read the 1 of `w`: the wait is over, the walk to the element ahead. -/
  | released (r : Receive) (w : Waker)
  /-- `rcu_list_search` returned the element number `j` of the level; `e->size` is read next. -/
  | found (r : Receive) (w : Waker) (j : Nat)
  /-- In the copy loop, with `out` in the buffer. -/
  | copying (r : Receive) (w : Waker) (j bSize : Nat) (out : Msg)
  /-- The call returned `ret` and left `bytes` in the buffer; `seen` messages had been stored when
  it looked. -/
  | returned (r : Receive) (e : Ending) (ret : Int) (bytes : Msg) (seen : Nat)
  /-- The call read an element that was freed. -/
  | wild
  -- tag_send
  /-- In `list_replace`, the element `removed` is out of the list and `kfree(removed)` ahead. -/
  | replaced (level : Fin levelDeep) (removed : Nat)
  /-- `list_replace` is done. -/
  | stored (level : Fin levelDeep) (k : Nat)
  /-- `waitqueue_active` answered true. -/
  | noticed (level : Fin levelDeep) (k : Nat)
  -- tag_ctl_TBDE_AWAKE_ALL
  /-- At the head of the loop. -/
  | awaking (level : Fin levelDeep)
  -- both
  /-- 1 is stored in the flag, `wake_up_all` is ahead. -/
  | flagged (level : Fin levelDeep) (w : Waker)
  deriving DecidableEq, Repr

/-- What a thread does next. -/
inductive Act where
  /-- The next statement of the call it is in. -/
  | advance
  | receive (level : Fin levelDeep) (size : Nat)
  /-- A round of the copy loop: `copy_to_user` takes `n` bytes more. -/
  | copied (n : Nat)
  /-- A call of `tag_send` up to the relinking in its `list_replace`. -/
  | send (level : Fin levelDeep) (m : Msg)
  | awakeAll
  /-- A signal for a thread asleep. -/
  | signal
  deriving DecidableEq, Repr

/-! ## States and steps -/

/-- The levels of the service and the threads. -/
structure St (τ : Type) where
  ready : Fin levelDeep → Int
  /-- The element in the list, by its number among those the level had. -/
  current : Fin levelDeep → Nat
  /-- The messages of the elements that are allocated. -/
  elements : Fin levelDeep → Nat → Option Msg
  /-- Every message stored at the level, the empty one of `new_TAG_Service` first. -/
  history : Fin levelDeep → List Msg
  /-- Who stored the last 1 in the flag. -/
  setter : Fin levelDeep → Waker
  pc : τ → Pc

variable {τ : Type}

/-- A service just created. -/
def initial : St τ where
  ready := fun _ => 0
  current := fun _ => 0
  elements := fun _ j => if j = 0 then some [] else none
  history := fun _ => [[]]
  setter := fun _ => .awakeAll
  pc := fun _ => .idle

/-- The element number `j` of the level becomes `p`. -/
def St.setElement (s : St τ) (level : Fin levelDeep) (j : Nat) (p : Option Msg) : St τ :=
  { s with
    elements := Function.update s.elements level (Function.update (s.elements level) j p) }

/-- `list_replace(&service->levels, level, buf, size)`, up to its relinking. -/
def St.listReplace (s : St τ) (level : Fin levelDeep) (m : Msg) : St τ :=
  { s.setElement level (s.current level + 1) (some m) with
    current := Function.update s.current level (s.current level + 1)
    history := Function.update s.history level (s.history level ++ [m]) }

/-- `kfree(removed);`. -/
def St.kfree (s : St τ) (level : Fin levelDeep) (removed : Nat) : St τ :=
  s.setElement level removed none

/-- `l->ready[key] = 0;`. -/
def St.resetFlag (s : St τ) (level : Fin levelDeep) : St τ :=
  { s with ready := Function.update s.ready level 0 }

/-- `service->levels.ready[level] = 1;`. -/
def St.setFlag (s : St τ) (level : Fin levelDeep) (w : Waker) : St τ :=
  { s with
    ready := Function.update s.ready level 1
    setter := Function.update s.setter level w }

/-- The call after a `wake_up_all` found its thread in the queue. -/
def Receive.wake (r : Receive) (w : Waker) : Receive :=
  { r with
    woken := true
    sender :=
      match r.sender, w with
      | none, .send k => some k
      | sender, _ => sender }

/-- The thread after `wake_up_all(&service->levels.readerQueue[level])`. -/
def Pc.wake (level : Fin levelDeep) (w : Waker) : Pc → Pc
  | .queued r => if r.level = level then .awakened (r.wake w) else .queued r
  | .asleep r => if r.level = level then .awakened (r.wake w) else .asleep r
  | p => p

/-- The thread is in the wait queue of the level. -/
def Pc.InQueue (level : Fin levelDeep) : Pc → Prop
  | .queued r | .asleep r => r.level = level
  | _ => False

instance (level : Fin levelDeep) (p : Pc) : Decidable (p.InQueue level) := by
  rcases p <;> dsimp only [Pc.InQueue] <;> infer_instance

/-- `waitqueue_active(&service->levels.readerQueue[level])`. -/
def WaitqueueActive (s : St τ) (level : Fin levelDeep) : Prop := ∃ u, (s.pc u).InQueue level

instance [Fintype τ] (s : St τ) (level : Fin levelDeep) : Decidable (WaitqueueActive s level) :=
  inferInstanceAs (Decidable (∃ _, _))

/-- What the waker does after its `wake_up_all`. -/
def Waker.next (level : Fin levelDeep) : Waker → Pc
  | .send _ => .idle
  | .awakeAll => if h : level + 1 < levelDeep then .awaking ⟨level + 1, h⟩ else .idle

variable [DecidableEq τ]

/-- Thread `t` goes on to `p`. -/
def St.goto (s : St τ) (t : τ) (p : Pc) : St τ := { s with pc := Function.update s.pc t p }

/-- The next statement of thread `t`; `none` where it has to wait. -/
def advance [Fintype τ] (s : St τ) (t : τ) : Option (St τ) :=
  match s.pc t with
  | .idle => none
  | .entered r => some ((s.resetFlag r.level).goto t (.reset r))
  | .reset r => some (s.goto t (.queued r))
  | .queued r =>
      some (s.goto t
        (if s.ready r.level = 1 then .released r (s.setter r.level) else .asleep r))
  | .asleep _ => none
  | .awakened r => some (s.goto t (.queued r))
  | .signalled r =>
      some (s.goto t (.returned r .signal Errno.EUCLEAN.neg [] (s.history r.level).length))
  | .released r w => some (s.goto t (.found r w (s.current r.level)))
  | .found r w j =>
      some (s.goto t
        (match s.elements r.level j with
          | none => .wild
          | some m => .copying r w j (r.bSize m) []))
  | .copying r w j bSize out =>
      if out.length < bSize then none
      else some (s.goto t (.returned r (.flag w) bSize out (j + 1)))
  | .returned .. => some (s.goto t .idle)
  | .wild => none
  | .replaced level removed =>
      some ((s.kfree level removed).goto t (.stored level (removed + 1)))
  | .stored level k =>
      some (s.goto t (if WaitqueueActive s level then .noticed level k else .idle))
  | .noticed level k => some ((s.setFlag level (.send k)).goto t (.flagged level (.send k)))
  | .awaking level => some ((s.setFlag level .awakeAll).goto t (.flagged level .awakeAll))
  | .flagged level w =>
      some ({ s with pc := fun u => (s.pc u).wake level w }.goto t (w.next level))

/-- One step of one thread. -/
def step [Fintype τ] (s : St τ) : τ × Act → Option (St τ)
  | (t, .advance) => advance s t
  | (t, .receive level size) =>
      if s.pc t = .idle then
        some (s.goto t (.entered
          { level := level, size := size, began := (s.history level).length }))
      else none
  | (t, .copied n) =>
      match s.pc t with
      | .copying r w j bSize out =>
          if out.length < bSize ∧ n ≤ bSize - out.length then
            some (s.goto t
              (match s.elements r.level j with
                | none => .wild
                | some m => .copying r w j bSize (out ++ (m.drop out.length).take n)))
          else none
      | _ => none
  | (t, .send level m) =>
      if s.pc t = .idle then
        some ((s.listReplace level m).goto t (.replaced level (s.current level)))
      else none
  | (t, .awakeAll) => if s.pc t = .idle then some (s.goto t (.awaking 0)) else none
  | (t, .signal) =>
      match s.pc t with
      | .asleep r =>
          some (s.goto t
            (if s.ready r.level = 1 then .released r (s.setter r.level) else .signalled r))
      | _ => none

/-- The service and its threads. -/
def service (τ : Type) [DecidableEq τ] [Fintype τ] : System (St τ) (τ × Act) :=
  System.ofStep initial step

end TagMessaging.Wakeup
