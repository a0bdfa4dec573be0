/-
# TagMessaging.Rcu.Receive -- the element that was delivered, under interleaving

`tag_receive` goes on with the element after `rcu_list_search` has returned it: it reads `e->size`,
and in its copy loop `e->message` before every `copy_to_user`. This module puts these steps on top
of those of the list, for any number of receivers and senders of one room. The reader is no longer
counted in `standing` then, so no writer waits for it.

The list keeps pointers to messages; `buffers` holds their bytes, which `tag_send` stores before it
calls `rcu_list_replace` and which nothing frees or changes afterwards. `stored` is the history of
the messages that were linked in, with their levels.
-/
import TagMessaging.Rcu.GracePeriod

namespace TagMessaging.Rcu

open TagMessaging.Model TagMessaging.Lib.Transition

/-! ## Receivers -/

/-- What a call of `tag_receive` asks for. -/
structure Request where
  level : Int32
  size : Nat
  deriving DecidableEq, Repr

/-- Where a thread stands in `tag_receive`, from its call of `rcu_list_search` on. -/
inductive Use where
  | none
  /-- In `rcu_list_search`. -/
  | searching (r : Request)
  /-- `e` is the element at `a`, `e->size` ahead. -/
  | found (r : Request) (a : Addr)
  /-- At the test of the loop; `offset` is the number of the bytes that are out. -/
  | looping (r : Request) (a : Addr) (bSize : Nat) (out : List UInt8)
  /-- `e->message` is loaded, `copy_to_user` ahead. -/
  | copying (r : Request) (a : Addr) (bSize : Nat) (msg : Ptr) (out : List UInt8)
  /-- The call returned `bSize`, with these bytes in the buffer of the user. -/
  | answered (r : Request) (bSize : Nat) (out : List UInt8)
  /-- The call read an element that is not there. -/
  | dangling
  deriving DecidableEq, Repr

/-- The call will still read the element at `a`. -/
def Use.Reads (a : Addr) : Use → Prop
  | .found _ b => b = a
  | .looping _ b _ _ => b = a
  | .copying _ b _ _ _ => b = a
  | _ => False

/-- The thread is in no call of `tag_receive`. -/
def Use.Free : Use → Prop
  | .none | .answered _ _ _ => True
  | _ => False

instance Use.Reads.decidable (a : Addr) (u : Use) : Decidable (u.Reads a) := by
  rcases u <;> dsimp only [Use.Reads] <;> infer_instance

instance Use.Free.decidable (u : Use) : Decidable u.Free := by
  rcases u <;> dsimp only [Use.Free] <;> infer_instance

/-- What a thread does next. -/
inductive Call where
  /-- The next statement of the call it is in. -/
  | advance
  /-- A `copy_to_user` that copies `n` bytes and leaves the rest. -/
  | copied (n : Nat)
  /-- `tag_receive`, from its call of `list_search` on. -/
  | receive (r : Request)
  /-- `tag_send`, from its call of `list_replace` on. -/
  | send (level : Int32) (msg : List UInt8) (kmallocFails : Bool)
  /-- `list_insert(levels, level, "", 0)` of `new_TAG_Service`. -/
  | insert (level : Int32) (kmallocFails : Bool)
  /-- The store of 1 in `ready[i]`, which a `wake_up_all` of the queue follows. -/
  | notify (i : Fin levelDeep)
  | signal
  deriving DecidableEq, Repr

/-! ## States and steps -/

/-- The list of a room, the bytes of its messages, their history and the receivers. -/
structure Room (τ : Type) where
  list : St τ
  buffers : Addr → List UInt8
  brk : Addr
  stored : List (Int32 × List UInt8)
  use : τ → Use

variable {τ : Type}

/-- The room before any call. -/
def Room.initial : Room τ where
  list := Rcu.initial
  buffers := fun _ => []
  brk := 0
  stored := []
  use := fun _ => .none

/-- The bytes of a message; `""` has none. -/
def Room.bytes (s : Room τ) : Ptr → List UInt8
  | none => []
  | some b => s.buffers b

/-- The messages linked in so far, after the next statement of thread `t`. -/
def Room.link (s : Room τ) (t : τ) : List (Int32 × List UInt8) :=
  match s.list.pc t with
  | .locked c =>
      match c.relink s.list, c.newElement.bind (entryAt s.list.elements) with
      | .ok (some _), some x => s.stored ++ [(x.level, s.bytes x.message)]
      | _, _ => s.stored
  | _ => s.stored

variable [DecidableEq τ]

/-- Thread `t` goes on to `u`. -/
def Room.goto (s : Room τ) (t : τ) (u : Use) : Room τ :=
  { s with use := Function.update s.use t u }

/-- The next statement of a call that is in a routine of the list. -/
def Room.inList (s : Room τ) (t : τ) : Option (Room τ) :=
  (advance s.list t).map fun list => { s with list := list, stored := s.link t }

/-- The next statement of thread `t`. -/
def Room.advance (s : Room τ) (t : τ) : Option (Room τ) :=
  match s.use t with
  | .none | .answered _ _ _ => s.inList t
  | .searching r =>
      match s.list.pc t with
      | .returned none => (s.inList t).map (·.goto t .none)
      | .returned (some a) => (s.inList t).map (·.goto t (.found r a))
      | _ => s.inList t
  | .found r a =>
      match s.list.elements a with
      | none => some (s.goto t .dangling)
      | some e => some (s.goto t (.looping r a (min r.size e.size) []))
  | .looping r a bSize out =>
      if bSize - out.length > 0 then
        match s.list.elements a with
        | none => some (s.goto t .dangling)
        | some e => some (s.goto t (.copying r a bSize e.message out))
      else
        some (s.goto t (.answered r bSize out))
  | .copying _ _ _ _ _ => none
  | .dangling => none

/-- The first statement of a call: the thread is in no other one, and goes into a routine of the
list. -/
def Room.call (s : Room τ) (t : τ) (act : Act) : Option (Room τ) :=
  if (s.use t).Free then (Rcu.step s.list (t, act)).map fun list => { s with list := list } else none

/-- The message of a call of `tag_send`, in a buffer of its own. -/
def Room.keep (s : Room τ) (msg : List UInt8) : Room τ :=
  { s with buffers := Function.update s.buffers s.brk msg, brk := s.brk + 1 }

/-- One step of one thread. -/
def Room.step (s : Room τ) : τ × Call → Option (Room τ)
  | (t, .advance) => s.advance t
  | (t, .copied n) =>
      match s.use t with
      | .copying r a bSize msg out =>
          if n ≤ bSize - out.length then
            some (s.goto t (.looping r a bSize (out ++ ((s.bytes msg).drop out.length).take n)))
          else
            none
      | _ => none
  | (t, .receive r) => (s.call t (.search r.level)).map (·.goto t (.searching r))
  | (t, .send level msg kmallocFails) =>
      (s.keep msg).call t (.write (.replace ⟨level, some s.brk, msg.length⟩) kmallocFails)
  | (t, .insert level kmallocFails) => s.call t (.write (.insert ⟨level, none, 0⟩) kmallocFails)
  | (t, .notify i) => s.call t (.notify i)
  | (t, .signal) => (Rcu.step s.list (t, .signal)).map fun list => { s with list := list }

/-- A room and its threads. -/
def room (τ : Type) [DecidableEq τ] : System (Room τ) (τ × Call) :=
  System.ofStep Room.initial Room.step

/-! ## The guard -/

/-- Thread `t` has the element at `a` from `rcu_list_search` and will still read it. -/
def Room.Uses (s : Room τ) (t : τ) (a : Addr) : Prop :=
  s.list.pc t = .returned (some a) ∨ (s.use t).Reads a

/-- The grace period works: the step stays clear of the races inside the list. -/
def Graced (s : Room τ) : τ × Call → Prop
  | (t, .advance) => Covered s.list (t, .advance)
  | (t, .signal) => Covered s.list (t, .signal)
  | _ => True

/-- And where `rcu_list_replace` executes `kfree(removed)`, no `tag_receive` that was given this
element has still to read it. -/
def FreedAfterUse (s : Room τ) (l : τ × Call) : Prop :=
  Graced s l ∧ ∀ a, l.2 = .advance → s.list.pc l.1 = .unlocked (some a) → ∀ u, ¬ s.Uses u a

/-! ## What is to hold -/

/-- What the call returned is a prefix of one message that was stored at the level it asked for, of
the length of the message or of the buffer of the user, whichever is less. -/
def Room.Whole (s : Room τ) (r : Request) (bSize : Nat) (out : List UInt8) : Prop :=
  ∃ msg, (r.level, msg) ∈ s.stored ∧ bSize = min r.size msg.length ∧ out = msg.take bSize

/-- No call has read an element after its `kfree`, and each returned part of one message. -/
structure Delivered (s : Room τ) : Prop where
  alive : ∀ t, s.use t ≠ .dangling
  whole : ∀ t r bSize out, s.use t = .answered r bSize out → s.Whole r bSize out

end TagMessaging.Rcu
