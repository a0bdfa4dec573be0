/-
# TagMessaging.Waiters.Steps -- the counters of the receivers under interleaving

The list of `Rcu.Steps` with its counters `waiters`. `rcu_list_search` raises `waiters[key]` when it
has reset the flag and lowers it when it has lowered `standing`, after a wake-up and after a signal.
Neither update holds a lock or is atomic: it loads the counter in one step and stores what it makes
of the value in another, and in between any other thread may do the same.

A thread has a `Phase` beside its place in the list: which update it has ahead, with the value it
loaded when the update is half done. The list itself takes the steps of `Rcu.Steps` and no others;
writers run too.
-/
import TagMessaging.Rcu.Delivered

namespace TagMessaging.Waiters

open TagMessaging.Model TagMessaging.Lib.Transition

/-! ## Threads -/

/-- Where a thread stands with the updates of `waiters`. The level is the local `key`, `v` what the
update has loaded. -/
inductive Phase where
  | outside
  /-- Before `l->waiters[key] +=1;`. -/
  | raise (i : Fin levelDeep)
  | raising (i : Fin levelDeep) (v : Int)
  /-- In the wait, in the list, or on the way out of either. -/
  | inside (i : Fin levelDeep)
  /-- Before `l->waiters[key] -=1;`. -/
  | lower (i : Fin levelDeep)
  | lowering (i : Fin levelDeep) (v : Int)
  deriving DecidableEq, Repr

/-- The phase after the next statement in the list: an update is ahead of a thread that resets the
flag of its level, and of one that lowers `standing`. -/
def Phase.next (p : Rcu.Pc) : Phase → Phase
  | .outside =>
      match p with
      | .sampled key _ => (Rcu.readyIndex key).elim .outside .raise
      | _ => .outside
  | .inside i =>
      match p with
      | .signalled _ | .leaving _ _ => .lower i
      | _ => .inside i
  | phase => phase

/-! ## States and steps -/

/-- The list and its threads, with the phase of each. -/
structure St (τ : Type) extends Rcu.St τ where
  phase : τ → Phase

variable {τ : Type}

/-- After `rcu_list_init`, before any call. -/
def initial : St τ where
  toSt := Rcu.initial
  phase := fun _ => .outside

/-- `l->waiters[i] = v`. -/
def St.setWaiters (s : St τ) (i : Fin levelDeep) (v : Int) : St τ :=
  { s with list := { s.list with waiters := Function.update s.list.waiters i v } }

variable [DecidableEq τ]

/-- Thread `t` goes on to `p`. -/
def St.turn (s : St τ) (t : τ) (p : Phase) : St τ := { s with phase := Function.update s.phase t p }

/-- The next statement of thread `t`; `none` where it has to wait. -/
def advance (s : St τ) (t : τ) : Option (St τ) :=
  match s.phase t with
  | .raise i => some (s.turn t (.raising i (s.list.waiters i)))
  | .raising i v => some ((s.setWaiters i (v + 1)).turn t (.inside i))
  | .lower i => some (s.turn t (.lowering i (s.list.waiters i)))
  | .lowering i v => some ((s.setWaiters i (v - 1)).turn t .outside)
  | .outside | .inside _ =>
      (Rcu.advance s.toSt t).map fun list =>
        { s with toSt := list }.turn t ((s.phase t).next (s.pc t))

/-- One step of one thread. -/
def step (s : St τ) : τ × Rcu.Act → Option (St τ)
  | (t, .advance) => advance s t
  | l => (Rcu.step s.toSt l).map fun list => { s with toSt := list }

/-- The list with its counters and its threads. -/
def countedList (τ : Type) [DecidableEq τ] : System (St τ) (τ × Rcu.Act) :=
  System.ofStep initial step

end TagMessaging.Waiters
