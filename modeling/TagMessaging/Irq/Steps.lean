/-
# TagMessaging.Irq.Steps -- the writers of all lists and the interrupt state of their CPUs

Any number of CPUs run `rcu_list_insert`, `rcu_list_replace` and `rcu_list_remove` on any number of
lists. `write_lock_irqsave(&l->write_lock, flags)` is two steps: the CPU disables interrupts and
takes the lock of its list, then it stores the state it had in `flags`, which is one variable of the
file and not a local of the operation. `write_unlock_irqrestore` reads that variable, whoever wrote
it last.

The walks and relinkings are those of `Model.RcuList`. Readers appear by what they do to `standing`.
A caller enters an operation with interrupts enabled or disabled: `tag_get_CREATE` holds `searchLock`
with interrupts off around the insertions of a new service, `tag_send` replaces with them on.
-/
import TagMessaging.Rcu.Steps

namespace TagMessaging.Irq

open TagMessaging.Model TagMessaging.Rcu TagMessaging.Lib.Transition

/-! ## CPUs -/

/-- The list an operation works on, and the interrupt state its CPU started it with. -/
structure Task (ι : Type) where
  list : ι
  before : Bool
  deriving DecidableEq, Repr

/-- Where a CPU stands. `g` is its `grace_epoch`. -/
inductive Pc (ι : Type) where
  | idle
  | prepared (k : Task ι) (c : Rcu.Change)
  /-- The lock is taken and interrupts are off; `saved` is to be stored in `flags`. -/
  | entered (k : Task ι) (c : Rcu.Change) (saved : Bool)
  | locked (k : Task ι) (c : Rcu.Change)
  | unlinked (k : Task ι) (removed : Ptr) (g : Fin 2)
  | relinked (k : Task ι) (removed : Ptr) (g : Fin 2)
  | flipped (k : Task ι) (removed : Ptr) (g : Fin 2)
  | drained (k : Task ι) (removed : Ptr)
  /-- `write_lock` is released, `kfree(removed)` ahead. -/
  | unlocked (k : Task ι) (removed : Ptr)
  /-- The operation has returned after releasing its lock. -/
  | returned (k : Task ι)
  /-- The CPU followed a link that is not there. -/
  | wild
  deriving DecidableEq, Repr

/-- What a CPU does next. -/
inductive Act (ι : Type) where
  /-- The next statement of the operation it is in. -/
  | advance
  /-- A call of a writer, and whether its `kmalloc` fails. -/
  | write (l : ι) (op : Write) (kmallocFails : Bool)
  /-- Code between the operations enables or disables interrupts. -/
  | setIrq (on : Bool)
  /-- A reader of `l` adds `d` to `standing[e]`. -/
  | reader (l : ι) (e : Fin 2) (d : Int)
  deriving DecidableEq, Repr

/-! ## States and steps -/

/-- The elements, the lists with their locks, the file-level `flags`, and the CPUs with their
interrupt state. -/
structure St (κ ι : Type) where
  elements : Addr → Option Element
  brk : Addr
  list : ι → RcuList
  lock : ι → Option κ
  flags : Bool
  irq : κ → Bool
  pc : κ → Pc ι

variable {κ ι : Type}

/-- Every list after `rcu_list_init`, before any operation. -/
def initial : St κ ι where
  elements := fun _ => none
  brk := 0
  list := fun _ =>
    { epoch := 0
      standing := fun _ => 0
      head := none
      readerQueue := fun _ => 0
      ready := fun _ => 0
      waiters := fun _ => 0 }
  lock := fun _ => none
  flags := false
  irq := fun _ => true
  pc := fun _ => .idle

/-- CPU `t` goes on to `p`. -/
def St.goto [DecidableEq κ] (s : St κ ι) (t : κ) (p : Pc ι) : St κ ι :=
  { s with pc := Function.update s.pc t p }

/-- A change of the list `l`. -/
def St.setList [DecidableEq ι] (s : St κ ι) (l : ι) (f : RcuList → RcuList) : St κ ι :=
  { s with list := Function.update s.list l (f (s.list l)) }

/-- The list `l` as one list is in `Rcu`, with nobody in it. -/
def St.on (s : St κ ι) (l : ι) : Rcu.St κ where
  elements := s.elements
  brk := s.brk
  list := s.list l
  lock := s.lock l
  pc := fun _ => .idle

/-- What became of the list `l` and the elements. -/
def St.put [DecidableEq ι] (s : St κ ι) (l : ι) (r : Rcu.St κ) : St κ ι :=
  { s with
    elements := r.elements
    brk := r.brk
    list := Function.update s.list l r.list }

/-- Where a CPU stands in the operation `k`, from where it stands in `Rcu`. -/
def Pc.ofRcu (k : Task ι) : Rcu.Pc → Pc ι
  | .idle => .idle
  | .prepared c => .prepared k c
  | .unlinked removed g => .unlinked k removed g
  | .relinked removed g => .relinked k removed g
  | _ => .wild

variable [DecidableEq κ] [DecidableEq ι]

/-- CPU `t` takes over what it did in the operation `k` on one list. -/
def St.take (s : St κ ι) (t : κ) (k : Task ι) (r : Rcu.St κ) : St κ ι :=
  (s.put k.list r).goto t (.ofRcu k (r.pc t))

/-- A call of a writer: the allocation comes before the lock, and a failure returns 0. -/
def St.write (s : St κ ι) (t : κ) (l : ι) (op : Write) (kmallocFails : Bool) : St κ ι :=
  s.take t ⟨l, s.irq t⟩ ((s.on l).write t op kmallocFails)

/-- The relinking of a writer that holds the lock, and its `grace_epoch = l->epoch;`. The early
return of `rcu_list_replace` leaves the lock taken. -/
def St.relink (s : St κ ι) (t : κ) (k : Task ι) (c : Rcu.Change) : St κ ι :=
  s.take t k ((s.on k.list).relink t c)

/-- The next statement of CPU `t`; `none` where it has to wait. -/
def advance (s : St κ ι) (t : κ) : Option (St κ ι) :=
  match s.pc t with
  | .idle => none
  | .prepared k c =>
      if s.lock k.list = none then
        some ({ s with
          lock := Function.update s.lock k.list (some t)
          irq := Function.update s.irq t false }.goto t (.entered k c (s.irq t)))
      else none
  | .entered k c saved => some ({ s with flags := saved }.goto t (.locked k c))
  | .locked k c => some (s.relink t k c)
  | .unlinked k removed g =>
      if (s.list k.list).standing (g + 1) > 0 then none else some (s.goto t (.relinked k removed g))
  | .relinked k removed g =>
      some ((s.setList k.list fun list => { list with epoch := g + 1 }).goto t
        (.flipped k removed g))
  | .flipped k removed g =>
      if (s.list k.list).standing g > 0 then none else some (s.goto t (.drained k removed))
  | .drained k removed =>
      some ({ s with
        lock := Function.update s.lock k.list none
        irq := Function.update s.irq t s.flags }.goto t (.unlocked k removed))
  | .unlocked k removed =>
      some ((s.put k.list ((s.on k.list).kfree removed)).goto t (.returned k))
  | .returned _ => some (s.goto t .idle)
  | .wild => none

/-- One step of one CPU. -/
def step (s : St κ ι) : κ × Act ι → Option (St κ ι)
  | (t, .advance) => advance s t
  | (t, .write l op kmallocFails) =>
      if s.pc t = .idle then some (s.write t l op kmallocFails) else none
  | (t, .setIrq on) =>
      if s.pc t = .idle then some { s with irq := Function.update s.irq t on } else none
  | (_, .reader l e d) =>
      some (s.setList l fun list =>
        { list with standing := Function.update list.standing e (list.standing e + d) })

/-- The lists and their writers. -/
def writers (κ ι : Type) [DecidableEq κ] [DecidableEq ι] : System (St κ ι) (κ × Act ι) :=
  System.ofStep initial step

end TagMessaging.Irq
