/-
# TagMessaging.Lib.RwLock -- traces of a reader-writer lock

The lock word of a reader-writer spin lock and the discipline of one thread on it. `hold` follows
which mode the thread holds along its lock operations and gives up at a release of a mode it does
not hold; `Balanced` says that it never gives up and ends with nothing held. A balanced trace
leaves the lock word as it found it.

The word knows nothing of threads: a release changes it whoever held the lock.
-/
import Mathlib

namespace TagMessaging.Lib.RwLock

/-- The four operations. -/
inductive Op where
  | readLock | readUnlock | writeLock | writeUnlock
  deriving DecidableEq, Repr

/-- The modes in which the lock is held. -/
inductive Mode where
  | read | write
  deriving DecidableEq, Repr

/-- The mode held after the operations, from the mode held before them; `none` if one of them
acquires a lock while one is held or releases what is not held. -/
def hold : Option Mode → List Op → Option (Option Mode)
  | h, [] => some h
  | none, .readLock :: ops => hold (some .read) ops
  | none, .writeLock :: ops => hold (some .write) ops
  | some .read, .readUnlock :: ops => hold none ops
  | some .write, .writeUnlock :: ops => hold none ops
  | _, _ :: _ => none

/-- Every release is of the mode held, and nothing is held at the end. -/
def Balanced (ops : List Op) : Prop := hold none ops = some none

instance (ops : List Op) : Decidable (Balanced ops) := inferInstanceAs (Decidable (_ = _))

/-- The lock word: how many readers entered more often than they left, and the writer's mark. -/
structure Word where
  readers : Int
  writer : Bool
  deriving DecidableEq, Repr

/-- The word of a free lock. -/
def Word.free : Word := { readers := 0, writer := false }

/-- One operation on the word. -/
def Word.apply (x : Word) : Op → Word
  | .readLock => { x with readers := x.readers + 1 }
  | .readUnlock => { x with readers := x.readers - 1 }
  | .writeLock => { x with writer := true }
  | .writeUnlock => { x with writer := false }

/-- A reader gets in when there is no writer, a writer when there is nobody. -/
def Word.Grants (x : Word) : Op → Prop
  | .readLock => x.writer = false
  | .writeLock => x.writer = false ∧ x.readers = 0
  | _ => True

instance (x : Word) (op : Op) : Decidable (x.Grants op) := by
  rcases op <;> dsimp only [Word.Grants] <;> infer_instance

/-- Operations one after the other. -/
def Word.run (x : Word) (ops : List Op) : Word := ops.foldl Word.apply x

/-- The word while one thread holds the lock in a mode and nobody else holds it. -/
def Word.held : Option Mode → Word
  | none => .free
  | some .read => { readers := 1, writer := false }
  | some .write => { readers := 0, writer := true }

variable {h h' : Option Mode} {ops : List Op}

/-- The word follows the mode the thread holds. -/
theorem run_held (hh : hold h ops = some h') : (Word.held h).run ops = Word.held h' := by
  induction ops generalizing h with
  | nil =>
      obtain rfl : h = h' := Option.some.inj hh
      rfl
  | cons op ops ih =>
      rw [Word.run, List.foldl_cons, ← Word.run]
      cases h with
      | none => cases op <;> first | exact ih hh | cases hh
      | some mode => cases mode <;> cases op <;> first | exact ih hh | cases hh

/-- A balanced trace on a free lock leaves it free. -/
theorem Balanced.run_free (hb : Balanced ops) : Word.free.run ops = Word.free := run_held hb

/-- Everybody gets into a free lock. -/
theorem free_grants (op : Op) : Word.free.Grants op := by
  cases op <;> simp [Word.Grants, Word.free]

end TagMessaging.Lib.RwLock
