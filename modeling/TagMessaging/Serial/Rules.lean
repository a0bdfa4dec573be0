/-
# TagMessaging.Serial.Rules -- one rule for each kernel service

The weakest precondition of every load, store, lock operation and allocation of `Model.Kernel` and
`Model.RcuList`. Each reads its action on the world; together they are the simp set that executes
a routine symbolically. A load through a pointer has two sides: the block it finds, and the fault
if there is none.
-/
import TagMessaging.Model.Calls

namespace TagMessaging.Serial

open TagMessaging.Lib.Effect TagMessaging.Model

variable {α : Type} {env : Env} {w : World} {a l : Addr} {p : Ptr} {E : Fault → Prop}

/-- The world with other memory. -/
def withMem (w : World) (m : Mem) : World := { w with mem := m }

@[simp] theorem withMem_mem (m : Mem) : (withMem w m).mem = m := rfl
@[simp] theorem withMem_trace (m : Mem) : (withMem w m).trace = w.trace := rfl

section Memory

variable {Q : Unit → World → Prop}

/-- An event goes to the end of the trace. -/
@[simp] theorem wp_emit (ev : Event) :
    wp (emit ev) env w Q E ↔ Q () { w with trace := w.trace ++ [ev] } := Iff.rfl

/-- A store to memory leaves the rest of the world. -/
@[simp] theorem wp_modifyMem (f : Mem → Mem) :
    wp (modifyMem f) env w Q E ↔ Q () (withMem w (f w.mem)) := Iff.rfl

/-- A load from memory leaves the world. -/
@[simp] theorem wp_readMem {Q : α → World → Prop} (f : Mem → α) :
    wp (readMem f) env w Q E ↔ Q (f w.mem) w := Iff.rfl

/-- A load of a record faults where there is none. -/
@[simp] theorem wp_loadService {Q : TAGService → World → Prop} :
    wp (loadService (some a)) env w Q E ↔
      (w.mem.services a = none → E (.dangling a)) ∧ ∀ s, w.mem.services a = some s → Q s w := by
  simp only [loadService, wp_bind, wp_readMem]
  cases w.mem.services a with
  | none => simp
  | some s => simp

/-- A load through `NULL` faults. -/
@[simp] theorem wp_loadService_null {Q : TAGService → World → Prop} :
    wp (loadService none) env w Q E ↔ E .nullPointer := Iff.rfl

/-- A load through a pointer to a record that is there. -/
theorem wp_loadService_of {Q : TAGService → World → Prop} {s : TAGService}
    (hs : w.mem.services a = some s) (hQ : Q s w) : wp (loadService (some a)) env w Q E := by
  simpa [hs] using hQ

/-- A store to a record faults as a load does, and leaves the other records. -/
@[simp] theorem wp_storeService (f : TAGService → TAGService) :
    wp (storeService (some a) f) env w Q E ↔
      (w.mem.services a = none → E (.dangling a)) ∧ ∀ s, w.mem.services a = some s →
        Q () (withMem w
          { w.mem with services := Function.update w.mem.services a (some (f s)) }) := by
  simp [storeService]

/-- A store through `NULL` faults. -/
@[simp] theorem wp_storeService_null (f : TAGService → TAGService) :
    wp (storeService none f) env w Q E ↔ E .nullPointer := by
  simp [storeService]

/-- The list of a service is a field of its record. -/
@[simp] theorem wp_loadList {Q : RcuList → World → Prop} :
    wp (loadList l) env w Q E ↔
      (w.mem.services l = none → E (.dangling l)) ∧
        ∀ s, w.mem.services l = some s → Q s.levels w := by
  simp [loadList]

/-- A load of the list of a record that is there. -/
theorem wp_loadList_of {Q : RcuList → World → Prop} {s : TAGService}
    (hs : w.mem.services l = some s) (hQ : Q s.levels w) : wp (loadList l) env w Q E := by
  simpa [hs] using hQ

/-- A store to the list leaves the other fields. -/
@[simp] theorem wp_storeList (f : RcuList → RcuList) :
    wp (storeList l f) env w Q E ↔
      (w.mem.services l = none → E (.dangling l)) ∧ ∀ s, w.mem.services l = some s →
        Q () (withMem w { w.mem with
          services :=
            Function.update w.mem.services l (some { s with levels := f s.levels }) }) := by
  simp [storeList]

/-- A store to the list of a record that is there. -/
theorem wp_storeList_of {s : TAGService} {f : RcuList → RcuList}
    (hs : w.mem.services l = some s)
    (hQ : Q () (withMem w { w.mem with
      services := Function.update w.mem.services l (some { s with levels := f s.levels }) })) :
    wp (storeList l f) env w Q E := by
  simpa [hs] using hQ

/-- A positive reader counter never falls while the one caller waits for it. -/
@[simp] theorem wp_awaitStanding (g : Fin 2) :
    wp (awaitStanding l g) env w Q E ↔
      (w.mem.services l = none → E (.dangling l)) ∧ ∀ s, w.mem.services l = some s →
        (s.levels.standing g > 0 → E .spin) ∧ (s.levels.standing g ≤ 0 → Q () w) := by
  simp only [awaitStanding, wp_bind, wp_loadList]
  refine and_congr_right fun _ => forall_congr' fun s => imp_congr_right fun _ => ?_
  by_cases h : s.levels.standing g > 0
  · simp [h, not_le.mpr h]
  · simp [h, not_lt.mp h]

end Memory

/-! ## Locks and the module reference -/

/-- `searchLock` is taken with interrupts off; the caller keeps what they were. -/
@[simp] theorem wp_searchLockIrqsave {Q : Bool → World → Prop} (op : LockOp) :
    wp (searchLockIrqsave op) env w Q E ↔
      Q w.irq { w with irq := false, trace := w.trace ++ [.searchLock op] } := Iff.rfl

/-- Its release gives back what the caller kept. -/
@[simp] theorem wp_searchUnlockIrqrestore {Q : Unit → World → Prop} (op : LockOp) (saved : Bool) :
    wp (searchUnlockIrqrestore op saved) env w Q E ↔
      Q () { w with irq := saved, trace := w.trace ++ [.searchLock op] } := Iff.rfl

/-- `rcu-list.c` keeps the interrupt state in its one `flags`, shared by all lists. -/
@[simp] theorem wp_listLockIrqsave {Q : Unit → World → Prop} :
    wp (listLockIrqsave l) env w Q E ↔
      Q () { w with flags := w.irq, irq := false, trace := w.trace ++ [.listLock l] } := Iff.rfl

/-- Its release gives back whatever is in `flags`. -/
@[simp] theorem wp_listUnlockIrqrestore {Q : Unit → World → Prop} :
    wp (listUnlockIrqrestore l) env w Q E ↔
      Q () { w with irq := w.flags, trace := w.trace ++ [.listUnlock l] } := Iff.rfl

/-- The module reference is had as long as the module is live. -/
@[simp] theorem wp_tryModuleGet {Q : Bool → World → Prop} :
    wp tryModuleGet env w Q E ↔
      Q env.moduleLive { w with trace := w.trace ++ [.moduleGet env.moduleLive] } := Iff.rfl

/-- The put never fails. -/
@[simp] theorem wp_modulePut {Q : Unit → World → Prop} :
    wp modulePut env w Q E ↔ Q () { w with trace := w.trace ++ [.modulePut] } := Iff.rfl

end TagMessaging.Serial
