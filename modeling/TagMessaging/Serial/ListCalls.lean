/-
# TagMessaging.Serial.ListCalls -- the mutators of one list, and its `write_lock`

The trace of an operation shows where it takes and releases the `write_lock` of its list. An
operation that would take a lock that is taken already waits for it for ever, since in a sequence of
calls nobody is left to release it. What a call answers is a function of the entries of the list, of
its reader counters and of whether `kmalloc` succeeds; what it leaves is a list with the entries of
a first-match association list after the same operation.
-/
import TagMessaging.Serial.ListRoutines

namespace TagMessaging.Serial

open TagMessaging.Lib.Effect TagMessaging.Lib.Segment TagMessaging.Lib.FirstMatch
open TagMessaging.Model

/-! ## Calls under the lock -/

/-- The three mutators with their arguments. -/
inductive ListOp where
  | insert (key : Int32) (msg : Ptr) (size : Nat)
  | remove (key : Int32)
  | replace (key : Int32) (msg : Ptr) (size : Nat)
  deriving DecidableEq

/-- The routine behind an operation. -/
def ListOp.routine (l : Addr) : ListOp → Kernel Int
  | .insert key msg size => rcuListInsert l key msg size
  | .remove key => rcuListRemove l key
  | .replace key msg size => rcuListReplace l key msg size

/-- The world, and whether the `write_lock` of the list is taken. -/
structure Guarded where
  world : World
  locked : Bool

/-- The world in which an operation starts, with a trace of its own. -/
def Guarded.start (g : Guarded) : World := { g.world with trace := [] }

/-- The lock after the events of a call, `none` when the call waits for it for ever. -/
def lockAfter (l : Addr) : Bool → List Event → Option Bool
  | locked, [] => some locked
  | locked, .listLock b :: evs =>
      if b = l then if locked then none else lockAfter l true evs else lockAfter l locked evs
  | locked, .listUnlock b :: evs => lockAfter l (if b = l then false else locked) evs
  | locked, _ :: evs => lockAfter l locked evs

/-- What is left of a routine's run once the lock is looked at. -/
def underLock (l : Addr) (locked : Bool) (r : Int × World) : Except Fault (Int × Guarded) :=
  match lockAfter l locked r.2.trace with
  | none => .error .spin
  | some locked' => .ok (r.1, { world := r.2, locked := locked' })

/-- One operation from start to return. -/
def ListOp.call (l : Addr) (op : ListOp) (env : Env) (g : Guarded) :
    Except Fault (Int × Guarded) := do
  let r ← op.routine l env g.start
  underLock l g.locked r

variable {env : Env} {w : World} {g g' : Guarded} {l : Addr} {s : TAGService} {key : Int32}
variable {msg : Ptr} {size : Nat} {xs : List Addr} {es : List Entry} {op : ListOp}
variable {r : Relinked} {v : Int}

theorem call_of_ok (op : ListOp) (h : op.routine l env g.start = .ok (v, w)) :
    op.call l env g = underLock l g.locked (v, w) := by
  simp [ListOp.call, h, bind, Except.bind]

theorem call_of_error {x : Fault} (op : ListOp)
    (h : op.routine l env g.start = .error x) :
    op.call l env g = .error x := by
  simp [ListOp.call, h, bind, Except.bind]

/-! ## What a call answers and leaves -/

/-- The answer of an operation on a list with these entries and reader counters, or none when it
waits for readers. -/
def ListOp.answer (es : List Entry) (levels : RcuList) (fails : Bool) : ListOp → Option Int
  | .insert _ _ _ =>
      if fails then some 0 else if 0 < levels.standing levels.epoch then none else some 1
  | .remove key =>
      if ∃ e, 0 < levels.standing e then none
      else some (if ∃ y ∈ es, hasLevel key y then 1 else 0)
  | .replace key _ _ =>
      if fails then some 0
      else if ∃ y ∈ es, hasLevel key y then
        if 0 < levels.standing levels.epoch then none else some 1
      else some 0

/-- The same operation on an association list. -/
def ListOp.entries (es : List Entry) (fails : Bool) : ListOp → List Entry
  | .insert key msg size => if fails then es else ⟨key, msg, size⟩ :: es
  | .remove key => es.eraseP (hasLevel key)
  | .replace key msg size =>
      if fails then es else replaceFirst (hasLevel key) ⟨key, msg, size⟩ es

/-- A replacement that has its element and does not find the key. -/
def ListOp.Misses (es : List Entry) (fails : Bool) : ListOp → Prop
  | .replace key _ _ => fails = false ∧ ∀ y ∈ es, y.level ≠ key
  | _ => False

/-- An operation that allocates an element. -/
def ListOp.Allocates : ListOp → Prop
  | .remove _ => False
  | _ => True

/-- The list has these entries now, its counters are the old ones, and the lock and the interrupts
are as before the call. -/
structure Settled (l : Addr) (s : TAGService) (g g' : Guarded) (es : List Entry) : Prop where
  list : ∃ s' xs', ListIn l g'.world.mem s' xs' es ∧ s'.levels.standing = s.levels.standing
  locked : g'.locked = false
  irq : g'.world.irq = g.world.irq

/-- Nothing but a name is spent. -/
def spent (g : Guarded) : Guarded :=
  { world := { g.world with mem := withoutBlock g.world.mem, trace := [.maySleep] }
    locked := false }

theorem insert_call_noMemory (hfree : g.locked = false)
    (hfail : env.kmallocFails g.world.mem.brk = true) :
    (ListOp.insert key msg size).call l env g = .ok (0, spent g) := by
  refine (call_of_ok (.insert key msg size)
    (rcuListInsert_noMemory (w := g.start) hfail)).trans ?_
  simp [underLock, lockAfter, hfree, spent, Guarded.start]

theorem replace_call_noMemory (hfree : g.locked = false)
    (hfail : env.kmallocFails g.world.mem.brk = true) :
    (ListOp.replace key msg size).call l env g = .ok (0, spent g) := by
  refine (call_of_ok (.replace key msg size)
    (rcuListReplace_noMemory (w := g.start) hfail)).trans ?_
  simp [underLock, lockAfter, hfree, spent, Guarded.start]

/-- A call whose routine took and released the lock. -/
theorem underLock_committed {w : World} (hfree : g.locked = false)
    (hw : lockAfter l false w.trace = some false) :
    underLock l g.locked (v, w) = .ok (v, { world := w, locked := false }) := by
  simp [underLock, hfree, hw]

theorem insert_call (key : Int32) (msg : Ptr) (size : Nat)
    (h : ListIn l g.world.mem s xs es) (hfree : g.locked = false)
    (hok : env.kmallocFails g.world.mem.brk = false)
    (hgrace : s.levels.standing s.levels.epoch ≤ 0) :
    ∃ g', (ListOp.insert key msg size).call l env g = .ok (1, g') ∧
      Settled l s g g' (⟨key, msg, size⟩ :: es) := by
  obtain ⟨hspec, hes⟩ := h.insertion ⟨key, msg, size⟩
  have hlt := h.lt_succ fun b hb => (List.mem_cons.mp hb).symm
  have hlist := (h.alloc ⟨key, msg, size⟩).relink hspec hlt hes
  have hret := call_of_ok (.insert key msg size)
    (rcuListInsert_eq (w := g.start) h.record hok hgrace)
  refine ⟨_, hret.trans (underLock_committed hfree ?_), ⟨_, _, hlist, rfl⟩, rfl, rfl⟩
  simp [committed, allocated, Guarded.start, lockAfter]

theorem replace_call (key : Int32) (msg : Ptr) (size : Nat)
    (h : ListIn l g.world.mem s xs es) (hfree : g.locked = false)
    (hok : env.kmallocFails g.world.mem.brk = false) (hkey : ∃ y ∈ es, hasLevel key y)
    (hgrace : s.levels.standing s.levels.epoch ≤ 0) :
    ∃ g', (ListOp.replace key msg size).call l env g = .ok (1, g') ∧
      Settled l s g g' (replaceFirst (hasLevel key) ⟨key, msg, size⟩ es) := by
  obtain ⟨r, b, xs', hr, hb, hexchanges, hspec, hes⟩ :=
    h.relinkReplace_present (x := ⟨key, msg, size⟩) hkey
  have hlt := h.lt_succ hexchanges.cells
  have hlist := ((h.alloc ⟨key, msg, size⟩).relink hspec hlt hes).kfree hexchanges.gone
  have hret := call_of_ok (.replace key msg size)
    (rcuListReplace_eq (w := g.start) h.record hok hr hb hgrace)
  refine ⟨_, hret.trans (underLock_committed hfree ?_), ⟨_, _, hlist, rfl⟩, rfl, rfl⟩
  simp [freed, committed, allocated, Guarded.start, lockAfter]

/-- Without the key the call returns with the lock taken, interrupts off and its element still
allocated. -/
theorem replace_call_missing (env : Env) (key : Int32) (msg : Ptr) (size : Nat)
    (h : ListIn l g.world.mem s xs es) (hfree : g.locked = false)
    (hok : env.kmallocFails g.world.mem.brk = false) (hkey : ∀ y ∈ es, hasLevel key y = false) :
    ∃ g', (ListOp.replace key msg size).call l env g = .ok (0, g') ∧ g'.locked = true ∧
      g'.world.irq = false ∧ ListIn l g'.world.mem s xs es ∧
      (g'.world.mem.elements g.world.mem.brk).isSome := by
  have hr := h.relinkReplace_absent (x := ⟨key, msg, size⟩) hkey
  have hret := call_of_ok (.replace key msg size)
    (rcuListReplace_early (w := g.start) h.record hok hr)
  refine ⟨{ world := abandoned g.start l key msg size, locked := true }, hret.trans ?_,
    rfl, rfl, h.alloc ⟨key, msg, size⟩, ?_⟩
  · simp [underLock, hfree, abandoned, Guarded.start, lockAfter]
  · simp [abandoned, Guarded.start, withElement]

/-- With the lock taken, an insertion that has its element waits for it. -/
theorem insert_call_locked (h : ListIn l g.world.mem s xs es) (hlocked : g.locked = true)
    (hok : env.kmallocFails g.world.mem.brk = false)
    (hgrace : s.levels.standing s.levels.epoch ≤ 0) :
    (ListOp.insert key msg size).call l env g = .error .spin := by
  refine (call_of_ok (.insert key msg size)
    (rcuListInsert_eq (w := g.start) h.record hok hgrace)).trans ?_
  simp [underLock, hlocked, committed, allocated, Guarded.start, lockAfter]

theorem remove_call (env : Env) (h : ListIn l g.world.mem s xs es) (hfree : g.locked = false)
    (hkey : ∃ y ∈ es, hasLevel key y) (hgrace : ∀ e, s.levels.standing e ≤ 0) :
    ∃ g', (ListOp.remove key).call l env g = .ok (1, g') ∧
      Settled l s g g' (es.eraseP (hasLevel key)) := by
  obtain ⟨r, b, xs', hr, hb, hout, hlt, hspec, hes⟩ := h.relinkRemove_present hkey
  have hlist := (h.relink hspec hlt hes).kfree hout
  have heq := rcuListRemove_eq (w := g.start) env h.record hr hgrace
  simp only [hb] at heq
  have hret := call_of_ok (.remove key) heq
  refine ⟨_, hret.trans (underLock_committed hfree ?_), ⟨_, _, hlist, rfl⟩, rfl, rfl⟩
  simp [freed, committed, Guarded.start, lockAfter]

theorem remove_call_missing (env : Env) (h : ListIn l g.world.mem s xs es)
    (hfree : g.locked = false)
    (hkey : ∀ y ∈ es, hasLevel key y = false) (hgrace : ∀ e, s.levels.standing e ≤ 0) :
    ∃ g', (ListOp.remove key).call l env g = .ok (0, g') ∧ Settled l s g g' es := by
  have hr := h.relinkRemove_absent hkey
  have hspec : (⟨g.world.mem.elements, s.levels.head, none⟩ : Relinked).Spec
      g.world.mem.elements xs := ⟨h.list.seg, rfl, fun _ _ => rfl⟩
  have hlist := h.relink hspec (fun b hb => h.lt_brk hb) h.list.entries
  have hret := call_of_ok (.remove key) (rcuListRemove_eq (w := g.start) env h.record hr hgrace)
  refine ⟨_, hret.trans (underLock_committed hfree ?_), ⟨_, _, hlist, rfl⟩, rfl, rfl⟩
  simp [committed, Guarded.start, lockAfter]

/-- The outcomes of an operation: it waits for readers, it has no memory for its element, it ends
with the lock released, or it is a replacement that misses its key. -/
inductive Called (l : Addr) (s : TAGService) (g : Guarded) (xs : List Addr) (es : List Entry)
    (fails : Bool) (op : ListOp) : Except Fault (Int × Guarded) → Prop
  | waits : op.answer es s.levels fails = none → Called l s g xs es fails op (.error .spin)
  | noMemory : fails = true → op.answer es s.levels fails = some 0 → op.entries es fails = es →
      Called l s g xs es fails op (.ok (0, spent g))
  | settled (v : Int) (g' : Guarded) : op.answer es s.levels fails = some v →
      (op.Allocates → v = 1) → Settled l s g g' (op.entries es fails) →
      Called l s g xs es fails op (.ok (v, g'))
  | missed (g' : Guarded) : op.Misses es fails → op.answer es s.levels fails = some 0 →
      op.entries es fails = es → g'.locked = true → g'.world.irq = false →
      ListIn l g'.world.mem s xs es → (g'.world.mem.elements g.world.mem.brk).isSome →
      Called l s g xs es fails op (.ok (0, g'))

theorem insert_called (key : Int32) (msg : Ptr) (size : Nat) (h : ListIn l g.world.mem s xs es)
    (hfree : g.locked = false) :
    Called l s g xs es (env.kmallocFails g.world.mem.brk) (.insert key msg size)
      ((ListOp.insert key msg size).call l env g) := by
  cases hok : env.kmallocFails g.world.mem.brk with
  | true =>
      rw [insert_call_noMemory hfree hok]
      exact .noMemory rfl rfl rfl
  | false =>
      by_cases hgrace : 0 < s.levels.standing s.levels.epoch
      · rw [call_of_error (.insert key msg size)
          (rcuListInsert_spins (w := g.start) h.record hok hgrace)]
        exact .waits (if_pos hgrace)
      · obtain ⟨g', hcall, hsettled⟩ := insert_call key msg size h hfree hok (not_lt.mp hgrace)
        rw [hcall]
        exact .settled 1 g' (if_neg hgrace) (fun _ => rfl) hsettled

theorem remove_called (key : Int32) (env : Env) (h : ListIn l g.world.mem s xs es)
    (hfree : g.locked = false) (fails : Bool) :
    Called l s g xs es fails (.remove key) ((ListOp.remove key).call l env g) := by
  by_cases hgrace : ∃ e, 0 < s.levels.standing e
  · obtain ⟨e, he⟩ := hgrace
    obtain ⟨r, hr⟩ : ∃ r, relinkRemove g.start.mem.elements g.start.mem.brk s.levels.head key =
        .ok r := by
      by_cases hkey : ∃ y ∈ es, hasLevel key y
      · obtain ⟨r, _, _, hr, _⟩ := h.relinkRemove_present hkey
        exact ⟨r, hr⟩
      · exact ⟨_, h.relinkRemove_absent (by simpa using hkey)⟩
    rw [call_of_error (.remove key) (rcuListRemove_spins (w := g.start) env h.record hr he)]
    exact .waits (if_pos ⟨e, he⟩)
  · have hquiet : ∀ e, s.levels.standing e ≤ 0 := by simpa using hgrace
    by_cases hkey : ∃ y ∈ es, hasLevel key y
    · obtain ⟨g', hcall, hsettled⟩ := remove_call env h hfree hkey hquiet
      rw [hcall]
      exact .settled 1 g' (by rw [ListOp.answer, if_neg hgrace, if_pos hkey]) (fun _ => rfl)
        hsettled
    · have habsent : ∀ y ∈ es, hasLevel key y = false := by simpa using hkey
      obtain ⟨g', hcall, hsettled⟩ := remove_call_missing env h hfree habsent hquiet
      rw [hcall]
      refine .settled 0 g' (by rw [ListOp.answer, if_neg hgrace, if_neg hkey]) False.elim ?_
      rw [ListOp.entries, List.eraseP_of_forall_not fun y hy => by simp [habsent y hy]]
      exact hsettled

theorem replace_called (key : Int32) (msg : Ptr) (size : Nat) (h : ListIn l g.world.mem s xs es)
    (hfree : g.locked = false) :
    Called l s g xs es (env.kmallocFails g.world.mem.brk) (.replace key msg size)
      ((ListOp.replace key msg size).call l env g) := by
  cases hok : env.kmallocFails g.world.mem.brk with
  | true =>
      rw [replace_call_noMemory hfree hok]
      exact .noMemory rfl rfl rfl
  | false =>
      by_cases hkey : ∃ y ∈ es, hasLevel key y
      · have hanswer : (ListOp.replace key msg size).answer es s.levels false =
            if 0 < s.levels.standing s.levels.epoch then none else some 1 := if_pos hkey
        by_cases hgrace : 0 < s.levels.standing s.levels.epoch
        · obtain ⟨r, _, _, hr, _⟩ := h.relinkReplace_present (x := ⟨key, msg, size⟩) hkey
          rw [call_of_error (.replace key msg size)
            (rcuListReplace_spins (w := g.start) h.record hok hr hgrace)]
          exact .waits (hanswer.trans (if_pos hgrace))
        · obtain ⟨g', hcall, hsettled⟩ :=
            replace_call key msg size h hfree hok hkey (not_lt.mp hgrace)
          rw [hcall]
          exact .settled 1 g' (hanswer.trans (if_neg hgrace)) (fun _ => rfl) hsettled
      · have habsent : ∀ y ∈ es, hasLevel key y = false := by simpa using hkey
        obtain ⟨g', hcall, hlocked, hirq, hlist, helement⟩ :=
          replace_call_missing env key msg size h hfree hok habsent
        rw [hcall]
        exact .missed g' ⟨rfl, by simpa [hasLevel] using habsent⟩ (if_neg hkey)
          (replaceFirst_of_absent habsent) hlocked hirq hlist helement

/-- One specification for the three operations. -/
theorem called (op : ListOp) (env : Env) (h : ListIn l g.world.mem s xs es)
    (hfree : g.locked = false) :
    Called l s g xs es (env.kmallocFails g.world.mem.brk) op (op.call l env g) := by
  cases op with
  | insert key msg size => exact insert_called key msg size h hfree
  | remove key => exact remove_called key env h hfree _
  | replace key msg size => exact replace_called key msg size h hfree

/-- The answer of a call, if it returns. -/
def answerOf (r : Except Fault (Int × Guarded)) : Option Int := r.toOption.map Prod.fst

/-- The answer depends on the entries, the counters and the allocation alone. -/
theorem answerOf_call (op : ListOp) (env : Env) (h : ListIn l g.world.mem s xs es)
    (hfree : g.locked = false) :
    answerOf (op.call l env g) = op.answer es s.levels (env.kmallocFails g.world.mem.brk) := by
  have hcalled := called op env h hfree
  generalize op.call l env g = r at hcalled
  cases hcalled with
  | waits hanswer | noMemory _ hanswer | settled _ _ hanswer | missed _ _ hanswer =>
    exact hanswer.symm

end TagMessaging.Serial
