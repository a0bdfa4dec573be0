/-
# TagMessaging.Serial.Near -- memories a routine does not tell apart

Two memories that differ only in the messages of some list elements and in the contents of some
buffers. The links and the levels of the elements agree, so every walk and every relinking goes the
same way on both; only `tag_receive` reads a message.

The same walk through the routines compares two runs whose fresh blocks held different things. What
`kmalloc` leaves in a block is overwritten before a call reads it, but for two fields of the scratch
record of `tag_ctl_TBDE_REMOVE`, which no slot leads to. `Near` allows for that record too, and each
kernel service and list operation is walked through once, in lockstep from near worlds.
-/
import TagMessaging.Serial.Table
import TagMessaging.Serial.ListCalls
import TagMessaging.Lib.TwoRuns

namespace TagMessaging.Serial

open TagMessaging.Lib.Effect TagMessaging.Model

/-! ## Alike memories -/

/-- What the walks read of an element. -/
def skeleton (e : Element) : Ptr × Int32 := (e.next, e.level)

/-- The elements agree outside `X`, and in `X` up to what they carry. -/
structure ElementsAlike (X : Addr → Prop) (E E' : Addr → Option Element) : Prop where
  outside : ∀ a, ¬ X a → E' a = E a
  skeleton : ∀ a, (E' a).map skeleton = (E a).map skeleton

/-- The memories agree but for what the elements in `X` carry and the contents of the buffers in
`B`. -/
structure MemAlike (X B : Addr → Prop) (m m' : Mem) : Prop where
  slots : m'.tagServices = m.tagServices
  count : m'.serviceCount = m.serviceCount
  services : m'.services = m.services
  elements : ElementsAlike X m.elements m'.elements
  buffers : ∀ b, ¬ B b → m'.buffers b = m.buffers b
  brk : m'.brk = m.brk

/-- The worlds agree but for that. -/
structure Alike (X B : Addr → Prop) (w w' : World) : Prop where
  mem : MemAlike X B w.mem w'.mem
  irq : w'.irq = w.irq
  flags : w'.flags = w.flags
  trace : w'.trace = w.trace

/-- What fresh blocks hold. -/
structure Stock where
  service : Addr → TAGService
  element : Addr → Element

/-- What they hold in the environment itself. -/
def ownStock (env : Env) : Stock := { service := env.staleService, element := env.staleElement }

/-- The environment with other contents of fresh blocks. -/
def restock (f : Env → Stock) (env : Env) : Env :=
  { env with staleService := (f env).service, staleElement := (f env).element }

/-- The memories agree but for that and for the `key`, `tag`, `uidCreator` and `perm` of records
outside `Z`. The slots lead into `Z`; a block handed out later is outside, unless the two runs get
the same contents anyway. -/
structure MemNear (f : Env → Stock) (X B Z : Addr → Prop) (m m' : Mem) : Prop where
  slots : m'.tagServices = m.tagServices
  count : m'.serviceCount = m.serviceCount
  lists : ∀ a, (m'.services a).map TAGService.levels = (m.services a).map TAGService.levels
  records : ∀ a, Z a → m'.services a = m.services a
  seated : ∀ i a, m.tagServices i = some a → Z a
  below : f ≠ ownStock → ∀ a, Z a → a < m.brk
  elements : ElementsAlike X m.elements m'.elements
  buffers : ∀ b, ¬ B b → m'.buffers b = m.buffers b
  brk : m'.brk = m.brk

/-- The worlds agree but for that. -/
structure Near (f : Env → Stock) (X B Z : Addr → Prop) (w w' : World) : Prop where
  mem : MemNear f X B Z w.mem w'.mem
  irq : w'.irq = w.irq
  flags : w'.flags = w.flags
  trace : w'.trace = w.trace

/-- The worlds are near, with at least the records in `Z` the same. -/
def Twin (f : Env → Stock) (X B Z : Addr → Prop) (w w' : World) : Prop :=
  ∃ Z', (∀ a, Z a → Z' a) ∧ Near f X B Z' w w'

/-- The routine runs alike from near worlds, to near worlds. -/
abbrev Lockstep (f : Env → Stock) (X B Z : Addr → Prop) {α : Type} (m : Kernel α) : Prop :=
  Parallel (restock f) (Near f X B Z) m

/-- `Z` with the record a pointer leads to. -/
def Also (Z : Addr → Prop) (p : Ptr) (a : Addr) : Prop := Z a ∨ p = some a

variable {f : Env → Stock} {X B Z : Addr → Prop} {E E' : Addr → Option Element} {m m' : Mem}
variable {env : Env} {w w' : World} {α : Type} {a b l : Addr} {p head : Ptr} {key : Int32}
variable {fuel : Nat} {r r' : Relinked} {s s' : TAGService}

theorem MemAlike.refl : MemAlike X B m m :=
  ⟨rfl, rfl, rfl, ⟨fun _ _ => rfl, fun _ => rfl⟩, fun _ _ => rfl, rfl⟩

/-- Alike worlds are those that are near under one environment with all records the same. -/
theorem alike_iff_twin : Alike X B w w' ↔ Twin ownStock X B (fun _ => True) w w' := by
  constructor
  · rintro ⟨hm, hirq, hflags, htrace⟩
    refine ⟨fun _ => True, fun _ h => h, ?_, hirq, hflags, htrace⟩
    exact ⟨hm.slots, hm.count, fun a => by rw [hm.services], fun a _ => by rw [hm.services],
      fun _ _ _ => trivial, fun hne => absurd rfl hne, hm.elements, hm.buffers, hm.brk⟩
  · rintro ⟨Z, hZ, hm, hirq, hflags, htrace⟩
    refine ⟨?_, hirq, hflags, htrace⟩
    exact ⟨hm.slots, hm.count, funext fun a => hm.records a (hZ a trivial), hm.elements, hm.buffers,
      hm.brk⟩

/-- A routine that runs alike from near worlds cannot see what alike worlds leave open. -/
theorem blind_of_twin {k : Kernel α}
    (h : Parallel (restock ownStock) (Twin ownStock X B fun _ => True) k) :
    Blind (Alike X B) k := by
  intro env w w' hw
  refine (h env w w' (alike_iff_twin.mp hw)).mono ?_
  rintro a t b t' ⟨hb, ht⟩
  exact ⟨hb.symm, alike_iff_twin.mpr ht⟩

/-- A whole call, from what it does with a fixed set of records. -/
theorem twin_of_near {k : Kernel α}
    (h : ∀ Z, ParallelTo (restock f) (Near f X B Z) (fun _ => Twin f X B Z) k) :
    Parallel (restock f) (Twin f X B Z) k := by
  rintro env w w' ⟨Z', hZ, hw⟩
  refine (h Z' env w w' hw).mono ?_
  rintro a t b t' ⟨hb, Z₁, hZ₁, ht⟩
  exact ⟨hb, Z₁, fun a ha => hZ₁ a (hZ a ha), ht⟩

theorem Lockstep.twin {k : Kernel α} (h : Lockstep f X B Z k) :
    ParallelTo (restock f) (Near f X B Z) (fun _ => Twin f X B Z) k :=
  h.imp fun _ _ _ ht => ⟨Z, fun _ hz => hz, ht⟩

/-- `NULL` adds no record. -/
theorem Near.also_null (h : Near f X B Z w w') : Near f X B (Also Z none) w w' := by
  have hz : ∀ a, Also Z none a → Z a := fun a ha => ha.resolve_right (by simp)
  have hm := h.mem
  exact ⟨⟨hm.slots, hm.count, hm.lists, fun a ha => hm.records a (hz a ha),
    fun i a ha => Or.inl (hm.seated i a ha), fun hne a ha => hm.below hne a (hz a ha), hm.elements,
    hm.buffers, hm.brk⟩, h.irq, h.flags, h.trace⟩

theorem Lockstep.twin_also {k : Kernel α} (h : Lockstep f X B (Also Z p) k) :
    ParallelTo (restock f) (Near f X B (Also Z p)) (fun _ => Twin f X B Z) k :=
  h.imp fun _ _ _ ht => ⟨Also Z p, fun _ hz => Or.inl hz, ht⟩

/-- The same block at the same place. -/
theorem ElementsAlike.update (h : ElementsAlike X E E') (a : Addr) (v : Option Element) :
    ElementsAlike X (Function.update E a v) (Function.update E' a v) := by
  refine ⟨fun b hb => ?_, fun b => ?_⟩
  · by_cases hba : b = a
    · simp [hba]
    · simpa [hba] using h.outside b hb
  · by_cases hba : b = a
    · simp [hba]
    · simpa [hba] using h.skeleton b

theorem ElementsAlike.setNext (h : ElementsAlike X E E') (a : Addr) (p : Ptr) :
    ElementsAlike X (setNext E a p) (setNext E' a p) := by
  refine ⟨fun b hb => ?_, fun b => ?_⟩
  · by_cases hba : b = a
    · subst hba
      simp [Model.setNext, h.outside b hb]
    · rw [setNext_of_ne hba, setNext_of_ne hba, h.outside b hb]
  · by_cases hba : b = a
    · subst hba
      have hskel := h.skeleton b
      unfold Model.setNext
      rw [Function.update_self, Function.update_self]
      cases he : E b with
      | none =>
        rw [he] at hskel
        simp [Option.map_eq_none_iff.mp hskel]
      | some e =>
        rw [he] at hskel
        obtain ⟨e', he', heq⟩ := Option.map_eq_some_iff.mp hskel
        have hlevel : e'.level = e.level := congrArg Prod.snd heq
        simp [he', Serial.skeleton, hlevel]
    · rw [setNext_of_ne hba, setNext_of_ne hba]
      exact h.skeleton b

/-- Following a pointer. -/
theorem ElementsAlike.deref (h : ElementsAlike X E E') (p : Ptr) :
    (∃ x, derefElement E p = .error x ∧ derefElement E' p = .error x) ∨
      ∃ e e', derefElement E p = .ok e ∧ derefElement E' p = .ok e' ∧ e'.next = e.next ∧
        e'.level = e.level := by
  cases p with
  | none => exact Or.inl ⟨_, rfl, rfl⟩
  | some a =>
    have hskel := h.skeleton a
    cases he : E a with
    | none =>
      rw [he] at hskel
      exact Or.inl ⟨.dangling a, by simp [derefElement, he],
        by simp [derefElement, Option.map_eq_none_iff.mp hskel]⟩
    | some e =>
      rw [he] at hskel
      obtain ⟨e', he', heq⟩ := Option.map_eq_some_iff.mp hskel
      exact Or.inr ⟨e, e', derefElement_some he, derefElement_some he', congrArg Prod.fst heq,
        congrArg Prod.snd heq⟩

/-! ## The walks and the relinkings -/

/-- The walk reads levels and links only. -/
theorem ElementsAlike.findLevel (h : ElementsAlike X E E') (key : Int32) (fuel : Nat) (p : Ptr) :
    findLevel E' key fuel p = findLevel E key fuel p := by
  induction fuel generalizing p with
  | zero => cases p <;> rfl
  | succ fuel ih =>
    cases p with
    | none => rfl
    | some a =>
      rcases h.deref (some a) with ⟨x, hx, hx'⟩ | ⟨e, e', he, he', hnext, hlevel⟩
      · simp [Model.findLevel, hx, hx', bind, Except.bind]
      · simp [Model.findLevel, he, he', hnext, hlevel, ih, bind, Except.bind]

theorem ElementsAlike.findBefore (h : ElementsAlike X E E') (key : Int32) (fuel : Nat) (p : Ptr) :
    findBefore E' key fuel p = findBefore E key fuel p := by
  induction fuel generalizing p with
  | zero => cases p <;> rfl
  | succ fuel ih =>
    cases p with
    | none => rfl
    | some a =>
      rcases h.deref (some a) with ⟨x, hx, hx'⟩ | ⟨e, e', he, he', hnext, _⟩
      · simp [Model.findBefore, hx, hx', bind, Except.bind]
      · cases hb : e.next with
        | none => simp [Model.findBefore, he, he', hnext, hb, ih, bind, Except.bind]
        | some b =>
          rcases h.deref (some b) with ⟨x, hx, hx'⟩ | ⟨eb, eb', heb, heb', _, hlevel⟩
          · simp [Model.findBefore, he, he', hnext, hb, hx, hx', bind, Except.bind]
          · simp [Model.findBefore, he, he', hnext, hb, heb, heb', hlevel, ih, bind, Except.bind]

/-- The relinkings go the same way. -/
structure RelinkedAlike (X : Addr → Prop) (r r' : Relinked) : Prop where
  head : r'.head = r.head
  removed : r'.removed = r.removed
  elements : ElementsAlike X r.elements r'.elements

theorem ElementsAlike.relinkInsert (h : ElementsAlike X E E') (head : Ptr) (a : Addr) :
    RelinkedAlike X (relinkInsert E head a) (relinkInsert E' head a) :=
  ⟨rfl, rfl, h.setNext a head⟩

/-- So does the relinking: it finds the same element and changes the same links. -/
theorem ElementsAlike.relinkReplace (h : ElementsAlike X E E') (fuel : Nat) (head : Ptr)
    (key : Int32) (new : Addr) :
    (∃ x, relinkReplace E fuel head key new = .error x ∧
        relinkReplace E' fuel head key new = .error x) ∨
      (relinkReplace E fuel head key new = .ok none ∧
        relinkReplace E' fuel head key new = .ok none) ∨
      ∃ r r', relinkReplace E fuel head key new = .ok (some r) ∧
        relinkReplace E' fuel head key new = .ok (some r') ∧ RelinkedAlike X r r' := by
  cases head with
  | none => exact Or.inr (Or.inl ⟨rfl, rfl⟩)
  | some a =>
    rcases h.deref (some a) with ⟨x, hx, hx'⟩ | ⟨e, e', he, he', hnext, hlevel⟩
    · exact Or.inl ⟨x, by simp [Model.relinkReplace, hx, bind, Except.bind],
        by simp [Model.relinkReplace, hx', bind, Except.bind]⟩
    · by_cases hkey : e.level = key
      · -- the head is replaced
        refine Or.inr (Or.inr ⟨⟨Model.setNext E new e.next, some new, some a⟩,
          ⟨Model.setNext E' new e.next, some new, some a⟩, ?_, ?_, ⟨rfl, rfl, h.setNext new e.next⟩⟩)
        · simp [Model.relinkReplace, he, hkey, bind, Except.bind, pure, Except.pure]
        · simp [Model.relinkReplace, he', hnext, hlevel, hkey, bind, Except.bind, pure, Except.pure]
      · have hwalk := h.findBefore key fuel (some a)
        cases hb : Model.findBefore E key fuel (some a) with
        | error x =>
          refine Or.inl ⟨x, ?_, ?_⟩
          · simp [Model.relinkReplace, he, hkey, hb, bind, Except.bind]
          · simp [Model.relinkReplace, he', hlevel, hkey, hwalk, hb, bind, Except.bind]
        | ok q =>
          cases q with
          | none =>
            refine Or.inr (Or.inl ⟨?_, ?_⟩)
            · simp [Model.relinkReplace, he, hkey, hb, bind, Except.bind, pure, Except.pure]
            · simp [Model.relinkReplace, he', hlevel, hkey, hwalk, hb, bind, Except.bind, pure,
                Except.pure]
          | some q =>
            rcases h.deref (some q) with ⟨x, hx, hx'⟩ | ⟨eq, eq', heq, heq', hqnext, _⟩
            · refine Or.inl ⟨x, ?_, ?_⟩
              · simp [Model.relinkReplace, he, hkey, hb, hx, bind, Except.bind]
              · simp [Model.relinkReplace, he', hlevel, hkey, hwalk, hb, hx', bind, Except.bind]
            · rcases h.deref eq.next with ⟨x, hx, hx'⟩ | ⟨er, er', her, her', hrnext, _⟩
              · refine Or.inl ⟨x, ?_, ?_⟩
                · simp [Model.relinkReplace, he, hkey, hb, heq, hx, bind, Except.bind]
                · simp [Model.relinkReplace, he', hlevel, hkey, hwalk, hb, heq', hqnext, hx', bind,
                    Except.bind]
              · refine Or.inr (Or.inr
                  ⟨⟨Model.setNext (Model.setNext E q (some new)) new er.next, some a, eq.next⟩,
                    ⟨Model.setNext (Model.setNext E' q (some new)) new er.next, some a, eq.next⟩,
                    ?_, ?_,
                    ⟨rfl, rfl, (h.setNext q (some new)).setNext new er.next⟩⟩)
                · simp [Model.relinkReplace, he, hkey, hb, heq, her, bind, Except.bind, pure,
                    Except.pure]
                · simp [Model.relinkReplace, he', hlevel, hkey, hwalk, hb, heq', hqnext, her',
                    hrnext, bind, Except.bind, pure, Except.pure]

/-! ## The kernel services -/

theorem Near.withMem (h : Near f X B Z w w') (hm : MemNear f X B Z m m') :
    Near f X B Z { w with mem := m } { w' with mem := m' } :=
  ⟨hm, h.irq, h.flags, h.trace⟩

/-- A store that keeps near memories near. -/
theorem lockstep_modifyMem {g : Mem → Mem}
    (h : ∀ m m', MemNear f X B Z m m' → MemNear f X B Z (g m) (g m')) :
    Lockstep f X B Z (modifyMem g) :=
  parallel_modify fun _ _ hw => hw.withMem (h _ _ hw.mem)

/-- A load of what near memories share. -/
theorem lockstep_readMem {g : Mem → α} (h : ∀ m m', MemNear f X B Z m m' → g m' = g m) :
    Lockstep f X B Z (readMem g) :=
  fun _ w w' hw => ⟨h w.mem w'.mem hw.mem, hw⟩

/-- The traces are the same, before and after. -/
theorem lockstep_emit (ev : Event) : Lockstep f X B Z (emit ev) :=
  parallel_modify fun w w' hw => ⟨hw.mem, hw.irq, hw.flags, by rw [hw.trace]⟩

theorem lockstep_tryModuleGet : Lockstep f X B Z tryModuleGet :=
  parallel_ask (fun _ => rfl) fun _ => parallel_bind (lockstep_emit _) fun _ => parallel_pure _

theorem lockstep_searchLockIrqsave (op : LockOp) : Lockstep f X B Z (searchLockIrqsave op) :=
  fun _ w w' hw => ⟨hw.irq, ⟨hw.mem, rfl, hw.flags, by
    show w'.trace ++ _ = w.trace ++ _
    rw [hw.trace]⟩⟩

theorem lockstep_searchUnlockIrqrestore (op : LockOp) (saved : Bool) :
    Lockstep f X B Z (searchUnlockIrqrestore op saved) :=
  parallel_bind (lockstep_emit _) fun _ =>
    parallel_modify fun _ _ hw => ⟨hw.mem, rfl, hw.flags, hw.trace⟩

theorem lockstep_listLockIrqsave (l : Addr) : Lockstep f X B Z (listLockIrqsave l) :=
  parallel_bind (parallel_modify fun _ _ hw => ⟨hw.mem, rfl, hw.irq, hw.trace⟩) fun _ =>
    lockstep_emit _

theorem lockstep_listUnlockIrqrestore (l : Addr) : Lockstep f X B Z (listUnlockIrqrestore l) :=
  parallel_bind (lockstep_emit _) fun _ =>
    parallel_modify fun _ _ hw => ⟨hw.mem, hw.flags, hw.flags, hw.trace⟩

/-- Following a pointer to a record that is the same on both sides. -/
theorem lockstep_loadService (hp : ∀ a, p = some a → Z a) :
    Lockstep f X B Z (loadService p) := by
  cases p with
  | none => exact parallel_stop _
  | some a =>
    refine parallel_bind (lockstep_readMem fun _ _ hm => hm.records a (hp a rfl)) fun s => ?_
    cases s with
    | none => exact parallel_stop _
    | some s => exact parallel_pure s

/-- A record is there on both sides or on neither, with the same list. -/
theorem MemNear.record_cases (h : MemNear f X B Z m m') (a : Addr) :
    (m.services a = none ∧ m'.services a = none) ∨
      ∃ s s', m.services a = some s ∧ m'.services a = some s' ∧ s'.levels = s.levels := by
  have hlist := h.lists a
  cases hs : m.services a with
  | none =>
    rw [hs] at hlist
    exact Or.inl ⟨rfl, Option.map_eq_none_iff.mp hlist⟩
  | some s =>
    rw [hs] at hlist
    obtain ⟨s', hs', heq⟩ := Option.map_eq_some_iff.mp hlist
    exact Or.inr ⟨s, s', rfl, hs', heq⟩

/-- A record is stored, with the same list and, where it counts, the same fields. -/
theorem MemNear.storeRecord (h : MemNear f X B Z m m') (hlevels : s'.levels = s.levels)
    (hsame : Z a → s' = s) :
    MemNear f X B Z { m with services := Function.update m.services a (some s) }
      { m' with services := Function.update m'.services a (some s') } := by
  refine ⟨h.slots, h.count, fun b => ?_, fun b hb => ?_, h.seated, h.below, h.elements, h.buffers,
    h.brk⟩
  · by_cases hba : b = a
    · simp [hba, hlevels]
    · simpa [hba] using h.lists b
  · by_cases hba : b = a
    · subst hba
      simp [hsame hb]
    · simpa [hba] using h.records b hb

theorem MemNear.dropRecord (h : MemNear f X B Z m m') (a : Addr) :
    MemNear f X B Z { m with services := Function.update m.services a none }
      { m' with services := Function.update m'.services a none } := by
  refine ⟨h.slots, h.count, fun b => ?_, fun b hb => ?_, h.seated, h.below, h.elements, h.buffers,
    h.brk⟩
  · by_cases hba : b = a
    · simp [hba]
    · simpa [hba] using h.lists b
  · by_cases hba : b = a
    · simp [hba]
    · simpa [hba] using h.records b hb

theorem loadService_eq (hs : w.mem.services l = some s) :
    loadService (some l) env w = .ok (s, w) := by
  refine eq_ok_of_wp ?_
  simp [wp_loadService_of hs]

theorem loadService_dangling (hs : w.mem.services l = none) :
    loadService (some l) env w = .error (.dangling l) := by
  refine eq_error_of_wp ?_
  simp [hs]

/-- The list of any record is the same on both sides. -/
theorem lockstep_loadList (l : Addr) : Lockstep f X B Z (loadList l) := by
  intro env w w' hw
  rcases hw.mem.record_cases l with ⟨hs, hs'⟩ | ⟨s, s', hs, hs', hlevels⟩
  · exact couple_bind (couple_of_error (Q := fun _ _ _ _ => False) (loadService_dangling hs)
      (loadService_dangling hs')) fun _ _ _ _ => False.elim
  · exact couple_bind_of_ok (loadService_eq hs) (loadService_eq hs') ⟨hlevels, hw⟩

/-- The lists of the records are the same. -/
theorem lockstep_storeList (l : Addr) (g : RcuList → RcuList) :
    Lockstep f X B Z (storeList l g) := by
  intro env w w' hw
  rcases hw.mem.record_cases l with ⟨hs, hs'⟩ | ⟨s, s', hs, hs', hlevels⟩
  · exact couple_bind (couple_of_error (Q := fun _ _ _ _ => False) (loadService_dangling hs)
      (loadService_dangling hs')) fun _ _ _ _ => False.elim
  · refine couple_bind_of_ok (loadService_eq hs) (loadService_eq hs') ⟨rfl, hw.withMem ?_⟩
    refine hw.mem.storeRecord (congrArg g hlevels) fun hz => ?_
    have heq := hw.mem.records l hz
    rw [hs, hs', Option.some.injEq] at heq
    rw [heq]

theorem lockstep_awaitStanding (l : Addr) (e : Fin 2) : Lockstep f X B Z (awaitStanding l e) :=
  parallel_bind (lockstep_loadList l) fun _ => parallel_ite (parallel_stop _) (parallel_pure ())

/-- The next name is spent on both sides. -/
theorem MemNear.spend (h : MemNear f X B Z m m') :
    MemNear f X B Z (withoutBlock m) (withoutBlock m') :=
  ⟨h.slots, h.count, h.lists, h.records, h.seated,
    fun hne a ha => Nat.lt_succ_of_lt (h.below hne a ha), h.elements, h.buffers,
    congrArg (· + 1) h.brk⟩

theorem MemNear.elements_update (h : MemNear f X B Z m m') (ha : b = a) (e : Option Element) :
    MemNear f X B Z { m with elements := Function.update m.elements a e }
      { m' with elements := Function.update m'.elements b e } := by
  subst ha
  exact ⟨h.slots, h.count, h.lists, h.records, h.seated, h.below, h.elements.update b e, h.buffers,
    h.brk⟩

theorem MemNear.buffers_update (h : MemNear f X B Z m m') (ha : b = a)
    (bytes : Option (List UInt8)) :
    MemNear f X B Z { m with buffers := Function.update m.buffers a bytes }
      { m' with buffers := Function.update m'.buffers b bytes } := by
  subst ha
  refine ⟨h.slots, h.count, h.lists, h.records, h.seated, h.below, h.elements, fun a ha => ?_, h.brk⟩
  by_cases hba : a = b
  · simp [hba]
  · simpa [hba] using h.buffers a ha

/-- The worlds after an allocation. -/
theorem Near.asleep (h : Near f X B Z w w') (hm : MemNear f X B Z m m') :
    Near f X B Z { w with mem := m, trace := w.trace ++ [.maySleep] }
      { w' with mem := m', trace := w'.trace ++ [.maySleep] } :=
  ⟨hm, h.irq, h.flags, congrArg (· ++ _) h.trace⟩

/-- Every field of a new element is stored before it is linked. -/
theorem lockstep_newElement (key : Int32) (msg : Ptr) (size : Nat) :
    Lockstep f X B Z (newElement key msg size) := by
  intro env w w' hw
  have hbrk := hw.mem.brk
  cases hfail : env.kmallocFails w.mem.brk with
  | true =>
    have hfail' : (restock f env).kmallocFails w'.mem.brk = true := by rw [hbrk]; exact hfail
    exact couple_of_ok (newElement_fails hfail) (newElement_fails hfail')
      ⟨rfl, hw.asleep hw.mem.spend⟩
  | false =>
    have hok' : (restock f env).kmallocFails w'.mem.brk = false := by rw [hbrk]; exact hfail
    exact couple_of_ok (newElement_succeeds hfail) (newElement_succeeds hok')
      ⟨congrArg some hbrk, hw.asleep (hw.mem.spend.elements_update hbrk _)⟩

theorem lockstep_kfreeElement (a : Addr) : Lockstep f X B Z (kfreeElement a) :=
  lockstep_modifyMem fun _ _ hm => hm.elements_update rfl none

theorem vzalloc_fails {size : Nat} (hfail : size = 0 ∨ env.kmallocFails w.mem.brk = true) :
    vzalloc size env w =
      .ok (none, { w with mem := withoutBlock w.mem, trace := w.trace ++ [.maySleep] }) := by
  refine eq_ok_of_wp ?_
  simp [vzalloc, hfail, withMem, withoutBlock]

theorem vzalloc_succeeds {size : Nat} (hok : ¬ (size = 0 ∨ env.kmallocFails w.mem.brk = true)) :
    vzalloc size env w =
      .ok (some w.mem.brk, { w with
        mem := { w.mem with
          brk := w.mem.brk + 1
          buffers := Function.update w.mem.buffers w.mem.brk (some (List.replicate size 0)) }
        trace := w.trace ++ [.maySleep] }) := by
  refine eq_ok_of_wp ?_
  simp [vzalloc, hok, withMem]

/-- `vzalloc` zeroes its buffer, so that a fresh one holds the same on both sides. -/
theorem lockstep_vzalloc (size : Nat) : Lockstep f X B Z (vzalloc size) := by
  intro env w w' hw
  have hbrk := hw.mem.brk
  by_cases hfail : size = 0 ∨ env.kmallocFails w.mem.brk = true
  · have hfail' : size = 0 ∨ (restock f env).kmallocFails w'.mem.brk = true := by
      rw [hbrk]
      exact hfail
    exact couple_of_ok (vzalloc_fails hfail) (vzalloc_fails hfail')
      ⟨rfl, hw.asleep hw.mem.spend⟩
  · have hok' : ¬ (size = 0 ∨ (restock f env).kmallocFails w'.mem.brk = true) := by
      rw [hbrk]
      exact hfail
    exact couple_of_ok (vzalloc_succeeds hfail) (vzalloc_succeeds hok')
      ⟨congrArg some hbrk, hw.asleep (hw.mem.spend.buffers_update hbrk _)⟩

theorem lockstep_vfree (p : Ptr) : Lockstep f X B Z (vfree p) := by
  cases p with
  | none => exact parallel_pure ()
  | some a => exact lockstep_modifyMem fun _ _ hm => hm.buffers_update rfl none

theorem lockstep_kfreeService (p : Ptr) : Lockstep f X B Z (kfreeService p) := by
  cases p with
  | none => exact parallel_pure ()
  | some a => exact lockstep_modifyMem fun _ _ hm => hm.dropRecord a

/-- What arrives from user space does not depend on the buffer. -/
theorem lockstep_copyFromUser (buf : Ptr) (user : Nat → UInt8) (size : Nat) :
    Lockstep f X B Z (copyFromUser buf user size) := by
  refine parallel_ask (fun _ => rfl) fun env => parallel_bind (lockstep_emit _) fun _ => ?_
  cases buf with
  | none => exact parallel_ite (parallel_pure _) (parallel_stop _)
  | some a =>
    exact parallel_bind (lockstep_modifyMem fun _ _ hm => hm.buffers_update rfl _) fun _ =>
      parallel_pure _

/-- A slot is cleared. -/
theorem lockstep_clearSlot (i : Fin minSysTagServices) :
    Lockstep f X B Z (storeSlot i none) := by
  refine lockstep_modifyMem fun m m' hm => ?_
  refine ⟨congrArg (Function.update · i none) hm.slots, hm.count, hm.lists, hm.records, ?_, hm.below,
    hm.elements, hm.buffers, hm.brk⟩
  intro j a hj
  by_cases hji : j = i
  · simp [hji] at hj
  · exact hm.seated j a (by simpa [hji] using hj)

/-- What a slot holds leads to a record that is the same on both sides. -/
theorem parallel_loadSlot (i : Fin minSysTagServices) :
    ParallelTo (restock f) (Near f X B Z)
      (fun p t t' => (∀ a, p = some a → Z a) ∧ Near f X B Z t t') (loadSlot i) :=
  fun _ _ _ hw => ⟨congrFun hw.mem.slots i, hw.mem.seated i, hw⟩

theorem lockstep_addServiceCount (d : UInt32) : Lockstep f X B Z (addServiceCount d) :=
  lockstep_modifyMem fun _ _ hm => ⟨hm.slots, congrArg (· + d) hm.count, hm.lists, hm.records,
    hm.seated, hm.below, hm.elements, hm.buffers, hm.brk⟩

theorem lockstep_levelIndex (i : Int32) : Lockstep f X B Z (levelIndex i) := by
  unfold levelIndex
  split
  · exact parallel_pure _
  · exact parallel_stop _

theorem lockstep_slotIndex (tag : UInt32) : Lockstep f X B Z (slotIndex tag) := by
  unfold slotIndex
  split
  · exact parallel_pure _
  · exact parallel_stop _

/-! ## The list operations -/

/-- Two relinkings that go the same way are taken over alike. -/
theorem couple_storeRelinked (hw : Near f X B Z w w') (hr : RelinkedAlike X r r') :
    Couple env (storeRelinked l r) w ((storeRelinked l r').under (restock f)) w'
      fun a t b t' => b = a ∧ Near f X B Z t t' := by
  refine couple_under_bind_of_ok rfl rfl ?_
  rw [hr.head]
  refine lockstep_storeList l _ env _ _ (hw.withMem ?_)
  exact ⟨hw.mem.slots, hw.mem.count, hw.mem.lists, hw.mem.records, hw.mem.seated, hw.mem.below,
    hr.elements, hw.mem.buffers, hw.mem.brk⟩

/-- Every field of the new element is stored before it is linked in. -/
theorem lockstep_rcuListInsert (l : Addr) (key : Int32) (msg : Ptr) (size : Nat) :
    Lockstep f X B Z (rcuListInsert l key msg size) := by
  refine parallel_bind (lockstep_newElement key msg size) fun p => ?_
  cases p with
  | none => exact parallel_pure _
  | some a =>
    refine parallel_bind (lockstep_listLockIrqsave l) fun _ =>
      parallel_bind (lockstep_loadList l) fun list => ?_
    intro env w w' hw
    -- the elements that are read differ, but their relinkings go the same way
    refine couple_under_bind_of_ok rfl rfl ?_
    refine couple_under_bind (couple_storeRelinked hw
      (hw.mem.elements.relinkInsert list.head a)) ?_
    rintro _ t _ t' ⟨_, ht⟩
    exact parallel_bind (lockstep_storeList l _) (fun _ => parallel_bind (lockstep_awaitStanding l _)
      fun _ => parallel_bind (lockstep_listUnlockIrqrestore l) fun _ => parallel_pure _) env t t' ht

/-- So with the replacement, on each of its paths. -/
theorem lockstep_rcuListReplace (l : Addr) (key : Int32) (msg : Ptr) (size : Nat) :
    Lockstep f X B Z (rcuListReplace l key msg size) := by
  refine parallel_bind (lockstep_newElement key msg size) fun p => ?_
  cases p with
  | none => exact parallel_pure _
  | some a =>
    refine parallel_bind (lockstep_listLockIrqsave l) fun _ =>
      parallel_bind (lockstep_loadList l) fun list => ?_
    intro env w w' hw
    refine couple_under_bind_of_ok rfl rfl ?_
    show Couple env (Action.lift (relinkReplace w.mem.elements w.mem.brk list.head key a) >>= _) w
      ((Action.lift (relinkReplace w'.mem.elements w'.mem.brk list.head key a) >>= _).under _) w' _
    rw [hw.mem.brk]
    rcases hw.mem.elements.relinkReplace w.mem.brk list.head key a with
      ⟨x, hx, hx'⟩ | ⟨hx, hx'⟩ | ⟨r, r', hx, hx', hr⟩
    · rw [hx, hx']
      exact couple_under_bind (Q := fun _ _ _ _ => False) rfl fun _ _ _ _ => False.elim
    · rw [hx, hx']
      exact ⟨rfl, hw⟩
    · rw [hx, hx']
      refine couple_under_bind_of_ok rfl rfl ?_
      refine couple_under_bind (couple_storeRelinked hw hr) ?_
      rintro _ t _ t' ⟨_, ht⟩
      rw [hr.removed]
      refine parallel_bind (lockstep_storeList l _) (fun _ =>
        parallel_bind (lockstep_awaitStanding l _) fun _ =>
        parallel_bind (lockstep_listUnlockIrqrestore l) fun _ => ?_) env t t' ht
      cases r.removed with
      | none => exact parallel_pure _
      | some b => exact parallel_bind (lockstep_kfreeElement b) fun _ => parallel_pure _

theorem lockstep_waitEventInterruptible (l : Addr) (i : Fin levelDeep) :
    Lockstep f X B Z (waitEventInterruptible l i) := by
  refine parallel_ask (fun _ => rfl) fun env => parallel_bind (lockstep_emit _) fun _ => ?_
  cases env.waitEnd with
  | signal => exact parallel_pure _
  | woken => exact parallel_bind (lockstep_storeList l _) fun _ => parallel_pure _

/-- The search reads the list and its counters. -/
theorem lockstep_rcuListSearch (l : Addr) (key : Int32) :
    Lockstep f X B Z (rcuListSearch l key) := by
  refine parallel_bind (lockstep_loadList l) fun list =>
    parallel_bind (lockstep_levelIndex key) fun i =>
    parallel_bind (lockstep_storeList l _) fun _ => parallel_bind (lockstep_storeList l _) fun _ =>
    parallel_bind (lockstep_waitEventInterruptible l i) fun interrupted => parallel_ite ?_ ?_
  · exact parallel_bind (lockstep_storeList l _) fun _ =>
      parallel_bind (lockstep_storeList l _) fun _ => parallel_pure _
  · refine parallel_bind (lockstep_storeList l _) fun _ =>
      parallel_bind (lockstep_loadList l) fun list => ?_
    intro env w w' hw
    refine couple_under_bind_of_ok rfl rfl ?_
    show Couple env (Action.lift (findLevel w.mem.elements key w.mem.brk list.head) >>= _) w
      ((Action.lift (findLevel w'.mem.elements key w'.mem.brk list.head) >>= _).under _) w' _
    rw [hw.mem.brk, hw.mem.elements.findLevel]
    exact parallel_bind (parallel_lift _) (fun p => parallel_bind (lockstep_storeList l _) fun _ =>
      parallel_bind (lockstep_storeList l _) fun _ => parallel_pure p) env w w' hw

/-- A new list, by induction on the levels to come. -/
theorem lockstep_insertLevels (l : Addr) (js : List (Fin levelDeep)) :
    Lockstep f X B Z (insertLevels l js) := by
  induction js with
  | nil => exact parallel_pure ()
  | cons j js ih => exact parallel_bind (lockstep_rcuListInsert l _ _ _) fun _ => ih

theorem lockstep_wakeUpLevels (l : Addr) (is : List (Fin levelDeep)) :
    Lockstep f X B Z (wakeUpLevels l is) := by
  induction is with
  | nil => exact parallel_pure ()
  | cons i is ih => exact parallel_bind (lockstep_storeList l _) fun _ => ih

end TagMessaging.Serial
