/-
# TagMessaging.Serial.ListRuns -- operations on one list, one after the other

From `rcu_list_init` on, the operations on a list do to its entries what they do to a first-match
association list, and answer alike, until a replacement misses its key: it returns with the
`write_lock` taken, and no mutator that gets as far as the lock returns after it.
-/
import TagMessaging.Serial.ListCalls
import TagMessaging.Serial.Runs

namespace TagMessaging.Serial

open TagMessaging.Lib.Effect TagMessaging.Lib.FirstMatch TagMessaging.Lib.Segment
open TagMessaging.Lib.Transition TagMessaging.Model

variable {l : Addr} {g g' : Guarded} {s : TAGService} {xs : List Addr} {es : List Entry}
variable {op : ListOp} {env : Env} {v : Int}

/-! ## After one operation -/

/-- Nothing is left of a call but a spent name: every later operation answers as it would have. -/
structure Unharmed (l : Addr) (g g' : Guarded) : Prop where
  services : g'.world.mem.services = g.world.mem.services
  elements : g'.world.mem.elements = g.world.mem.elements
  later : ∀ (op : ListOp) (env env' : Env),
    env'.kmallocFails g'.world.mem.brk = env.kmallocFails g.world.mem.brk →
      answerOf (op.call l env' g') = answerOf (op.call l env g)

/-- The call leaves the list usable, whatever it returns. -/
structure LeavesUsable (l : Addr) (op : ListOp) (env : Env) (g : Guarded) : Prop where
  released : ∀ v g', op.call l env g = .ok (v, g') →
    g'.locked = false ∧ g'.world.irq = g.world.irq
  unharmed : ∀ g', op.call l env g = .ok (0, g') → op.Allocates → Unharmed l g g'

theorem spent_unharmed (h : ListIn l g.world.mem s xs es) (hfree : g.locked = false) :
    Unharmed l g (spent g) where
  services := rfl
  elements := rfl
  later := by
    intro op env env' hfails
    have hlist : ListIn l (spent g).world.mem s xs es := h.noBlock
    rw [answerOf_call op env' hlist rfl, answerOf_call op env h hfree, hfails]

/-- A replacement that misses does not leave the list usable. -/
theorem misses_not_usable (h : ListIn l g.world.mem s xs es) (hfree : g.locked = false)
    (hmiss : op.Misses es (env.kmallocFails g.world.mem.brk)) : ¬ LeavesUsable l op env g := by
  intro husable
  cases op with
  | insert | remove => exact hmiss
  | replace key msg size =>
    obtain ⟨hok, habsent⟩ := hmiss
    obtain ⟨g', hcall, hlocked, _⟩ := replace_call_missing env key msg size h hfree hok
      (by simpa [hasLevel] using habsent)
    have hreleased := (husable.released 0 g' hcall).1
    rw [hlocked] at hreleased
    cases hreleased

/-- **A failed operation leaves the list usable unless it is a replacement that misses.** -/
theorem failed_op_usable (h : ListIn l g.world.mem s xs es) (hfree : g.locked = false)
    (op : ListOp) (env : Env) :
    LeavesUsable l op env g ↔ ¬ op.Misses es (env.kmallocFails g.world.mem.brk) := by
  refine ⟨fun husable hmiss => misses_not_usable h hfree hmiss husable, fun hhits => ?_⟩
  have hcalled := called op env h hfree
  refine ⟨fun v g' hcall => ?_, fun g' hcall halloc => ?_⟩
  · rw [hcall] at hcalled
    cases hcalled with
    | noMemory => exact ⟨rfl, rfl⟩
    | settled _ _ _ _ hsettled => exact ⟨hsettled.locked, hsettled.irq⟩
    | missed _ hmiss => exact absurd hmiss hhits
  · rw [hcall] at hcalled
    cases hcalled with
    | noMemory => exact spent_unharmed h hfree
    | settled _ _ _ hone => exact absurd (hone halloc) (by decide)
    | missed _ hmiss => exact absurd hmiss hhits

/-! ## A new list -/

/-- A record in memory, before and after `rcu_list_init`. -/
def recordMem (s : TAGService) : Mem :=
  { emptyMem with services := Function.update emptyMem.services 0 (some s), brk := 1 }

/-- The empty list of a new record. -/
def newList : Guarded where
  world := { bootWorld with mem := recordMem (initialised ((callerEnv 10).staleService 0)) }
  locked := false

theorem recordMem_fresh (s : TAGService) : FreshAbove (recordMem s) := by
  intro a ha
  have hne : a ≠ 0 := Nat.ne_of_gt ha
  exact ⟨Function.update_of_ne hne _ _, rfl, rfl⟩

theorem newList_listIn :
    ListIn 0 newList.world.mem (initialised ((callerEnv 10).staleService 0)) [] [] :=
  ⟨rfl, ⟨rfl, rfl⟩, recordMem_fresh _⟩

/-- A caller for whom there is no memory. -/
def noMemoryEnv : Env := { callerEnv 10 with kmallocFails := fun _ => true }

/-- A list with two elements. -/
theorem exists_twoElements : ∃ (g : Guarded) (s : TAGService) (xs : List Addr),
    ListIn 0 g.world.mem s xs [⟨6, none, 1⟩, ⟨5, none, 0⟩] ∧ g.locked = false := by
  have hok : ∀ a, (callerEnv 10).kmallocFails a = false := fun _ => rfl
  obtain ⟨g₁, _, h₁⟩ := insert_call 5 none 0 newList_listIn rfl (hok _) (by simp [initialised])
  obtain ⟨s₁, xs₁, hlist₁, hstanding₁⟩ := h₁.list
  have hgrace : s₁.levels.standing s₁.levels.epoch ≤ 0 := by simp [hstanding₁, initialised]
  obtain ⟨g₂, _, h₂⟩ := insert_call 6 none 1 hlist₁ h₁.locked (hok _) hgrace
  obtain ⟨s₂, xs₂, hlist₂, _⟩ := h₂.list
  exact ⟨g₂, s₂, xs₂, hlist₂, h₂.locked⟩

/-- A replacement in the list of two elements, without memory: it returns 0, and leaves the list
usable. -/
theorem failed_op_usable_noMemory : ∃ g g' : Guarded,
    (ListOp.replace 5 none 2).call 0 noMemoryEnv g = .ok (0, g') ∧
      Unharmed 0 g g' ∧ LeavesUsable 0 (.replace 5 none 2) noMemoryEnv g := by
  obtain ⟨g, s, xs, hlist, hfree⟩ := exists_twoElements
  have hcall : (ListOp.replace 5 none 2).call 0 noMemoryEnv g = .ok (0, spent g) :=
    replace_call_noMemory hfree rfl
  have husable := (failed_op_usable hlist hfree (.replace 5 none 2) noMemoryEnv).mpr
    fun hmiss => absurd hmiss.1 (by simp [noMemoryEnv])
  exact ⟨g, spent g, hcall, husable.unharmed _ hcall trivial, husable⟩

/-- Replacing a key in the new list. -/
theorem failed_replace_stuck : ∃ g', (ListOp.replace 5 none 0).call 0 (callerEnv 10) newList =
    .ok (0, g') ∧ g'.locked = true ∧ g'.world.irq ≠ newList.world.irq ∧
      (g'.world.mem.elements 1).isSome ∧ newList.world.mem.elements 1 = none ∧
      ¬ LeavesUsable 0 (.replace 5 none 0) (callerEnv 10) newList := by
  obtain ⟨g', hcall, hlocked, hirq, _, helement⟩ :=
    replace_call_missing (callerEnv 10) 5 none 0 newList_listIn rfl rfl (by simp)
  exact ⟨g', hcall, hlocked, by rw [hirq]; simp [newList, bootWorld], helement, rfl,
    misses_not_usable newList_listIn rfl ⟨rfl, by simp⟩⟩

/-! ## Runs -/

/-- An operation that was made and what it answered. -/
structure OpDone where
  op : ListOp
  env : Env
  ret : Int

/-- The operations on the list at `l`, from `rcu_list_init` on. -/
def listSystem (l : Addr) : System Guarded OpDone where
  init := fun g => g.locked = false ∧
    ∃ env w, FreshAbove w.mem ∧ rcuListInit l env w = .ok ((), g.world)
  step := fun g d g' => d.op.call l d.env g = .ok (d.ret, g')

/-- The list read off as a sequence: the links from the head pass through elements with these
entries, none of them twice, and end at `NULL`. -/
def Contents (l : Addr) (g : Guarded) (es : List Entry) : Prop :=
  ∃ s xs, g.world.mem.services l = some s ∧
    Seg (nextOf g.world.mem.elements) s.levels.head xs none ∧ xs.Nodup ∧
    xs.map (entryAt g.world.mem.elements) = es.map some

/-- The guard: allocations succeed, and a replacement finds its key. -/
structure KeyThere (l : Addr) (g : Guarded) (d : OpDone) : Prop where
  memory : d.env.kmallocFails g.world.mem.brk = false
  present : ∀ key msg size, d.op = .replace key msg size →
    ∃ es, Contents l g es ∧ ∃ y ∈ es, y.level = key

/-- What an operation answers on an association list. -/
def ListOp.expected (es : List Entry) : ListOp → Int
  | .insert _ _ _ => 1
  | .remove key => if ∃ y ∈ es, y.level = key then 1 else 0
  | .replace key _ _ => if ∃ y ∈ es, y.level = key then 1 else 0

/-- The association list after the operations of a run. -/
def replayed (ls : List OpDone) : List Entry :=
  ls.foldl (fun es d => d.op.entries es false) []

/-- The list is in order, its lock is free and no reader is counted. -/
structure InOrder (l : Addr) (g : Guarded) (es : List Entry) : Prop where
  list : ∃ s xs, ListIn l g.world.mem s xs es ∧ ∀ e, s.levels.standing e = 0
  free : g.locked = false

variable {d : OpDone} {ls : List OpDone} {es' : List Entry}

theorem replayed_snoc (ls : List OpDone) (d : OpDone) :
    replayed (ls ++ [d]) = d.op.entries (replayed ls) false := by
  simp [replayed]

theorem ListIn.contents (h : ListIn l g.world.mem s xs es) : Contents l g es :=
  ⟨s, xs, h.record, h.list.seg, h.list.seg.nodup, h.list.entries⟩

/-- The sequence is determined by the memory. -/
theorem Contents.unique (h : Contents l g es) (h' : Contents l g es') : es = es' := by
  obtain ⟨s, xs, hs, hseg, _, hes⟩ := h
  obtain ⟨s', xs', hs', hseg', _, hes'⟩ := h'
  obtain rfl := Option.some.inj (hs.symm.trans hs')
  obtain rfl := hseg.unique hseg'
  exact List.map_injective_iff.mpr (Option.some_injective Entry) (hes.symm.trans hes')

/-- On a quiet list nothing is waited for. -/
theorem answer_quiet (op : ListOp) (es : List Entry) (hquiet : ∀ e, s.levels.standing e = 0) :
    op.answer es s.levels false = some (op.expected es) := by
  have hnone : ¬ ∃ e, 0 < s.levels.standing e := by simp [hquiet]
  cases op with
  | insert => simp [ListOp.answer, ListOp.expected, hquiet]
  | remove key =>
    rw [ListOp.answer, if_neg hnone]
    simp [ListOp.expected, hasLevel]
  | replace key =>
    simp only [ListOp.answer, ListOp.expected, hquiet, hasLevel]
    by_cases hkey : ∃ y ∈ es, y.level = key <;> simp [hkey]

/-- Every operation returns, with the answer and the entries of the association list. -/
theorem InOrder.call (h : InOrder l g es) (op : ListOp)
    (hok : env.kmallocFails g.world.mem.brk = false) :
    ∃ g', op.call l env g = .ok (op.expected es, g') ∧ Contents l g' (op.entries es false) ∧
      (¬ op.Misses es false → InOrder l g' (op.entries es false)) := by
  obtain ⟨⟨s, xs, hlist, hquiet⟩, hfree⟩ := h
  have hcalled := called op env hlist hfree
  have hanswer := answer_quiet op es hquiet
  rw [hok] at hcalled
  generalize op.call l env g = r at hcalled
  cases hcalled with
  | waits hwaits =>
    rw [hanswer] at hwaits
    cases hwaits
  | noMemory hfail => cases hfail
  | settled v g' hv _ hsettled =>
    obtain rfl := Option.some.inj (hanswer.symm.trans hv)
    obtain ⟨s', xs', hlist', hstanding⟩ := hsettled.list
    exact ⟨g', rfl, hlist'.contents,
      fun _ => ⟨⟨s', xs', hlist', fun e => by rw [hstanding, hquiet]⟩, hsettled.locked⟩⟩
  | missed g' hmiss hv hentries _ _ hlist' =>
    have hret := Option.some.inj (hanswer.symm.trans hv)
    refine ⟨g', by rw [hret], ?_, fun hnot => absurd hmiss hnot⟩
    rw [hentries]
    exact hlist'.contents

/-- The list starts empty. -/
theorem init_inOrder (h : (listSystem l).init g) : InOrder l g [] := by
  obtain ⟨hfree, env, w, hf, hinit⟩ := h
  have hwp : wlp (rcuListInit l) env w fun _ w' => ∃ s, w.mem.services l = some s ∧ w'.mem =
      { w.mem with
        services := Function.update w.mem.services l (some (initialised s)) } := by
    refine (wp_storeList _).mpr ⟨fun _ => trivial, fun s hs => ⟨s, hs, rfl⟩⟩
  obtain ⟨s, hs, hm⟩ := wp_of_ok hinit hwp
  have hrecord : g.world.mem.services l = some (initialised s) := by
    rw [hm]
    exact Function.update_self _ _ _
  refine ⟨⟨_, [], ⟨hrecord, ⟨rfl, rfl⟩, fun a ha => ?_⟩, fun e => rfl⟩, hfree⟩
  rw [hm] at ha ⊢
  obtain ⟨hsv, hel, hbuf⟩ := hf a ha
  have hne : a ≠ l := fun hal => by
    rw [hal, hs] at hsv
    cases hsv
  exact ⟨(Function.update_of_ne hne _ _).trans hsv, hel, hbuf⟩

/-- An admitted operation misses nothing. -/
theorem KeyThere.not_misses (h : KeyThere l g d) (hlist : Contents l g es) :
    ¬ d.op.Misses es false := by
  intro hmiss
  cases hop : d.op with
  | insert | remove =>
    rw [hop] at hmiss
    exact hmiss
  | replace key msg size =>
    rw [hop] at hmiss
    obtain ⟨es', hlist', y, hy, hkey⟩ := h.present key msg size hop
    obtain rfl := hlist.unique hlist'
    exact hmiss.2 y hy hkey

theorem run_inOrder (h : Run (listSystem l) (KeyThere l) ls g) : InOrder l g (replayed ls) := by
  induction h with
  | start hinit => exact init_inOrder hinit
  | step _ hok hs ih =>
      obtain ⟨s, xs, hlist, _⟩ := ih.list
      obtain ⟨g', hcall, _, hinOrder⟩ := ih.call _ hok.memory
      obtain ⟨_, rfl⟩ := Prod.mk.inj (Except.ok.inj (hs.symm.trans hcall))
      rw [replayed_snoc]
      exact hinOrder (hok.not_misses hlist.contents)

/-- The walk of `rcu_list_search` over a list in order. -/
theorem InOrder.traversal (h : InOrder l g es) (key : Int32) :
    ∃ s p, g.world.mem.services l = some s ∧
      findLevel g.world.mem.elements key g.world.mem.brk s.levels.head = .ok p ∧
      p.bind (entryAt g.world.mem.elements) = es.find? (hasLevel key) ∧
      (p = none ↔ ∀ y ∈ es, y.level ≠ key) := by
  obtain ⟨⟨s, xs, hlist, _⟩, _⟩ := h
  obtain ⟨p, hp, hfound⟩ := hlist.list.findLevel hlist.fresh key
  refine ⟨s, p, hlist.record, hp, ?_⟩
  cases hfind : es.find? (hasLevel key) with
  | none =>
      rw [hfind] at hfound
      obtain rfl := hfound
      refine ⟨rfl, fun _ y hy => ?_, fun _ => rfl⟩
      simpa [hasLevel] using List.find?_eq_none.mp hfind y hy
  | some x =>
      rw [hfind] at hfound
      obtain ⟨a, _, rfl, ha⟩ := hfound
      refine ⟨ha, fun hnull => absurd hnull (by simp), fun hnone => ?_⟩
      have hx := List.find?_some hfind
      exact absurd (by simpa [hasLevel] using hx) (hnone x (List.mem_of_find?_eq_some hfind))

/-- **The list operations refine a first-match association list** until a replacement misses. -/
theorem list_refines (h : Run (listSystem l) (KeyThere l) ls g) :
    Contents l g (replayed ls) ∧
      (∀ (op : ListOp) (env : Env), env.kmallocFails g.world.mem.brk = false →
        ∃ g', op.call l env g = .ok (op.expected (replayed ls), g') ∧
          Contents l g' (op.entries (replayed ls) false)) ∧
      ∀ key, ∃ s p, g.world.mem.services l = some s ∧
        findLevel g.world.mem.elements key g.world.mem.brk s.levels.head = .ok p ∧
        p.bind (entryAt g.world.mem.elements) = (replayed ls).find? (hasLevel key) ∧
        (p = none ↔ ∀ y ∈ replayed ls, y.level ≠ key) := by
  have hinOrder := run_inOrder h
  obtain ⟨s, xs, hlist, _⟩ := hinOrder.list
  refine ⟨hlist.contents, fun op env hok => ?_, hinOrder.traversal⟩
  obtain ⟨g', hcall, hcontents, _⟩ := hinOrder.call op hok
  exact ⟨g', hcall, hcontents⟩

/-- One more operation, when memory does not run out and a replacement finds its key. -/
theorem exists_next (h : Run (listSystem l) (KeyThere l) ls g) (op : ListOp) {env : Env}
    (hok : ∀ a, env.kmallocFails a = false)
    (hkey : ∀ key msg size, op = .replace key msg size → ∃ y ∈ replayed ls, y.level = key) :
    ∃ g', Run (listSystem l) (KeyThere l) (ls ++ [⟨op, env, op.expected (replayed ls)⟩]) g' := by
  have hinOrder := run_inOrder h
  obtain ⟨s, xs, hlist, _⟩ := hinOrder.list
  obtain ⟨g', hcall, _⟩ := hinOrder.call op (hok _)
  exact ⟨g', h.step ⟨hok _, fun key msg size hop => ⟨_, hlist.contents, hkey key msg size hop⟩⟩
    hcall⟩

theorem newList_init : (listSystem 0).init newList := by
  refine ⟨rfl, callerEnv 10, { bootWorld with mem := recordMem ((callerEnv 10).staleService 0) },
    recordMem_fresh _, eq_ok_of_wp ?_⟩
  refine (wp_storeList _).mpr ⟨fun hnone => ?_, fun s hs => ⟨rfl, ?_⟩⟩
  · cases hnone
  · obtain rfl := Option.some.inj hs
    simp [withMem, newList, bootWorld, recordMem, initialised]

/-- Two keys, one of them replaced and the other removed. -/
theorem list_refines_four : ∃ ls g, Run (listSystem 0) (KeyThere 0) ls g ∧
    ls.map OpDone.op = [.insert 5 none 0, .insert 6 none 1, .replace 5 none 2, .remove 6] ∧
    ls.map OpDone.ret = [1, 1, 1, 1] ∧ Contents 0 g [⟨5, none, 2⟩] := by
  have hmem : ∀ a, (callerEnv 10).kmallocFails a = false := fun _ => rfl
  have h₀ : Run (listSystem 0) (KeyThere 0) [] newList := .start newList_init
  obtain ⟨g₁, h₁⟩ := exists_next h₀ (.insert 5 none 0) hmem fun _ _ _ hop => by cases hop
  obtain ⟨g₂, h₂⟩ := exists_next h₁ (.insert 6 none 1) hmem fun _ _ _ hop => by cases hop
  obtain ⟨g₃, h₃⟩ := exists_next h₂ (.replace 5 none 2) hmem fun _ _ _ hop => by
    cases hop
    decide
  obtain ⟨g₄, h₄⟩ := exists_next h₃ (.remove 6) hmem fun _ _ _ hop => by cases hop
  exact ⟨_, g₄, h₄, rfl, by decide, (list_refines h₄).1⟩

/-- After a replacement that misses, an insertion does not return. -/
theorem list_stuck : ∃ ls g,
    Run (listSystem 0) (fun g d => d.env.kmallocFails g.world.mem.brk = false) ls g ∧
    ls.map OpDone.op = [.replace 5 none 0] ∧ ls.map OpDone.ret = [0] ∧
    ∀ env : Env, env.kmallocFails g.world.mem.brk = false →
      ∀ r, (ListOp.insert 5 none 0).call 0 env g ≠ .ok r := by
  obtain ⟨g, hcall, hlocked, _, hlist, _⟩ :=
    replace_call_missing (callerEnv 10) 5 none 0 newList_listIn rfl rfl (by simp)
  have h₀ : Run (listSystem 0) (fun g d => d.env.kmallocFails g.world.mem.brk = false) [] newList :=
    .start newList_init
  have h₁ : Run (listSystem 0) (fun g d => d.env.kmallocFails g.world.mem.brk = false)
      ([] ++ [⟨.replace 5 none 0, callerEnv 10, 0⟩]) g := h₀.step rfl hcall
  refine ⟨_, g, h₁, rfl, rfl, fun env hok r hret => ?_⟩
  rw [insert_call_locked hlist hlocked hok (by simp [initialised])] at hret
  cases hret

end TagMessaging.Serial
