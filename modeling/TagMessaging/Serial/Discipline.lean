/-
# TagMessaging.Serial.Discipline -- which calls release the lock and return the module reference

For a call that returns, `Releases` says exactly when its operations on `searchLock` are balanced,
and `PutsBack` exactly when it executes as many `module_put` as it got references. Both are
conditions on the arguments and on the memory before the call, and both fail on some return path of
`tag_get` and of `tag_ctl`. A run of calls that meet the condition leaves the lock free, and the
reference count where it was.
-/
import TagMessaging.Serial.Control
import TagMessaging.Serial.Runs

namespace TagMessaging.Serial

open TagMessaging.Lib.Effect TagMessaging.Lib.RwLock TagMessaging.Lib.Transition
open TagMessaging.Model

variable {env : Env} {w w' : World} {m : Mem} {c : Call} {answer : Answer}

/-! ## Records of live rooms -/

/-- The record a live tag leads to. -/
theorem RepAt.tagged {R : Registry} {cells : Fin minSysTagServices → List Addr}
    {i : Fin minSysTagServices} {room : Room} (tag : Int32) (h : RepAt m R cells)
    (hroom : R.roomOf tag = some (i, room)) : ∃ s, tagged m tag = some s ∧ Describes room i s := by
  obtain ⟨_, hi⟩ := Registry.roomOf_eq_some hroom
  have hs := h.slotService i
  rw [hi] at hs
  obtain ⟨s, hs, hd⟩ := hs
  refine ⟨s, ?_, hd⟩
  rw [Serial.tagged, found, h.findSlot_tag, hroom]
  exact hs

/-- The record a live key leads to. -/
theorem RepAt.keyed {R : Registry} {cells : Fin minSysTagServices → List Addr}
    {i : Fin minSysTagServices} {room : Room} (key : Int32) (h : RepAt m R cells)
    (htag : R.tagOfKey key = some i) (hi : R i = some room) :
    ∃ s, keyed m key = some s ∧ Describes room i s := by
  have hs := h.slotService i
  rw [hi] at hs
  obtain ⟨s, hs, hd⟩ := hs
  refine ⟨s, ?_, hd⟩
  rw [Serial.keyed, found, h.findSlot_key, htag]
  exact hs

/-! ## The lock -/

/-- The operations on `searchLock` in a trace. -/
def lockOps (t : List Event) : List LockOp :=
  t.filterMap fun
    | .searchLock op => some op
    | _ => none

theorem lockOps_control (t : List Event) : lockOps (control t) = lockOps t := by
  induction t with
  | nil => rfl
  | cons ev t ih =>
      have hcons : ∀ u, lockOps (ev :: u) = lockOps [ev] ++ lockOps u := fun u => by
        simp only [lockOps, ← List.filterMap_append, List.singleton_append]
      cases hev : isControl ev with
      | true => rw [control, List.filter_cons_of_pos hev, ← control, hcons, hcons t, ih]
      | false =>
          have hnone : lockOps [ev] = [] := by cases ev <;> first | rfl | simp [isControl] at hev
          rw [control, List.filter_cons_of_neg (by simp [hev]), ← control, hcons t, hnone, ih]
          rfl

/-- When a call that returns releases what it acquired: a creation must find a free slot, an
`AWAKE_ALL` must be refused, and a `REMOVE` must be let in and meet no sleeper. -/
def Releases (env : Env) (m : Mem) : Call → Prop
  | .tagGet key command permission =>
      env.moduleLive = true → permAmmisible permission = 0 → keyAmmissible key = 0 →
        command = cmdCreate → m.serviceCount < UInt32.ofNat minSysTagServices →
          (key ≠ tagIpcPrivate ∧ (keyed m key).isSome) ∨ freeSlot m ≠ none
  | .tagSend .. => True
  | .tagReceive .. => True
  | .tagCtl tag command =>
      env.moduleLive = true → ¬ tag < 0 → ∀ s, tagged m tag = some s →
        (command = cmdAwakeAll → validServiceOperation env.caller s = false) ∧
        (command = cmdRemove → validServiceOperation env.caller s = true ∧ hasSleepers s = false)

theorem path_balanced : Balanced (lockOps (path env m c)) ↔ Releases env m c := by
  cases c with
  | tagGet key command permission =>
    simp only [path, Releases]
    cases hlive : env.moduleLive with
    | false =>
      rw [if_pos (by simp)]
      exact iff_of_true (by decide) fun h => by cases h
    | true =>
      rw [if_neg (by simp)]
      by_cases hargs : permAmmisible permission ≠ 0 ∨ keyAmmissible key ≠ 0
      · rw [if_pos hargs]
        refine iff_of_true (by decide) fun _ hperm hkey => ?_
        simp [hperm, hkey] at hargs
      · obtain ⟨hperm, hkey⟩ := not_or.mp hargs
        rw [if_neg hargs]
        by_cases hcreate : command = cmdCreate
        · rw [if_pos hcreate]
          by_cases hfull : m.serviceCount ≥ UInt32.ofNat minSysTagServices
          · rw [if_pos hfull]
            exact iff_of_true (by decide) fun _ _ _ _ hlt => absurd hlt (UInt32.not_lt.mpr hfull)
          · rw [if_neg hfull]
            by_cases hslot : (key ≠ tagIpcPrivate ∧ (keyed m key).isSome) ∨ freeSlot m ≠ none
            · rw [if_pos hslot]
              exact iff_of_true (by decide) fun _ _ _ _ _ => hslot
            · -- no free slot: `CREATE` returns with the write lock
              rw [if_neg hslot]
              exact iff_of_false (by decide) fun h => hslot
                (h rfl (not_not.mp hperm) (not_not.mp hkey) hcreate (UInt32.not_le.mp hfull))
        · rw [if_neg hcreate]
          refine iff_of_true ?_ fun _ _ _ hc => absurd hc hcreate
          repeat' split
          all_goals decide
  | tagSend tag level buffer size =>
    simp only [path, Releases, iff_true]
    repeat' split
    all_goals decide
  | tagReceive tag level bufferNull size =>
    simp only [path, Releases, iff_true]
    repeat' split
    all_goals decide
  | tagCtl tag command =>
    simp only [path, Releases]
    cases hlive : env.moduleLive with
    | false =>
      rw [if_pos (by simp)]
      exact iff_of_true (by decide) fun h => by cases h
    | true =>
      rw [if_neg (by simp)]
      by_cases hneg : tag < 0
      · rw [if_pos hneg]
        exact iff_of_true (by decide) fun _ h => absurd hneg h
      · rw [if_neg hneg]
        cases htag : tagged m tag with
        | none =>
          refine iff_of_true ?_ fun _ _ s hs => by cases hs
          simp only
          repeat' split
          all_goals decide
        | some s =>
          by_cases hawake : command = cmdAwakeAll
          · have hne : ¬ command = cmdRemove := hawake ▸ by decide
            rw [if_pos hawake]
            cases hvalid : validServiceOperation env.caller s with
            | true =>
              -- the `write_unlock` at the end of `AWAKE_ALL`, of a lock that it does not hold
              refine iff_of_false (by simp only [hvalid, if_true]; decide) fun h => ?_
              have hclosed := (h rfl hneg s rfl).1 hawake
              simp [hvalid] at hclosed
            | false =>
              refine iff_of_true (by simp only [hvalid]; decide) fun _ _ s' hs' => ?_
              obtain rfl := Option.some.inj hs'
              exact ⟨fun _ => hvalid, fun hc => absurd hc hne⟩
          · rw [if_neg hawake]
            by_cases hremove : command = cmdRemove
            · rw [if_pos hremove]
              by_cases hdone : validServiceOperation env.caller s = true ∧ hasSleepers s = false
              · refine iff_of_true (by simp only [hdone]; decide) fun _ _ s' hs' => ?_
                obtain rfl := Option.some.inj hs'
                exact ⟨fun hc => absurd hc hawake, fun _ => hdone⟩
              · -- turned down: `REMOVE` returns with the read lock
                refine iff_of_false ?_ fun h => hdone ((h rfl hneg s rfl).2 hremove)
                cases hvalid : validServiceOperation env.caller s with
                | false =>
                  simp only [hvalid]
                  show ¬ Balanced (lockOps [.moduleGet true, .searchLock .readLock, .modulePut])
                  decide
                | true =>
                  have hsleep : hasSleepers s = true := by simpa [hvalid] using hdone
                  simp only [hvalid, hsleep]
                  decide
            · rw [if_neg hremove]
              exact iff_of_true (by decide) fun _ _ s' _ =>
                ⟨fun hc => absurd hc hawake, fun hc => absurd hc hremove⟩

/-- The module and the word of its lock. -/
structure Locked where
  world : World
  lock : Word

/-- Calls one at a time, on any table, with the lock word they leave. -/
def locked : System Locked Done where
  init := fun s => s.lock = Word.free
  step := fun s d s' =>
    d.call.exec d.env s.world = .ok (d.answer, s'.world) ∧
      s'.lock = s.lock.run (lockOps s'.world.trace)

theorem exec_balanced (h : c.exec env w = .ok (answer, w')) :
    Balanced (lockOps w'.trace) ↔ Releases env w.mem c := by
  rw [← lockOps_control, exec_path h, path_balanced]

/-- **The discipline of `searchLock`.** A call that returns has only released what it held and holds
nothing exactly when `Releases` says so; and after a run of such calls the lock is free, so that
nobody blocks on it. -/
theorem lock_discipline (hret : c.exec env w = .ok (answer, w')) :
    (Balanced (lockOps w'.trace) ↔ Releases env w.mem c) ∧
      ∀ ls s, Run locked (fun s d => Releases d.env s.world.mem d.call) ls s →
        s.lock = Word.free ∧ ∀ op, s.lock.Grants op := by
  refine ⟨exec_balanced hret, fun ls s hrun => ?_⟩
  have hfree : s.lock = Word.free := hrun.invariant (I := fun s => s.lock = Word.free)
    (fun _ h => h) fun s d s' hs hok hstep => by
      rw [hstep.2, hs]
      exact ((exec_balanced hstep.1).mpr hok).run_free
  exact ⟨hfree, fun op => hfree ▸ free_grants op⟩

/-- A creation on the empty table. -/
theorem lock_discipline_creation : ∃ answer w',
    (Call.tagGet 5 cmdCreate openRoom).exec (callerEnv 10) bootWorld = .ok (answer, w') ∧
      Balanced (lockOps w'.trace) ∧
      ∃ s : Locked, Run locked (fun s d => Releases d.env s.world.mem d.call)
        [⟨.tagGet 5 cmdCreate openRoom, callerEnv 10, answer⟩] s ∧ s.lock = Word.free := by
  obtain ⟨answer, w', hret⟩ : ∃ answer w',
      (Call.tagGet 5 cmdCreate openRoom).exec (callerEnv 10) bootWorld = .ok (answer, w') := by
    obtain ⟨w', hret, _⟩ := exec_returns (w := bootWorld) (.tagGet 5 cmdCreate openRoom) (callerEnv 10)
      emptyMem_rep id fun _ => rfl
    exact ⟨_, w', hret⟩
  have hok : Releases (callerEnv 10) bootWorld.mem (.tagGet 5 cmdCreate openRoom) :=
    fun _ _ _ _ _ => Or.inr (by decide)
  refine ⟨_, w', hret, (lock_discipline hret).1.mpr hok,
    ⟨w', Word.free.run (lockOps w'.trace)⟩, ?_⟩
  have hstart : Run locked (fun s d => Releases d.env s.world.mem d.call) []
      ⟨bootWorld, Word.free⟩ := .start rfl
  have hstep : locked.step ⟨bootWorld, Word.free⟩
      ⟨.tagGet 5 cmdCreate openRoom, callerEnv 10, answer⟩
      ⟨w', Word.free.run (lockOps w'.trace)⟩ := ⟨hret, rfl⟩
  have hrun := hstart.step (by exact hok) hstep
  exact ⟨hrun, ((lock_discipline hret).2 _ _ hrun).1⟩

/-- A stranger's `REMOVE` of a private room. -/
theorem stranger_remove : ∃ ls w w', Run serial InArrays ls w ∧
    (Call.tagCtl 0 cmdRemove).exec (callerEnv 12) w = .ok (.ofRet Errno.EBADRQC.neg, w') ∧
    control w'.trace = [.moduleGet true, .searchLock .readLock, .modulePut] := by
  obtain ⟨w, hrun, hrep⟩ := twoRooms_run
  obtain ⟨w', hret, _⟩ := exec_returns (.tagCtl 0 cmdRemove) (callerEnv 12) hrep id fun _ => rfl
  refine ⟨_, w, w', hrun, hret, ?_⟩
  obtain ⟨cells, h⟩ := hrep
  obtain ⟨s, hs, hd⟩ := h.tagged 0 rfl
  have hvalid : validServiceOperation (callerEnv 12).caller s = false := by
    rw [hd.validServiceOperation _ (Or.inr rfl)]
    rfl
  rw [exec_path hret]
  simp only [path, hs, hvalid]
  rfl

/-- It comes back with the read lock held, and no writer gets in any more. -/
theorem lock_left_held : ∃ ls w answer w', Run serial InArrays ls w ∧
    (Call.tagCtl 0 cmdRemove).exec (callerEnv 12) w = .ok (answer, w') ∧
    ¬ Balanced (lockOps w'.trace) ∧
    ¬ (Word.free.run (lockOps w'.trace)).Grants .writeLock := by
  obtain ⟨ls, w, w', hrun, hret, hcontrol⟩ := stranger_remove
  have hops : lockOps w'.trace = [.readLock] := by
    rw [← lockOps_control, hcontrol]
    rfl
  refine ⟨ls, w, _, w', hrun, hret, by rw [hops]; decide, ?_⟩
  rw [hops]
  rintro ⟨_, hreaders⟩
  exact absurd hreaders (by decide)

/-! ## The module reference -/

/-- References got and put back in a trace. -/
def gets (t : List Event) : Nat := t.count (.moduleGet true)
def puts (t : List Event) : Nat := t.count .modulePut

theorem gets_control (t : List Event) : gets (control t) = gets t :=
  List.count_filter (by rfl)

theorem puts_control (t : List Event) : puts (control t) = puts t :=
  List.count_filter (by rfl)

/-- When a call that returns puts back what it got: `tag_get` must be a creation or a refused
`OPEN` of a public key, and `tag_ctl` must have got its reference, know its command and not meet a
sleeper on `REMOVE`. -/
def PutsBack (env : Env) (m : Mem) : Call → Prop
  | .tagGet key command permission =>
      env.moduleLive = true → permAmmisible permission = 0 → keyAmmissible key = 0 →
        command = cmdCreate ∨ command = cmdOpen ∧ key ≠ tagIpcPrivate ∧
          ∀ s, keyed m key = some s → validServiceOperation env.caller s = false
  | .tagSend .. => True
  | .tagReceive .. => True
  | .tagCtl tag command =>
      env.moduleLive = true ∧ (¬ tag < 0 →
        command = cmdAwakeAll ∨ command = cmdRemove ∧
          ∀ s, tagged m tag = some s → validServiceOperation env.caller s = true →
            hasSleepers s = false)

theorem path_puts : puts (path env m c) = gets (path env m c) ↔ PutsBack env m c := by
  cases c with
  | tagGet key command permission =>
    simp only [path, PutsBack]
    cases hlive : env.moduleLive with
    | false =>
      rw [if_pos (by simp)]
      exact iff_of_true (by decide) fun h => by cases h
    | true =>
      rw [if_neg (by simp)]
      by_cases hargs : permAmmisible permission ≠ 0 ∨ keyAmmissible key ≠ 0
      · rw [if_pos hargs]
        refine iff_of_true (by decide) fun _ hperm hkey => ?_
        simp [hperm, hkey] at hargs
      · obtain ⟨hperm, hkey⟩ := not_or.mp hargs
        rw [if_neg hargs]
        by_cases hcreate : command = cmdCreate
        · rw [if_pos hcreate]
          -- every path of `CREATE` ends with a `module_put`
          refine iff_of_true ?_ fun _ _ _ => Or.inl hcreate
          repeat' split
          all_goals decide
        · rw [if_neg hcreate]
          have hcond : ∀ P : Prop, (true = true → permAmmisible permission = 0 →
              keyAmmissible key = 0 → command = cmdCreate ∨ P) ↔ P := fun P =>
            ⟨fun h => (h rfl (not_not.mp hperm) (not_not.mp hkey)).resolve_left hcreate,
              fun hp _ _ _ => Or.inr hp⟩
          rw [hcond]
          by_cases hopen : command = cmdOpen
          · rw [if_pos hopen]
            -- of the paths of `OPEN`, the one for a private key and the successful one have none
            by_cases hpriv : key = tagIpcPrivate
            · rw [if_pos hpriv]
              exact iff_of_false (by decide) fun h => h.2.1 hpriv
            · rw [if_neg hpriv]
              cases hkeyed : keyed m key with
              | none =>
                show puts (readSection ++ [.modulePut]) = gets (readSection ++ [.modulePut]) ↔ _
                exact iff_of_true (by decide) ⟨hopen, hpriv, fun s hs => by cases hs⟩
              | some s =>
                cases hvalid : validServiceOperation env.caller s with
                | true =>
                  refine iff_of_false (by simp only [hvalid, if_true]; decide) fun h => ?_
                  simp [h.2.2 s rfl] at hvalid
                | false =>
                  refine iff_of_true (by simp only [hvalid]; decide) ⟨hopen, hpriv, ?_⟩
                  intro s' hs'
                  obtain rfl := Option.some.inj hs'
                  exact hvalid
          · rw [if_neg hopen]
            exact iff_of_false (by decide) fun h => hopen h.1
  | tagSend tag level buffer size =>
    simp only [path, PutsBack, iff_true]
    repeat' split
    all_goals decide
  | tagReceive tag level bufferNull size =>
    simp only [path, PutsBack, iff_true]
    repeat' split
    all_goals decide
  | tagCtl tag command =>
    simp only [path, PutsBack]
    cases hlive : env.moduleLive with
    | false =>
      rw [if_pos (by simp)]
      -- `tag_ctl` gives back what it did not get
      exact iff_of_false (by decide) fun h => absurd h.1 (by simp)
    | true =>
      rw [if_neg (by simp)]
      by_cases hneg : tag < 0
      · rw [if_pos hneg]
        exact iff_of_true (by decide) ⟨rfl, fun h => absurd hneg h⟩
      · rw [if_neg hneg]
        by_cases hawake : command = cmdAwakeAll
        · rw [if_pos hawake]
          refine iff_of_true ?_ ⟨rfl, fun _ => Or.inl hawake⟩
          repeat' split
          all_goals decide
        · rw [if_neg hawake]
          by_cases hremove : command = cmdRemove
          · rw [if_pos hremove]
            cases htag : tagged m tag with
            | none =>
              show puts (readSection ++ [.modulePut]) = gets (readSection ++ [.modulePut]) ↔ _
              exact iff_of_true (by decide)
                ⟨rfl, fun _ => Or.inr ⟨hremove, fun s hs => by cases hs⟩⟩
            | some s =>
              by_cases hsleep : validServiceOperation env.caller s = true → hasSleepers s = false
              · refine iff_of_true ?_ ⟨rfl, fun _ => Or.inr ⟨hremove, fun s' hs' => ?_⟩⟩
                · cases hvalid : validServiceOperation env.caller s with
                  | false =>
                    simp only [hvalid]
                    show puts [.moduleGet true, .searchLock .readLock, .modulePut] =
                      gets [.moduleGet true, .searchLock .readLock, .modulePut]
                    decide
                  | true =>
                    simp only [hvalid, hsleep hvalid]
                    decide
                · obtain rfl := Option.some.inj hs'
                  exact hsleep
              · -- `-EADDRINUSE`, the one return of `REMOVE` without a `module_put`
                obtain ⟨hvalid, hwait⟩ := Classical.not_imp.mp hsleep
                refine iff_of_false ?_ fun h => ?_
                · rw [Bool.not_eq_false] at hwait
                  simp only [hvalid, hwait]
                  decide
                · exact hsleep (((h.2 hneg).resolve_left hawake).2 s rfl)
          · rw [if_neg hremove]
            exact iff_of_false (by decide) fun h =>
              (h.2 hneg).elim hawake fun hc => hremove hc.1

/-- References are got before they are put back, unless `tag_ctl` got none. -/
theorem path_inits (h : PutsBack env m c) : ∀ t ∈ (path env m c).inits, puts t ≤ gets t := by
  cases c with
  | tagGet key command permission =>
    simp only [path]
    repeat' split
    all_goals decide
  | tagSend tag level buffer size =>
    simp only [path]
    repeat' split
    all_goals decide
  | tagReceive tag level bufferNull size =>
    simp only [path]
    repeat' split
    all_goals decide
  | tagCtl tag command =>
    simp only [path, h.1, Bool.not_true, Bool.false_eq_true, if_false]
    repeat' split
    all_goals decide

/-- The module and its reference count. -/
structure Counted where
  world : World
  refs : Int

/-- Calls one at a time, on any table, with the count they leave, from the count `n`. -/
def counted (n : Int) : System Counted Done where
  init := fun s => s.refs = n
  step := fun s d s' =>
    d.call.exec d.env s.world = .ok (d.answer, s'.world) ∧
      s'.refs = s.refs + gets s'.world.trace - puts s'.world.trace

theorem exec_puts (h : c.exec env w = .ok (answer, w')) :
    puts w'.trace = gets w'.trace ↔ PutsBack env w.mem c := by
  rw [← puts_control, ← gets_control, exec_path h, path_puts]

theorem exec_prefix {t : List Event} (h : c.exec env w = .ok (answer, w'))
    (hok : PutsBack env w.mem c) (ht : t <+: w'.trace) : puts t ≤ gets t := by
  have hcontrol : control t <+: path env w.mem c := exec_path h ▸ ht.filter _
  rw [← puts_control, ← gets_control]
  exact path_inits hok _ ((List.mem_inits _ _).mpr hcontrol)

/-- **The balance of module references.** A call that returns puts back exactly what it got when
`PutsBack` says so; then it never puts back more than it has got so far, and a run of such calls
leaves the count where it was. -/
theorem reference_balance (hret : c.exec env w = .ok (answer, w')) :
    (puts w'.trace = gets w'.trace ↔ PutsBack env w.mem c) ∧
      (PutsBack env w.mem c → ∀ t, t <+: w'.trace → puts t ≤ gets t) ∧
      ∀ n ls s, Run (counted n) (fun s d => PutsBack d.env s.world.mem d.call) ls s →
        s.refs = n := by
  refine ⟨exec_puts hret, fun hok t => exec_prefix hret hok, fun n ls s hrun => ?_⟩
  refine hrun.invariant (I := fun s => s.refs = n) (fun _ h => h) fun s d s' hs hok hstep => ?_
  have hbalance := (exec_puts hstep.1).mpr hok
  rw [hstep.2, hs, hbalance]
  omega

/-- A creation on the empty table. -/
theorem reference_balance_creation : ∃ answer w',
    (Call.tagGet 5 cmdCreate openRoom).exec (callerEnv 10) bootWorld = .ok (answer, w') ∧
      puts w'.trace = gets w'.trace ∧ (∀ t, t <+: w'.trace → puts t ≤ gets t) ∧
      ∃ s : Counted, Run (counted 1) (fun s d => PutsBack d.env s.world.mem d.call)
        [⟨.tagGet 5 cmdCreate openRoom, callerEnv 10, answer⟩] s ∧ s.refs = 1 := by
  obtain ⟨answer, w', hret⟩ : ∃ answer w',
      (Call.tagGet 5 cmdCreate openRoom).exec (callerEnv 10) bootWorld = .ok (answer, w') := by
    obtain ⟨w', hret, _⟩ := exec_returns (w := bootWorld) (.tagGet 5 cmdCreate openRoom) (callerEnv 10)
      emptyMem_rep id fun _ => rfl
    exact ⟨_, w', hret⟩
  have hok : PutsBack (callerEnv 10) bootWorld.mem (.tagGet 5 cmdCreate openRoom) :=
    fun _ _ _ => Or.inl rfl
  obtain ⟨hiff, hprefix, hcount⟩ := reference_balance hret
  have hstart : Run (counted 1) (fun s d => PutsBack d.env s.world.mem d.call) []
      ⟨bootWorld, 1⟩ := .start rfl
  have hstep : (counted 1).step ⟨bootWorld, 1⟩
      ⟨.tagGet 5 cmdCreate openRoom, callerEnv 10, answer⟩
      ⟨w', 1 + gets w'.trace - puts w'.trace⟩ := ⟨hret, rfl⟩
  have hrun := hstart.step (by exact hok) hstep
  exact ⟨_, w', hret, hiff.mpr hok, hprefix hok, _, hrun, hcount _ _ _ hrun⟩

/-- An `OPEN` that answers a tag keeps its reference. -/
theorem reference_kept : ∃ ls w w', Run serial InArrays ls w ∧
    (Call.tagGet 6 cmdOpen openRoom).exec (callerEnv 12) w = .ok (.ofRet 1, w') ∧
    gets w'.trace = 1 ∧ puts w'.trace = 0 := by
  obtain ⟨w, hrun, hrep⟩ := twoRooms_run
  obtain ⟨w', hret, _⟩ := exec_returns (.tagGet 6 cmdOpen openRoom) (callerEnv 12) hrep id
    fun _ => rfl
  obtain ⟨cells, h⟩ := hrep
  obtain ⟨s, hs, hd⟩ := h.keyed 6 (i := ⟨1, by decide⟩) rfl rfl
  have hvalid : validServiceOperation (callerEnv 12).caller s = true := by
    rw [hd.validServiceOperation _ (Or.inl rfl)]
    rfl
  have hcontrol : control w'.trace = readSection := by
    rw [exec_path hret]
    simp only [path, hs, hvalid]
    rfl
  refine ⟨_, w, w', hrun, hret, ?_, ?_⟩
  · rw [← gets_control, hcontrol]
    rfl
  · rw [← puts_control, hcontrol]
    rfl

end TagMessaging.Serial
