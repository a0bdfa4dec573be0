/-
# TagMessaging.Serial.Sleeping -- which calls may sleep under a spin lock

`searchLock` and the `write_lock` of each list are spin locks, taken with interrupts off. The trace
of a call shows them beside the operations that may put it to sleep, and `Lib.Atomic` says whether
one of the latter comes while the call holds one of the former.

`tag_send` and `tag_receive` never do that: they allocate, copy and wait before they take a lock or
after they have released it, and the list operations allocate before they lock. A service record is
allocated under `searchLock`, by a creation and by `REMOVE`, and its 32 elements with it.
-/
import TagMessaging.Lib.Atomic
import TagMessaging.Serial.Discipline

namespace TagMessaging.Serial

open TagMessaging.Lib.Effect TagMessaging.Lib.Transition TagMessaging.Model
open TagMessaging.Lib.Atomic (Op Awake Watch watch awake_iff)

variable {env : Env} {w w' : World} {m : Mem} {c : Call} {answer : Answer} {α β : Type}

/-! ## The trace as a trace of locks -/

/-- The spin locks. -/
inductive LockName where
  | search
  /-- The `write_lock` of the list in the record `l`. -/
  | list (l : Addr)
  deriving DecidableEq

/-- What an event is for the locks. -/
def atomicOp : Event → Option (Op LockName)
  | .searchLock .readLock | .searchLock .writeLock => some (.acquire .search)
  | .searchLock .readUnlock | .searchLock .writeUnlock => some (.release .search)
  | .listLock l => some (.acquire (.list l))
  | .listUnlock l => some (.release (.list l))
  | .maySleep => some .sleep
  | .moduleGet _ | .modulePut => none

/-- The operations of a trace on spinlocks, and its sleeps. -/
def atomicOps (t : List Event) : List (Op LockName) := t.filterMap atomicOp

/-- The watch after a trace. -/
def watched (t : List Event) : Watch LockName := watch (atomicOps t)

def watchOf (w : World) : Watch LockName := watched w.trace

/-- One more event that the watch sees. -/
theorem watched_of_some {ev : Event} {op : Op LockName} (t : List Event) (h : atomicOp ev = some op) :
    watched (t ++ [ev]) = (watched t).see op := by
  have hops : atomicOps (t ++ [ev]) = atomicOps t ++ [op] := by
    simp [atomicOps, h]
  rw [watched, hops, Lib.Atomic.watch_concat, watched]

/-- One more that it does not see. -/
theorem watched_of_none {ev : Event} (t : List Event) (h : atomicOp ev = none) :
    watched (t ++ [ev]) = watched t := by
  have hops : atomicOps (t ++ [ev]) = atomicOps t := by
    simp [atomicOps, h]
  rw [watched, hops, watched]

@[simp] theorem watched_maySleep (t : List Event) :
    watched (t ++ [.maySleep]) = (watched t).see .sleep := watched_of_some t rfl

@[simp] theorem watched_moduleGet (t : List Event) (ok : Bool) :
    watched (t ++ [.moduleGet ok]) = watched t := watched_of_none t rfl

@[simp] theorem watched_modulePut (t : List Event) : watched (t ++ [.modulePut]) = watched t :=
  watched_of_none t rfl

@[simp] theorem watched_readLock (t : List Event) :
    watched (t ++ [.searchLock .readLock]) = (watched t).see (.acquire .search) :=
  watched_of_some t rfl

@[simp] theorem watched_writeLock (t : List Event) :
    watched (t ++ [.searchLock .writeLock]) = (watched t).see (.acquire .search) :=
  watched_of_some t rfl

@[simp] theorem watched_readUnlock (t : List Event) :
    watched (t ++ [.searchLock .readUnlock]) = (watched t).see (.release .search) :=
  watched_of_some t rfl

@[simp] theorem watched_writeUnlock (t : List Event) :
    watched (t ++ [.searchLock .writeUnlock]) = (watched t).see (.release .search) :=
  watched_of_some t rfl

@[simp] theorem watched_listLock (t : List Event) (l : Addr) :
    watched (t ++ [.listLock l]) = (watched t).see (.acquire (.list l)) := watched_of_some t rfl

@[simp] theorem watched_listUnlock (t : List Event) (l : Addr) :
    watched (t ++ [.listUnlock l]) = (watched t).see (.release (.list l)) := watched_of_some t rfl

/-! ## Routines that sleep -/

/-- All the monitor sees of a routine that delivers is that it sleeps. -/
def Sleeps (m : Kernel α) : Prop :=
  ∀ env w, wlp m env w fun _ w' => watchOf w' = (watchOf w).see .sleep

/-- What records nothing is not seen. -/
theorem watch_of_quiet {m : Kernel α} (h : Keeps World.trace m) : Keeps watchOf m :=
  keeps_comp watched h

theorem sleeps_emit : Sleeps (emit .maySleep) := fun _ w => watched_maySleep w.trace

/-- A sleep is not taken back by what comes after it. -/
theorem sleeps_then {m : Kernel α} {f : α → Kernel β} (hm : Sleeps m)
    (hf : ∀ a, Keeps watchOf (f a)) : Sleeps (m >>= f) := by
  intro env w
  refine wp_seq (hm env w) fun a w₁ h₁ => ?_
  exact wp_imp (hf a env w₁) fun _ _ h₂ => h₂.trans h₁

/-- Nor does it depend on what came before, where that is not seen. -/
theorem sleeps_after {m : Kernel α} {f : α → Kernel β} (hm : Keeps watchOf m)
    (hf : ∀ a, Sleeps (f a)) : Sleeps (m >>= f) := by
  intro env w
  refine wp_seq (hm env w) fun a w₁ h₁ => ?_
  refine wp_imp (hf a env w₁) fun _ _ h₂ => ?_
  rw [h₂, h₁]

/-- All the monitor sees is that the routine sleeps, if it sees anything. -/
def Dozes (m : Kernel α) : Prop :=
  ∀ env w, wlp m env w fun _ w' => watchOf w' = watchOf w ∨ watchOf w' = (watchOf w).see .sleep

theorem dozes_of_quiet {m : Kernel α} (h : Keeps World.trace m) : Dozes m :=
  fun env w => wp_imp (watch_of_quiet h env w) fun _ _ => Or.inl

theorem dozes_of_sleeps {m : Kernel α} (h : Sleeps m) : Dozes m :=
  fun env w => wp_imp (h env w) fun _ _ => Or.inr

/-- Sleeping again shows nothing new. -/
theorem dozes_bind {m : Kernel α} {f : α → Kernel β} (hm : Dozes m) (hf : ∀ a, Dozes (f a)) :
    Dozes (m >>= f) := by
  intro env w
  refine wp_seq (hm env w) fun a w₁ h₁ => ?_
  refine wp_imp (hf a env w₁) fun _ w₂ h₂ => ?_
  rcases h₁ with h₁ | h₁ <;> rw [h₁] at h₂
  · exact h₂
  · rw [Lib.Atomic.see_sleep_sleep, or_self] at h₂
    exact Or.inr h₂

theorem sleeps_bind {m : Kernel α} {f : α → Kernel β} (hm : Sleeps m) (hf : ∀ a, Dozes (f a)) :
    Sleeps (m >>= f) := by
  intro env w
  refine wp_seq (hm env w) fun a w₁ h₁ => ?_
  refine wp_imp (hf a env w₁) fun _ w₂ h₂ => ?_
  rw [h₁, Lib.Atomic.see_sleep_sleep, or_self] at h₂
  exact h₂

/-- `kmalloc` with `GFP_KERNEL` may sleep, whether it finds memory or not. -/
theorem sleeps_kmallocService : Sleeps kmallocService := by
  refine sleeps_after keeps_ask fun env => sleeps_after (watch_of_quiet (quiet_readMem _)) fun a =>
    sleeps_then sleeps_emit fun _ => keeps_ite ?_ ?_
  · exact keeps_bind (watch_of_quiet (quiet_modifyMem _)) fun _ => keeps_pure _
  · exact keeps_bind (watch_of_quiet (quiet_modifyMem _)) fun _ => keeps_pure _

/-- So may `vzalloc`. -/
theorem sleeps_vzalloc (size : Nat) : Sleeps (vzalloc size) := by
  refine sleeps_after keeps_ask fun env => sleeps_after (watch_of_quiet (quiet_readMem _)) fun a =>
    sleeps_then sleeps_emit fun _ => keeps_ite ?_ ?_
  · exact keeps_bind (watch_of_quiet (quiet_modifyMem _)) fun _ => keeps_pure _
  · exact keeps_bind (watch_of_quiet (quiet_modifyMem _)) fun _ => keeps_pure _

theorem sleeps_newElement (key : Int32) (msg : Ptr) (size : Nat) :
    Sleeps (newElement key msg size) := by
  refine sleeps_then ?_ fun p => ?_
  · refine sleeps_after keeps_ask fun env => sleeps_after (watch_of_quiet (quiet_readMem _))
      fun a => sleeps_then sleeps_emit fun _ => keeps_ite ?_ ?_
    · exact keeps_bind (watch_of_quiet (quiet_modifyMem _)) fun _ => keeps_pure _
    · exact keeps_bind (watch_of_quiet (quiet_modifyMem _)) fun _ => keeps_pure _
  · cases p with
    | none => exact keeps_pure _
    | some a => exact keeps_bind (watch_of_quiet (quiet_modifyMem _)) fun _ => keeps_pure _

/-- So may a copy from user space, which may fault a page in. -/
theorem sleeps_copyFromUser (buf : Ptr) (user : Nat → UInt8) (size : Nat) :
    Sleeps (copyFromUser buf user size) := by
  refine sleeps_after keeps_ask fun env => sleeps_then sleeps_emit fun _ => ?_
  cases buf with
  | none => exact keeps_ite (keeps_pure _) (keeps_stop _)
  | some a => exact keeps_bind (watch_of_quiet (quiet_modifyMem _)) fun _ => keeps_pure _

/-- `rcu_list_insert` allocates before it locks, and unlocks. -/
theorem sleeps_rcuListInsert (l : Addr) (key : Int32) (msg : Ptr) (size : Nat) :
    Sleeps (rcuListInsert l key msg size) := by
  refine sleeps_then (sleeps_newElement key msg size) fun p => ?_
  cases p with
  | none => exact keeps_pure _
  | some a =>
      intro env w
      simp only [wlp, wp_bind, wp_listLockIrqsave]
      refine wp_imp (quiet_loadList l env _) fun list w₁ h₁ => ?_
      rw [wp_readMem]
      refine wp_imp (quiet_storeRelinked l _ env _) fun _ w₂ h₂ => ?_
      refine wp_imp (quiet_storeList l _ env _) fun _ w₃ h₃ => ?_
      refine wp_imp (quiet_awaitStanding l _ env _) fun _ w₄ h₄ => ?_
      have htrace : w₄.trace = w.trace ++ [.listLock l] := h₄.trans (h₃.trans (h₂.trans h₁))
      show watched (w₄.trace ++ [.listUnlock l]) = watched w.trace
      rw [htrace, watched_listUnlock, watched_listLock, Lib.Atomic.see_acquire_release]

/-- The search waits in `wait_event_interruptible`, with no lock taken. -/
theorem sleeps_rcuListSearch (l : Addr) (key : Int32) : Sleeps (rcuListSearch l key) := by
  have store : ∀ f, Keeps watchOf (storeList l f) := fun f => watch_of_quiet (quiet_storeList l f)
  refine sleeps_after (watch_of_quiet (quiet_loadList l)) fun list =>
    sleeps_after (watch_of_quiet (quiet_levelIndex key)) fun i =>
    sleeps_after (store _) fun _ => sleeps_after (store _) fun _ => ?_
  refine sleeps_then (sleeps_after keeps_ask fun env => sleeps_then sleeps_emit fun _ => ?_)
    fun interrupted => keeps_ite ?_ ?_
  · cases env.waitEnd with
    | signal => exact keeps_pure _
    | woken => exact keeps_bind (store _) fun _ => keeps_pure _
  · exact keeps_bind (store _) fun _ => keeps_bind (store _) fun _ => keeps_pure _
  · exact keeps_bind (store _) fun _ => keeps_bind (watch_of_quiet (quiet_loadList l)) fun _ =>
      keeps_bind (watch_of_quiet (quiet_readMem _)) fun m => keeps_bind (keeps_lift _) fun p =>
      keeps_bind (store _) fun _ => keeps_bind (store _) fun _ => keeps_pure p

/-- The levels of a service are allocated one by one. -/
theorem dozes_insertLevels (l : Addr) (js : List (Fin levelDeep)) : Dozes (insertLevels l js) := by
  induction js with
  | nil => exact dozes_of_quiet (keeps_pure ())
  | cons j js ih => exact dozes_bind (dozes_of_sleeps (sleeps_rcuListInsert l _ _ _)) fun _ => ih

/-- A new service is allocated, and an element for each level of it. -/
theorem sleeps_fillSlot (i : Fin minSysTagServices) (key uidCreator perm : Int32) :
    Sleeps (fillSlot i key uidCreator perm) := by
  refine sleeps_bind sleeps_kmallocService fun p =>
    dozes_bind (dozes_of_quiet (quiet_modifyMem _)) fun _ =>
    dozes_bind (dozes_of_quiet (quiet_storeService p _)) fun _ => ?_
  cases p with
  | none => exact dozes_of_quiet (keeps_pure _)
  | some l =>
      exact dozes_bind (dozes_of_quiet (quiet_rcuListInit l)) fun _ =>
        dozes_bind (dozes_insertLevels l _) fun _ => dozes_of_quiet (keeps_pure _)

/-! ## The calls -/

/-- The call is a creation that comes to a free slot, or a `REMOVE` that is let in and meets no
sleeper: these build a service under `searchLock`. -/
def BuildsLocked (env : Env) (m : Mem) : Call → Prop
  | .tagGet key command permission =>
      env.moduleLive = true ∧ permAmmisible permission = 0 ∧ keyAmmissible key = 0 ∧
        command = cmdCreate ∧ m.serviceCount < UInt32.ofNat minSysTagServices ∧
        (key = tagIpcPrivate ∨ keyed m key = none) ∧ freeSlot m ≠ none
  | .tagSend .. => False
  | .tagReceive .. => False
  | .tagCtl tag command =>
      env.moduleLive = true ∧ ¬ tag < 0 ∧ command = cmdRemove ∧
        ∃ s, tagged m tag = some s ∧ validServiceOperation env.caller s = true ∧
          hasSleepers s = false

/-- The watch where no lock is held and none was when the call slept. -/
theorem see_sleep_start : Watch.start.see (.sleep : Op LockName) = .start :=
  Lib.Atomic.see_sleep_of_free rfl

/-- A search of the table under a read lock. -/
theorem watched_section {t : List Event} (h : watched t = .start) :
    watched (t ++ [.searchLock .readLock] ++ [.searchLock .readUnlock]) = .start := by
  rw [watched_readUnlock, watched_readLock, Lib.Atomic.see_acquire_release, h]

/-- The module reference is not seen. -/
theorem watched_get {t : List Event} (h : watched t = .start) (ok : Bool) :
    watched (t ++ [.moduleGet ok]) = .start := by
  rw [watched_moduleGet, h]

/-- The last `module_put` of a call. -/
theorem slept_put {t : List Event} {b : Bool} (h : (watched t).slept = b) :
    (watched (t ++ [.modulePut])).slept = b := by
  rw [watched_modulePut, h]

theorem slept_start {t : List Event} (h : watched t = .start) : (watched t).slept = false := by
  rw [h]
  rfl

/-- A routine that sleeps with no lock held. -/
theorem Sleeps.start {m : Kernel α} (hm : Sleeps m) {Q : α → World → Prop}
    (hw : watched w.trace = .start) (hQ : ∀ a w', watched w'.trace = .start → Q a w') :
    wlp m env w Q := by
  refine wp_imp (hm env w) fun a w' hw' => hQ a w' ?_
  rw [← watchOf, hw', watchOf, hw, see_sleep_start]

/-- `rcu_list_replace` allocates before it locks; one way out leaves the list locked. -/
theorem rcuListReplace_watch (l : Addr) (key : Int32) (msg : Ptr) (size : Nat)
    (hw : watched w.trace = .start) :
    wlp (rcuListReplace l key msg size) env w fun _ w' => (watched w'.trace).slept = false := by
  refine wp_bind.mpr ((sleeps_newElement key msg size).start hw fun p w₀ h₀ => ?_)
  cases p with
  | none => exact slept_start h₀
  | some a =>
      simp only [wp_bind, wp_listLockIrqsave]
      refine wp_imp (quiet_loadList l env _) fun list w₁ h₁ => ?_
      rw [wp_readMem]
      refine wp_imp (quiet_lift _ env w₁) fun r w₂ h₂ => ?_
      have hlocked : w₂.trace = w₀.trace ++ [.listLock l] := h₂.trans h₁
      cases r with
      | none =>
          show (watched w₂.trace).slept = false
          rw [hlocked, watched_listLock, Lib.Atomic.see_acquire_slept]
          exact slept_start h₀
      | some r =>
          simp only [wp_bind]
          refine wp_imp (quiet_storeRelinked l _ env _) fun _ w₃ h₃ => ?_
          refine wp_imp (quiet_storeList l _ env _) fun _ w₄ h₄ => ?_
          refine wp_imp (quiet_awaitStanding l _ env _) fun _ w₅ h₅ => ?_
          have htrace : w₅.trace = w₀.trace ++ [.listLock l] := h₅.trans (h₄.trans (h₃.trans hlocked))
          have hslept : (watched (w₅.trace ++ [.listUnlock l])).slept = false := by
            rw [htrace, watched_listUnlock, watched_listLock, Lib.Atomic.see_acquire_release]
            exact slept_start h₀
          rw [wp_listUnlockIrqrestore]
          cases r.removed with
          | none => exact hslept
          | some b => exact hslept

/-- `tag_send` allocates and copies before it takes the lock. -/
theorem tagSend_watch {tag level : Int32} {buffer : Option (Nat → UInt8)} {size : Nat}
    (hw : watched w.trace = .start) :
    wlp (tagSend tag level buffer size) env w fun _ w' => (watched w'.trace).slept = false := by
  have hget : watched (w.trace ++ [.moduleGet env.moduleLive]) = .start := watched_get hw _
  simp only [tagSend, wlp, wp_bind, wp_ask, wp_tryModuleGet]
  split
  · exact slept_start hget
  · split
    · exact slept_put (slept_start hget)
    · cases buffer with
      | none => exact slept_put (slept_start hget)
      | some user =>
        -- the buffer is allocated and filled before any lock is taken
        simp only [wp_bind]
        refine (sleeps_vzalloc size).start hget fun buf w₁ h₁ => ?_
        refine (sleeps_copyFromUser buf user size).start h₁ fun left w₂ h₂ => ?_
        split
        · exact slept_put (slept_start h₂)
        · have hread := watched_section h₂
          simp only [wp_bind, wp_searchLockIrqsave]
          refine wlp_findService (fun _ => ?_) fun l s _ hs => ?_
          · exact slept_put (slept_start hread)
          · simp only [wp_bind, wp_searchUnlockIrqrestore]
            refine wp_loadService_of hs ?_
            split
            · refine wp_bind.mpr (wp_imp (quiet_vfree buf env _) fun _ w₃ h₃ => ?_)
              refine slept_put (slept_start ?_)
              rw [h₃]
              exact hread
            · split
              · refine wp_bind.mpr (wp_imp (quiet_vfree buf env _) fun _ w₃ h₃ => ?_)
                refine slept_put (slept_start ?_)
                rw [h₃]
                exact hread
              · -- the new element is allocated before the list is locked
                refine wp_bind.mpr (wp_imp (rcuListReplace_watch l level buf size hread) ?_)
                intro r w₃ hslept
                split
                · exact slept_put hslept
                · refine wp_bind.mpr (wp_imp (quiet_levelIndex level env w₃) fun i w₄ h₄ => ?_)
                  refine wp_bind.mpr (wp_imp (quiet_loadList l env w₄) fun list w₅ h₅ => ?_)
                  have hlate : w₅.trace = w₃.trace := h₅.trans h₄
                  split
                  · refine slept_put ?_
                    rw [hlate]
                    exact hslept
                  · refine wp_bind.mpr (wp_imp (quiet_storeList l _ env w₅) fun _ w₆ h₆ => ?_)
                    refine slept_put ?_
                    rw [h₆, hlate]
                    exact hslept

/-- `tag_receive` sleeps and copies after it has released it. -/
theorem tagReceive_watch {tag level : Int32} {bufferNull : Bool} {size : Nat}
    (hw : watched w.trace = .start) :
    wlp (tagReceive tag level bufferNull size) env w fun _ w' =>
      (watched w'.trace).slept = false := by
  have hget : watched (w.trace ++ [.moduleGet env.moduleLive]) = .start := watched_get hw _
  have hread := watched_section hget
  simp only [tagReceive, wlp, wp_bind, wp_ask, wp_tryModuleGet]
  split
  · exact slept_start hget
  · split
    · exact slept_put (slept_start hget)
    · simp only [wp_bind, wp_searchLockIrqsave]
      refine wlp_findService (fun _ => ?_) fun l s _ hs => ?_
      · exact slept_put (slept_start hread)
      · simp only [wp_bind, wp_searchUnlockIrqrestore]
        refine wp_loadService_of hs ?_
        split
        · exact slept_put (slept_start hread)
        · split
          · exact slept_put (slept_start hread)
          · -- the wait and the copy come after the search of the table
            refine wp_bind.mpr ((sleeps_rcuListSearch l level).start hread fun p w₁ h₁ => ?_)
            cases p with
            | none => exact slept_put (slept_start h₁)
            | some a =>
              simp only [wp_bind, wp_readMem]
              refine wp_imp (quiet_lift _ env w₁) fun e w₂ h₂ => ?_
              refine wp_imp (quiet_loadMessage _ _ env w₂) fun message w₃ h₃ => ?_
              refine slept_put (slept_start ?_)
              rw [watched_maySleep, h₃, h₂, h₁, see_sleep_start]

/-- A release hides nothing that was seen. -/
theorem slept_writeUnlock {t : List Event} (h : (watched t).slept = true) :
    (watched (t ++ [.searchLock .writeUnlock])).slept = true := by
  rw [watched_writeUnlock, Lib.Atomic.see_release_slept, h]

theorem slept_readUnlock {t : List Event} (h : (watched t).slept = true) :
    (watched (t ++ [.searchLock .readUnlock])).slept = true := by
  rw [watched_readUnlock, Lib.Atomic.see_release_slept, h]

theorem slept_iff_of_false {t : List Event} {P : Prop} (ht : (watched t).slept = false)
    (hP : ¬ P) : (watched t).slept = true ↔ P := by
  rw [ht]
  exact iff_of_false Bool.false_ne_true hP

/-- `CREATE` sleeps under the write lock exactly where it finds a slot to fill. -/
theorem tagGetCreate_watch {key permission : Int32} (hw : watched w.trace = .start) :
    wlp (tagGetCreate key permission) env w fun _ w' =>
      (watched w'.trace).slept = true ↔ w.mem.serviceCount < UInt32.ofNat minSysTagServices ∧
        (key = tagIpcPrivate ∨ keyed w.mem key = none) ∧ freeSlot w.mem ≠ none := by
  have hlocked : (watched (w.trace ++ [.searchLock .writeLock])).slept = false := by
    rw [watched_writeLock, Lib.Atomic.see_acquire_slept]
    exact slept_start hw
  have hbuilt : ∀ {w₁ : World},
      watchOf w₁ = (watched (w.trace ++ [.searchLock .writeLock])).see .sleep →
      (watched w₁.trace).slept = true := fun hw₁ => by
    rw [← watchOf, hw₁, watched_writeLock]
    exact Lib.Atomic.slept_of_held
  simp only [tagGetCreate, wlp, wp_bind, wp_ask, wp_readMem]
  by_cases hfull : w.mem.serviceCount ≥ UInt32.ofNat minSysTagServices
  · rw [if_pos hfull]
    exact slept_iff_of_false (slept_put (slept_start hw)) fun h => UInt32.not_lt.mpr hfull h.1
  · rw [if_neg hfull]
    have hlt : w.mem.serviceCount < UInt32.ofNat minSysTagServices := UInt32.not_le.mp hfull
    by_cases hpriv : key = tagIpcPrivate
    · rw [if_pos hpriv]
      simp only [wp_bind, wp_searchLockIrqsave]
      -- `fillSlot` allocates, with the write lock held
      refine wlp_newTAGService_of (fun i => sleeps_fillSlot i key env.caller.tgid permission env _)
        (fun hnone => ?_) fun a w₁ hfree hw₁ => ?_
      · exact slept_iff_of_false (slept_put hlocked) fun h => h.2.2 hnone
      · simp only [wp_bind, wp_searchUnlockIrqrestore, addServiceCount, wp_modifyMem, wp_modulePut]
        refine wp_imp (quiet_loadService (some a) env _) fun _ w₂ h₂ => ?_
        refine iff_of_true ?_ ⟨hlt, Or.inl hpriv, hfree⟩
        rw [h₂]
        exact slept_put (slept_writeUnlock (hbuilt hw₁))
    · rw [if_neg hpriv]
      simp only [wp_bind, wp_searchLockIrqsave]
      refine wlp_findService (fun hnone => ?_) fun l s hsome _ => ?_
      · simp only [wp_bind]
        refine wlp_newTAGService_of
          (fun i => sleeps_fillSlot i key env.caller.tgid permission env _)
          (fun hnone' => ?_) fun a w₁ hfree hw₁ => ?_
        · exact slept_iff_of_false (slept_put hlocked) fun h => h.2.2 hnone'
        · simp only [wp_bind, wp_searchUnlockIrqrestore, addServiceCount, wp_modifyMem,
            wp_modulePut]
          refine wp_imp (quiet_loadService (some a) env _) fun _ w₂ h₂ => ?_
          refine iff_of_true ?_ ⟨hlt, Or.inr hnone, hfree⟩
          rw [h₂]
          exact slept_put (slept_writeUnlock (hbuilt hw₁))
      · -- the key is in the table: the lock is released again and nothing is allocated
        have hfound : keyed w.mem key = some s := hsome
        refine slept_iff_of_false (slept_put ?_) fun h => ?_
        · rw [watched_writeUnlock, Lib.Atomic.see_release_slept]
          exact hlocked
        · rcases h.2.1 with hpriv' | hnone
          · exact hpriv hpriv'
          · rw [hfound] at hnone
            cases hnone

/-- `OPEN` allocates nothing. -/
theorem tagGetOpen_watch {key : Int32} (hw : watched w.trace = .start) :
    wlp (tagGetOpen key) env w fun _ w' => (watched w'.trace).slept = false := by
  have hread := watched_section hw
  simp only [tagGetOpen, wlp, wp_bind, wp_ask]
  split
  · exact slept_start hw
  · simp only [wp_bind, wp_searchLockIrqsave]
    refine wlp_findService (fun _ => ?_) fun l s _ hs => ?_
    · exact slept_put (slept_start hread)
    · simp only [wp_bind, wp_searchUnlockIrqrestore]
      refine wp_loadService_of hs ?_
      split
      · exact slept_put (slept_start hread)
      · exact slept_start hread

theorem tagGet_watch {key command permission : Int32} (hw : watched w.trace = .start) :
    wlp (tagGet key command permission) env w fun _ w' =>
      (watched w'.trace).slept = true ↔
        BuildsLocked env w.mem (.tagGet key command permission) := by
  have hget : watched (w.trace ++ [.moduleGet env.moduleLive]) = .start := watched_get hw _
  simp only [tagGet, wlp, wp_bind, wp_tryModuleGet]
  by_cases hlive : env.moduleLive = true
  · rw [if_neg (by simp [hlive])]
    by_cases hperm : permAmmisible permission ≠ 0
    · rw [if_pos hperm]
      exact slept_iff_of_false (slept_put (slept_start hget)) fun h => hperm h.2.1
    · rw [if_neg hperm]
      by_cases hkey : keyAmmissible key ≠ 0
      · rw [if_pos hkey]
        exact slept_iff_of_false (slept_put (slept_start hget)) fun h => hkey h.2.2.1
      · rw [if_neg hkey]
        by_cases hcreate : command = cmdCreate
        · rw [if_pos hcreate]
          refine wp_imp (tagGetCreate_watch hget) fun _ w' h => h.trans ?_
          exact ⟨fun hc => ⟨hlive, not_not.mp hperm, not_not.mp hkey, hcreate, hc⟩,
            fun hc => hc.2.2.2.2⟩
        · rw [if_neg hcreate]
          have hnot : ¬ BuildsLocked env w.mem (.tagGet key command permission) :=
            fun h => hcreate h.2.2.2.1
          split
          · exact wp_imp (tagGetOpen_watch hget) fun _ w' h => slept_iff_of_false h hnot
          · exact slept_iff_of_false (slept_start hget) hnot
  · rw [if_pos (by simpa using hlive)]
    exact slept_iff_of_false (slept_start hget) fun h => hlive h.1

/-- Nor does `AWAKE_ALL`. -/
theorem tagCtlAwakeAll_watch {tag : Int32} (hw : watched w.trace = .start) :
    wlp (tagCtlAwakeAll tag) env w fun _ w' => (watched w'.trace).slept = false := by
  have hread := watched_section hw
  simp only [tagCtlAwakeAll, wlp, wp_bind, wp_ask, wp_searchLockIrqsave]
  refine wlp_findService (fun _ => ?_) fun l s _ hs => ?_
  · exact slept_put (slept_start hread)
  · simp only [wp_bind, wp_searchUnlockIrqrestore]
    refine wp_loadService_of hs ?_
    split
    · exact slept_put (slept_start hread)
    · refine wp_bind.mpr (wp_imp (quiet_wakeUpLevels l _ env _) fun _ w₁ h₁ => ?_)
      refine slept_put ?_
      rw [watched_writeUnlock, Lib.Atomic.see_release_slept, h₁]
      exact slept_start hread

/-- `REMOVE` builds its scratch service under the read lock. -/
theorem tagCtlRemove_watch {tag : Int32} (hw : watched w.trace = .start) :
    wlp (tagCtlRemove tag) env w fun _ w' =>
      (watched w'.trace).slept = true ↔ ∃ s, tagged w.mem tag = some s ∧
        validServiceOperation env.caller s = true ∧ hasSleepers s = false := by
  have hlocked : (watched (w.trace ++ [.searchLock .readLock])).slept = false := by
    rw [watched_readLock, Lib.Atomic.see_acquire_slept]
    exact slept_start hw
  simp only [tagCtlRemove, wlp, wp_bind, wp_ask, wp_searchLockIrqsave]
  refine wlp_findService (fun hnone => ?_) fun l s hsome hs => ?_
  · have habsent : tagged w.mem tag = none := hnone
    refine slept_iff_of_false (slept_put (slept_start (watched_section hw))) ?_
    rintro ⟨s, hs, _⟩
    rw [habsent] at hs
    cases hs
  · have hfound : tagged w.mem tag = some s := hsome
    have hcond : (∃ s, tagged w.mem tag = some s ∧ validServiceOperation env.caller s = true ∧
        hasSleepers s = false) ↔
        validServiceOperation env.caller s = true ∧ hasSleepers s = false := by
      rw [hfound]
      constructor
      · rintro ⟨s', ⟨⟩, h⟩
        exact h
      · intro h
        exact ⟨s, rfl, h⟩
    simp only [wp_bind, hcond]
    refine wp_loadService_of hs ?_
    cases hvalid : validServiceOperation env.caller s with
    | false => exact slept_iff_of_false (slept_put hlocked) (by simp)
    | true =>
      cases hsleep : hasSleepers s with
      | true => exact slept_iff_of_false hlocked (by simp)
      | false =>
        -- the scratch service is allocated under the read lock
        refine wp_bind.mpr (wp_imp (sleeps_kmallocService env _) fun p w₁ h₁ => ?_)
        have hbuilt : (watchOf w₁).slept = true := by
          rw [h₁]
          show ((watched (w.trace ++ [.searchLock .readLock])).see .sleep).slept = true
          rw [watched_readLock]
          exact Lib.Atomic.slept_of_held
        refine wp_bind.mpr (wp_imp (quiet_storeService p _ env w₁) fun _ w₂ h₂ => ?_)
        cases p with
        | none => trivial
        | some a =>
          simp only [wp_bind]
          refine wp_imp (quiet_rcuListInit a env w₂) fun _ w₃ h₃ => ?_
          refine wp_imp (dozes_insertLevels a _ env w₃) fun _ w₄ h₄ => ?_
          refine wp_imp (quiet_loadService _ env w₄) fun s' w₅ h₅ => ?_
          refine wp_imp (quiet_slotIndex _ env w₅) fun i w₆ h₆ => ?_
          simp only [loadSlot, storeSlot, wp_readMem, wp_modifyMem, wp_searchUnlockIrqrestore]
          refine wp_imp (quiet_kfreeService _ env _) fun _ w₇ h₇ => ?_
          refine wp_imp (quiet_modifyMem _ env w₇) fun _ w₈ h₈ => ?_
          have hseen : (watchOf w₄).slept = true := by
            have h₃₁ : watchOf w₃ = watchOf w₁ := congrArg watched (h₃.trans h₂)
            rcases h₄ with h₄ | h₄
            · rw [h₄, h₃₁]
              exact hbuilt
            · rw [h₄, h₃₁]
              exact Lib.Atomic.see_slept _ hbuilt
          have hlate : w₈.trace = w₄.trace := h₈.trans (h₇.trans (h₆.trans h₅))
          refine iff_of_true (slept_put (slept_readUnlock ?_)) (by simp)
          rw [hlate]
          exact hseen

theorem tagCtl_watch {tag command : Int32} (hw : watched w.trace = .start) :
    wlp (tagCtl tag command) env w fun _ w' =>
      (watched w'.trace).slept = true ↔ BuildsLocked env w.mem (.tagCtl tag command) := by
  have hget : watched (w.trace ++ [.moduleGet env.moduleLive]) = .start := watched_get hw _
  simp only [tagCtl, wlp, wp_bind, wp_tryModuleGet]
  by_cases hlive : env.moduleLive = true
  · rw [if_neg (by simp [hlive])]
    by_cases hneg : tag < 0
    · rw [if_pos hneg]
      exact slept_iff_of_false (slept_put (slept_start hget)) fun h => h.2.1 hneg
    · rw [if_neg hneg]
      by_cases hremove : command = cmdRemove
      · have hawake : command ≠ cmdAwakeAll := by
          rw [hremove]
          decide
        rw [if_neg hawake, if_pos hremove]
        refine wp_imp (tagCtlRemove_watch hget) fun _ w' h => h.trans ?_
        exact ⟨fun hc => ⟨hlive, hneg, hremove, hc⟩, fun hc => hc.2.2.2⟩
      · have hnot : ¬ BuildsLocked env w.mem (.tagCtl tag command) := fun h => hremove h.2.2.1
        rw [if_neg hremove]
        split
        · exact wp_imp (tagCtlAwakeAll_watch hget) fun _ w' h => slept_iff_of_false h hnot
        · exact slept_iff_of_false (slept_start hget) hnot
  · rw [if_pos (by simpa using hlive)]
    exact slept_iff_of_false (slept_put (slept_start hget)) fun h => hlive h.1

/-! ## The result -/

/-- What the monitor has seen of a call that returns. -/
theorem exec_watch (h : c.exec env w = .ok (answer, w')) :
    (watched w'.trace).slept = true ↔ BuildsLocked env w.mem c := by
  have hstart : watched ({ w with trace := [] } : World).trace = .start := rfl
  have hwlp : wlp c.routine env { w with trace := [] } fun _ w' =>
      (watched w'.trace).slept = true ↔ BuildsLocked env w.mem c := by
    cases c with
    | tagGet key command permission => exact wp_seq (tagGet_watch hstart) fun _ _ hp => hp
    | tagSend tag level buffer size =>
        exact wp_seq (tagSend_watch hstart) fun _ _ hp => slept_iff_of_false hp id
    | tagReceive tag level bufferNull size =>
        exact wp_seq (tagReceive_watch hstart) fun _ _ hp => slept_iff_of_false hp id
    | tagCtl tag command => exact wp_seq (tagCtl_watch hstart) fun _ _ hp => hp
  exact wlp_iff.mp hwlp answer w' h

/-- Any call: it never sleeps locked exactly where it builds nothing there. -/
theorem exec_awake (h : c.exec env w = .ok (answer, w')) :
    Awake (atomicOps w'.trace) ↔ ¬ BuildsLocked env w.mem c := by
  rw [awake_iff, ← exec_watch h, watched, Bool.not_eq_true]

/-- **No sleeping under a spin lock.** In every state, a call that returns has done nothing that may
sleep while it held `searchLock` or the `write_lock` of a list, unless it built a service under
`searchLock`; then it has. -/
theorem never_sleeps_locked (hret : c.exec env w = .ok (answer, w')) :
    Awake (atomicOps w'.trace) ↔ ¬ BuildsLocked env w.mem c := exec_awake hret

/-- A message to the second of two rooms. -/
theorem never_sleeps_locked_send : ∃ ls w answer w', Run serial InArrays ls w ∧
    (Call.tagSend 1 5 (some fun _ => 65) 4).exec (callerEnv 12) w = .ok (answer, w') ∧
    Awake (atomicOps w'.trace) := by
  obtain ⟨w, hrun, hrep⟩ := twoRooms_run
  obtain ⟨w', hret, _⟩ := exec_returns (.tagSend 1 5 (some fun _ => 65) 4) (callerEnv 12) hrep id
    fun _ => rfl
  exact ⟨_, w, _, w', hrun, hret, (never_sleeps_locked hret).mpr id⟩

/-- The first creation allocates its service under the write lock. -/
theorem creation_sleeps_locked : ∃ answer w',
    (Call.tagGet 5 cmdCreate openRoom).exec (callerEnv 10) bootWorld = .ok (answer, w') ∧
      ¬ Awake (atomicOps w'.trace) := by
  obtain ⟨w', hret, _⟩ := exec_returns (w := bootWorld) (.tagGet 5 cmdCreate openRoom)
    (callerEnv 10) emptyMem_rep id fun _ => rfl
  refine ⟨_, w', hret, fun hawake => (exec_awake hret).mp hawake ?_⟩
  exact ⟨rfl, rfl, rfl, rfl, by decide, Or.inr rfl, by decide⟩

end TagMessaging.Serial
