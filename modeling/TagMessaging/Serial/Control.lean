/-
# TagMessaging.Serial.Control -- the locks and module references of each return path

`path env m c` lists the operations on `searchLock` and on the module reference that the call `c`
executes, as a function of its arguments and of the memory it starts on. It holds of every memory,
not only of one that the calls have built: the lookups that decide the path read whatever is there.
The discipline of the lock and the balance of the references are then read off the paths.
-/
import TagMessaging.Serial.Table

namespace TagMessaging.Serial

open TagMessaging.Lib.Effect TagMessaging.Lib.RwLock TagMessaging.Model

/-- The events on `searchLock` and on the module reference. -/
def isControl : Event → Bool
  | .moduleGet _ | .modulePut | .searchLock _ => true
  | .listLock _ | .listUnlock _ | .maySleep => false

/-- The control events of a trace. -/
def control (t : List Event) : List Event := t.filter isControl

@[simp] theorem control_append (t u : List Event) : control (t ++ u) = control t ++ control u :=
  List.filter_append ..

@[simp] theorem control_nil : control [] = [] := rfl

@[simp] theorem control_cons_get (ok : Bool) (t : List Event) :
    control (.moduleGet ok :: t) = .moduleGet ok :: control t := rfl

@[simp] theorem control_cons_put (t : List Event) :
    control (.modulePut :: t) = .modulePut :: control t := rfl

@[simp] theorem control_cons_lock (op : LockOp) (t : List Event) :
    control (.searchLock op :: t) = .searchLock op :: control t := rfl

/-- The control events so far. -/
def controlOf (w : World) : List Event := control w.trace

variable {env : Env} {w : World} {m : Mem} {c : Call} {α : Type}

/-! ## The routines that record nothing -/

/-- A store to memory records nothing. -/
theorem quiet_modifyMem (f : Mem → Mem) : Keeps World.trace (modifyMem f) :=
  keeps_modify fun _ => rfl

theorem quiet_readMem (f : Mem → α) : Keeps World.trace (readMem f) := fun _ _ => rfl

theorem quiet_lift (r : Except Fault α) : Keeps World.trace (.lift r : Kernel α) := keeps_lift r

/-- Nor does a load through a pointer, which may stop at a bad one. -/
theorem quiet_loadService (p : Ptr) : Keeps World.trace (loadService p) := by
  cases p with
  | none => exact keeps_stop _
  | some a =>
      refine keeps_bind (quiet_readMem _) fun s => ?_
      cases s with
      | none => exact keeps_stop _
      | some s => exact keeps_pure s

/-- A store to a record loads it first. -/
theorem quiet_storeService (p : Ptr) (f : TAGService → TAGService) :
    Keeps World.trace (storeService p f) := by
  refine keeps_bind (quiet_loadService p) fun s => ?_
  cases p with
  | none => exact keeps_pure ()
  | some a => exact quiet_modifyMem _

theorem quiet_loadList (l : Addr) : Keeps World.trace (loadList l) :=
  keeps_bind (quiet_loadService _) fun _ => keeps_pure _

theorem quiet_storeList (l : Addr) (f : RcuList → RcuList) : Keeps World.trace (storeList l f) :=
  quiet_storeService _ _

/-- The wait for the readers of a list is one load and one comparison here. -/
theorem quiet_awaitStanding (l : Addr) (e : Fin 2) : Keeps World.trace (awaitStanding l e) :=
  keeps_bind (quiet_loadList l) fun _ => keeps_ite (keeps_stop _) (keeps_pure ())

theorem quiet_storeRelinked (l : Addr) (r : Relinked) : Keeps World.trace (storeRelinked l r) :=
  keeps_bind (quiet_modifyMem _) fun _ => quiet_storeList l _

/-- An index outside the 32 levels stops the call and records nothing. -/
theorem quiet_levelIndex (i : Int32) : Keeps World.trace (levelIndex i) := by
  unfold levelIndex
  split
  · exact keeps_pure _
  · exact keeps_stop _

theorem quiet_rcuListInit (l : Addr) : Keeps World.trace (rcuListInit l) := quiet_storeList l _

/-- The loop over the levels, by induction on those to come. -/
theorem quiet_wakeUpLevels (l : Addr) (is : List (Fin levelDeep)) :
    Keeps World.trace (wakeUpLevels l is) := by
  induction is with
  | nil => exact keeps_pure ()
  | cons i is ih => exact keeps_bind (quiet_storeList l _) fun _ => ih

/-- `vfree` of `NULL` does nothing. -/
theorem quiet_vfree (p : Ptr) : Keeps World.trace (vfree p) := by
  cases p with
  | none => exact keeps_pure ()
  | some a => exact fun _ _ => rfl

/-- As does `kfree`. -/
theorem quiet_kfreeService (p : Ptr) : Keeps World.trace (kfreeService p) := by
  cases p with
  | none => exact keeps_pure ()
  | some a => exact fun _ _ => rfl

theorem quiet_slotIndex (tag : UInt32) : Keeps World.trace (slotIndex tag) := by
  unfold slotIndex
  split
  · exact keeps_pure _
  · exact keeps_stop _

/-- The bytes of a message are read only when there are some to copy. -/
theorem quiet_loadMessage (p : Ptr) (bSize : Nat) : Keeps World.trace (loadMessage p bSize) := by
  unfold loadMessage
  refine keeps_ite (keeps_pure _) ?_
  cases p with
  | none => exact keeps_stop _
  | some a =>
      refine keeps_bind (quiet_readMem _) fun bytes => ?_
      cases bytes with
      | none => exact keeps_stop _
      | some bytes => exact keeps_pure _

/-! ## The routines that touch neither the lock nor the reference -/

/-- A routine that records nothing. -/
theorem keeps_of_quiet {m : Kernel α} (h : Keeps World.trace m) : Keeps controlOf m :=
  keeps_comp control h

/-- An event on a list, and a point where the call may sleep, is no control event. -/
theorem keeps_emit {ev : Event} (h : isControl ev = false) : Keeps controlOf (emit ev) :=
  keeps_modify fun w => by simp [controlOf, control, h]

theorem keeps_modifyMem (f : Mem → Mem) : Keeps controlOf (modifyMem f) :=
  keeps_of_quiet (quiet_modifyMem f)

theorem keeps_readMem (f : Mem → α) : Keeps controlOf (readMem f) :=
  keeps_of_quiet (quiet_readMem f)

theorem keeps_loadService (p : Ptr) : Keeps controlOf (loadService p) :=
  keeps_of_quiet (quiet_loadService p)

theorem keeps_storeService (p : Ptr) (f : TAGService → TAGService) :
    Keeps controlOf (storeService p f) := keeps_of_quiet (quiet_storeService p f)

theorem keeps_loadList (l : Addr) : Keeps controlOf (loadList l) :=
  keeps_of_quiet (quiet_loadList l)

theorem keeps_storeList (l : Addr) (f : RcuList → RcuList) : Keeps controlOf (storeList l f) :=
  keeps_of_quiet (quiet_storeList l f)

/-- The lock of a list is not `searchLock`. -/
theorem keeps_listLockIrqsave (l : Addr) : Keeps controlOf (listLockIrqsave l) :=
  keeps_bind (keeps_modify fun _ => rfl) fun _ => keeps_emit rfl

/-- Nor is its release an event of `searchLock`. -/
theorem keeps_listUnlockIrqrestore (l : Addr) : Keeps controlOf (listUnlockIrqrestore l) :=
  keeps_bind (keeps_emit rfl) fun _ => keeps_modify fun _ => rfl

theorem keeps_awaitStanding (l : Addr) (e : Fin 2) : Keeps controlOf (awaitStanding l e) :=
  keeps_of_quiet (quiet_awaitStanding l e)

/-- `kmalloc` may sleep, which is recorded, but takes no lock of its own. -/
theorem keeps_kmallocService : Keeps controlOf kmallocService := by
  refine keeps_bind keeps_ask fun env => keeps_bind (keeps_readMem _) fun a =>
    keeps_bind (keeps_emit rfl) fun _ => keeps_ite ?_ ?_
  · exact keeps_bind (keeps_modifyMem _) fun _ => keeps_pure _
  · exact keeps_bind (keeps_modifyMem _) fun _ => keeps_pure _

/-- The allocation of an element and the stores to its four fields. -/
theorem keeps_newElement (key : Int32) (msg : Ptr) (size : Nat) :
    Keeps controlOf (newElement key msg size) := by
  refine keeps_bind ?_ fun p => ?_
  · refine keeps_bind keeps_ask fun env => keeps_bind (keeps_readMem _) fun a =>
      keeps_bind (keeps_emit rfl) fun _ => keeps_ite ?_ ?_
    · exact keeps_bind (keeps_modifyMem _) fun _ => keeps_pure _
    · exact keeps_bind (keeps_modifyMem _) fun _ => keeps_pure _
  · cases p with
    | none => exact keeps_pure _
    | some a => exact keeps_bind (keeps_modifyMem _) fun _ => keeps_pure _

theorem keeps_storeRelinked (l : Addr) (r : Relinked) : Keeps controlOf (storeRelinked l r) :=
  keeps_of_quiet (quiet_storeRelinked l r)

/-- From the stores that relink a list to the release of its lock. -/
theorem keeps_publish {k : Kernel α} (l : Addr) (r : Relinked) (e : Fin 2)
    (hk : Keeps controlOf k) :
    Keeps controlOf (do
      storeRelinked l r
      storeList l fun list => { list with epoch := list.epoch + 1 }
      awaitStanding l e
      listUnlockIrqrestore l
      k) := by
  have hrelease : Keeps controlOf (do listUnlockIrqrestore l; k) :=
    keeps_bind (keeps_listUnlockIrqrestore l) fun _ => hk
  have hwait : Keeps controlOf (do awaitStanding l e; listUnlockIrqrestore l; k) :=
    keeps_bind (keeps_awaitStanding l e) fun _ => hrelease
  refine keeps_bind (keeps_storeRelinked l r) fun _ => ?_
  exact keeps_bind (keeps_storeList l _) fun _ => hwait

/-- An insert works under the lock of its list only. -/
theorem keeps_rcuListInsert (l : Addr) (key : Int32) (msg : Ptr) (size : Nat) :
    Keeps controlOf (rcuListInsert l key msg size) := by
  refine keeps_bind (keeps_newElement key msg size) fun p => ?_
  cases p with
  | none => exact keeps_pure 0
  | some a =>
    refine keeps_bind (keeps_listLockIrqsave l) fun _ => ?_
    refine keeps_bind (keeps_loadList l) fun list => ?_
    refine keeps_bind (keeps_readMem Mem.elements) fun elements => ?_
    exact keeps_publish l _ list.epoch (keeps_pure 1)

/-- As does a replacement, also where it returns with that lock taken. -/
theorem keeps_rcuListReplace (l : Addr) (key : Int32) (msg : Ptr) (size : Nat) :
    Keeps controlOf (rcuListReplace l key msg size) := by
  refine keeps_bind (keeps_newElement key msg size) fun p => ?_
  cases p with
  | none => exact keeps_pure 0
  | some a =>
    refine keeps_bind (keeps_listLockIrqsave l) fun _ => ?_
    refine keeps_bind (keeps_loadList l) fun list => ?_
    refine keeps_bind (keeps_readMem id) fun m => ?_
    -- the walk computes on the memory just read, and may stop the call
    refine keeps_bind (keeps_lift _) fun r => ?_
    cases r with
    | none => exact keeps_pure 0
    | some r =>
      refine keeps_publish l r list.epoch ?_
      cases r.removed with
      | none => exact keeps_pure 0
      | some b =>
        have hfree : Keeps controlOf (kfreeElement b) := keeps_modifyMem _
        exact keeps_bind hfree fun _ => keeps_pure 1

theorem keeps_levelIndex (i : Int32) : Keeps controlOf (levelIndex i) :=
  keeps_of_quiet (quiet_levelIndex i)

/-- The wait ends by a signal, or by a wake-up that has stored the flag. -/
theorem keeps_waitEventInterruptible (l : Addr) (i : Fin levelDeep) :
    Keeps controlOf (waitEventInterruptible l i) := by
  refine keeps_bind keeps_ask fun env => ?_
  refine keeps_bind (keeps_emit rfl) fun _ => ?_
  cases env.waitEnd with
  | signal => exact keeps_pure true
  | woken => exact keeps_bind (keeps_storeList l _) fun _ => keeps_pure false

/-- A search takes no lock: it raises the reader counter, or sleeps and is awoken. -/
theorem keeps_rcuListSearch (l : Addr) (key : Int32) : Keeps controlOf (rcuListSearch l key) := by
  have hstanding : ∀ e d, Keeps controlOf (addStanding l e d) := fun _ _ => keeps_storeList l _
  have hwaiters : ∀ i d, Keeps controlOf (addWaiters l i d) := fun _ _ => keeps_storeList l _
  -- both ways out lower the two counters
  have hleave : ∀ e i (p : Ptr), Keeps controlOf (do
      addStanding l e (-1)
      addWaiters l i (-1)
      pure p) := fun e i p =>
    keeps_bind (hstanding e (-1)) fun _ => keeps_bind (hwaiters i (-1)) fun _ => keeps_pure p
  refine keeps_bind (keeps_loadList l) fun list => ?_
  refine keeps_bind (keeps_levelIndex key) fun i => ?_
  refine keeps_bind (keeps_storeList l _) fun _ => ?_
  refine keeps_bind (hwaiters i 1) fun _ => ?_
  refine keeps_bind (keeps_waitEventInterruptible l i) fun interrupted => ?_
  refine keeps_ite (hleave list.epoch i none) ?_
  refine keeps_bind (hstanding list.epoch 1) fun _ => ?_
  refine keeps_bind (keeps_loadList l) fun _ => ?_
  refine keeps_bind (keeps_readMem id) fun m => ?_
  exact keeps_bind (keeps_lift _) fun p => hleave list.epoch i p

theorem keeps_rcuListInit (l : Addr) : Keeps controlOf (rcuListInit l) :=
  keeps_of_quiet (quiet_rcuListInit l)

/-- The inserts of a new list, by induction on the levels to come. -/
theorem keeps_insertLevels (l : Addr) (js : List (Fin levelDeep)) :
    Keeps controlOf (insertLevels l js) := by
  induction js with
  | nil => exact keeps_pure ()
  | cons j js ih => exact keeps_bind (keeps_rcuListInsert l _ _ _) fun _ => ih

theorem keeps_wakeUpLevels (l : Addr) (is : List (Fin levelDeep)) :
    Keeps controlOf (wakeUpLevels l is) := keeps_of_quiet (quiet_wakeUpLevels l is)

/-- `vzalloc` is as `kmalloc`. -/
theorem keeps_vzalloc (size : Nat) : Keeps controlOf (vzalloc size) := by
  refine keeps_bind keeps_ask fun env => keeps_bind (keeps_readMem _) fun a =>
    keeps_bind (keeps_emit rfl) fun _ => keeps_ite ?_ ?_
  · exact keeps_bind (keeps_modifyMem _) fun _ => keeps_pure _
  · exact keeps_bind (keeps_modifyMem _) fun _ => keeps_pure _

theorem keeps_vfree (p : Ptr) : Keeps controlOf (vfree p) := keeps_of_quiet (quiet_vfree p)

theorem keeps_kfreeService (p : Ptr) : Keeps controlOf (kfreeService p) :=
  keeps_of_quiet (quiet_kfreeService p)

theorem keeps_addServiceCount (d : UInt32) : Keeps controlOf (addServiceCount d) :=
  keeps_modifyMem _

theorem keeps_slotIndex (tag : UInt32) : Keeps controlOf (slotIndex tag) :=
  keeps_of_quiet (quiet_slotIndex tag)

theorem keeps_derefElement (elements : Addr → Option Element) (p : Ptr) :
    Keeps controlOf (.lift (derefElement elements p) : Kernel Element) := keeps_lift _

theorem keeps_loadMessage (p : Ptr) (bSize : Nat) : Keeps controlOf (loadMessage p bSize) :=
  keeps_of_quiet (quiet_loadMessage p bSize)

/-- A new service: its record, its slot, its list and the levels of it. -/
theorem keeps_fillSlot (i : Fin minSysTagServices) (key uidCreator perm : Int32) :
    Keeps controlOf (fillSlot i key uidCreator perm) := by
  refine keeps_bind keeps_kmallocService fun p => keeps_bind (keeps_modifyMem _) fun _ =>
    keeps_bind (keeps_storeService p _) fun _ => ?_
  cases p with
  | none => exact keeps_pure _
  | some l =>
      exact keeps_bind (keeps_storeList l _) fun _ => keeps_bind (keeps_insertLevels l _) fun _ =>
        keeps_pure _

/-! ## The searches and the creation -/

/-- The record the search of the table arrives at. -/
def found (test : TAGService → Bool) (m : Mem) : Option TAGService :=
  (findSlot test m).bind (slotService m)

/-- The service a public key names. -/
def keyed (m : Mem) (key : Int32) : Option TAGService := found (fun s => s.key = key) m

/-- The service a tag names. -/
def tagged (m : Mem) (tag : Int32) : Option TAGService := found (fun s => s.tag = tag.toUInt32) m

/-- A search that returns gives back the record found, without a change. -/
theorem wlp_findService {test : TAGService → Bool} {Q : Ptr → World → Prop}
    (hnone : found test w.mem = none → Q none w)
    (hsome : ∀ a s, found test w.mem = some s → w.mem.services a = some s → Q (some a) w) :
    wlp (findService test (List.finRange minSysTagServices)) env w Q := by
  refine findService_spec (fun _ _ _ _ => trivial) ?_
  change Q ((findSlot test w.mem).bind _) w
  cases hslot : findSlot test w.mem with
  | none => exact hnone (by simp [found, hslot])
  | some i =>
      obtain ⟨a, s, ha, hs, _⟩ := findSlot_eq_some hslot
      simpa [ha] using hsome a s (by simp [found, hslot, slotService, ha, hs]) hs

/-- `new_TAG_Service` gives `NULL` when it returns from a full table, and only then; otherwise it
does what filling a slot does. -/
theorem wlp_newTAGService_of {key uidCreator perm : Int32} {P : World → Prop}
    {Q : Ptr → World → Prop}
    (hfill : ∀ i, wlp (fillSlot i key uidCreator perm) env w fun _ w' => P w')
    (hnone : freeSlot w.mem = none → Q none w)
    (hsome : ∀ a w', freeSlot w.mem ≠ none → P w' → Q (some a) w') :
    wlp (newTAGService key uidCreator perm) env w Q := by
  refine wp_newTAGService.mpr ?_
  cases hfree : freeSlot w.mem with
  | none => exact hnone hfree
  | some i =>
      refine wp_imp (wlp_and (hfill i) (Q := fun p _ => ∃ a, p = some a) ?_) ?_
      · rw [fillSlot, wlp, wp_bind]
        refine wp_kmallocService (fun _ _ => ?_) fun _ _ => ?_
        · simp only [storeSlot, wp_bind, wp_modifyMem, wp_storeService]
          refine ⟨fun _ => trivial, fun s _ => ?_⟩
          exact wp_imp (keeps_storeList w.mem.brk _ env _) fun _ w₁ _ =>
            wp_imp (keeps_insertLevels w.mem.brk _ env w₁) fun _ _ _ => ⟨_, rfl⟩
        · simp [storeSlot]
      · rintro _ w' ⟨hw', a, rfl⟩
        exact hsome a w' (by simp [hfree]) hw'

/-- On either side the control events are those from before. -/
theorem wlp_newTAGService {key uidCreator perm : Int32} {Q : Ptr → World → Prop}
    (hnone : freeSlot w.mem = none → Q none w)
    (hsome : ∀ a w', freeSlot w.mem ≠ none → controlOf w' = controlOf w → Q (some a) w') :
    wlp (newTAGService key uidCreator perm) env w Q :=
  wlp_newTAGService_of (fun i => keeps_fillSlot i key uidCreator perm env w) hnone hsome

/-- `copy_from_user` leaves what the environment says. -/
theorem wlp_copyFromUser {buf : Ptr} {user : Nat → UInt8} {size : Nat} :
    wlp (copyFromUser buf user size) env w fun left w' =>
      left = min env.notCopied size ∧ controlOf w' = controlOf w := by
  simp only [copyFromUser, wlp, wp_bind, wp_ask, wp_emit]
  cases buf with
  | none =>
      by_cases hzero : size = 0
      · simp [hzero, controlOf, control, isControl]
      · simp [hzero]
  | some a => simp [controlOf, control, isControl]

/-! ## The paths -/

/-- Up to the end of a search made under the read lock. -/
def readSection : List Event := [.moduleGet true, .searchLock .readLock, .searchLock .readUnlock]

/-- The control events of a call that returns. -/
def path (env : Env) (m : Mem) : Call → List Event
  | .tagGet key command permission =>
    if !env.moduleLive then [.moduleGet false]
    else if permAmmisible permission ≠ 0 ∨ keyAmmissible key ≠ 0 then
      [.moduleGet true, .modulePut]
    else if command = cmdCreate then
      if m.serviceCount ≥ UInt32.ofNat minSysTagServices then [.moduleGet true, .modulePut]
      else if (key ≠ tagIpcPrivate ∧ (keyed m key).isSome) ∨ freeSlot m ≠ none then
        [.moduleGet true, .searchLock .writeLock, .searchLock .writeUnlock, .modulePut]
      else
        -- `new_TAG_Service` gave NULL: there is no unlock on this path
        [.moduleGet true, .searchLock .writeLock, .modulePut]
    else if command = cmdOpen then
      if key = tagIpcPrivate then [.moduleGet true]
      else
        match keyed m key with
        | none => readSection ++ [.modulePut]
        | some s =>
          if validServiceOperation env.caller s then readSection else readSection ++ [.modulePut]
    else [.moduleGet true]
  | .tagSend _ _ buffer size =>
    if !env.moduleLive then [.moduleGet false]
    else if size > maxMessageSize ∨ buffer.isNone ∨ min env.notCopied size ≠ 0 then
      [.moduleGet true, .modulePut]
    else readSection ++ [.modulePut]
  | .tagReceive _ _ bufferNull size =>
    if !env.moduleLive then [.moduleGet false]
    else if size > maxMessageSize ∨ bufferNull then [.moduleGet true, .modulePut]
    else readSection ++ [.modulePut]
  | .tagCtl tag command =>
    if !env.moduleLive then [.moduleGet false, .modulePut]
    else if tag < 0 then [.moduleGet true, .modulePut]
    else if command = cmdAwakeAll then
      match tagged m tag with
      | none => readSection ++ [.modulePut]
      | some s =>
        if validServiceOperation env.caller s then
          readSection ++ [.searchLock .writeUnlock, .modulePut]
        else readSection ++ [.modulePut]
    else if command = cmdRemove then
      match tagged m tag with
      | none => readSection ++ [.modulePut]
      | some s =>
        if !validServiceOperation env.caller s then
          [.moduleGet true, .searchLock .readLock, .modulePut]
        else if hasSleepers s then [.moduleGet true, .searchLock .readLock]
        else readSection ++ [.modulePut]
    else [.moduleGet true]

/-! ## Each call takes its path -/

/-- The last `module_put` of a path. -/
theorem control_put {t : List Event} (h : controlOf w = t) :
    controlOf { w with trace := w.trace ++ [.modulePut] } = t ++ [.modulePut] := by
  have htrace : control w.trace = t := h
  simp [controlOf, htrace]

/-- The release of a read lock. -/
theorem control_unlock (h : control w.trace = [.moduleGet true, .searchLock .readLock])
    (mem : Mem) (irq flags : Bool) :
    controlOf
      { mem := mem, irq := irq, flags := flags, trace := w.trace ++ [.searchLock .readUnlock] } =
      readSection := by
  simp [controlOf, h, readSection]

/-- A search under the read lock. -/
theorem control_section (h : controlOf w = [.moduleGet true]) (mem : Mem) (irq flags : Bool) :
    controlOf
      { mem := mem, irq := irq, flags := flags,
        trace := w.trace ++ [.searchLock .readLock] ++ [.searchLock .readUnlock] } =
      readSection := by
  have htrace : control w.trace = [.moduleGet true] := h
  simp [controlOf, htrace, readSection]

/-- `tag_send` has left the section before it comes to the list. -/
theorem tagSend_path {tag level : Int32} {buffer : Option (Nat → UInt8)} {size : Nat}
    (hw : controlOf w = []) :
    wlp (tagSend tag level buffer size) env w fun _ w' =>
      controlOf w' = path env w.mem (.tagSend tag level buffer size) := by
  have htrace : control w.trace = [] := hw
  simp only [tagSend, wlp, wp_bind, wp_ask, wp_tryModuleGet]
  cases hlive : env.moduleLive with
  | false => simp [path, hlive, controlOf, htrace]
  | true =>
    rw [if_neg (by simp)]
    by_cases hsize : size > maxMessageSize
    · rw [if_pos hsize]
      simp [path, hlive, hsize, controlOf, htrace]
    · rw [if_neg hsize]
      cases buffer with
      | none => simp [path, hlive, controlOf, htrace]
      | some user =>
        simp only [wp_bind]
        refine wp_imp (keeps_vzalloc size env _) fun buf w₁ hw₁ => ?_
        refine wp_imp wlp_copyFromUser fun left w₂ hw₂ => ?_
        obtain ⟨rfl, hw₂⟩ := hw₂
        have hget : controlOf w₂ = [.moduleGet true] := by
          simpa [controlOf, htrace] using hw₂.trans hw₁
        by_cases hleft : min env.notCopied size ≠ 0
        · rw [if_pos hleft]
          have hpath : path env w.mem (.tagSend tag level (some user) size) =
              [.moduleGet true] ++ [.modulePut] := by simp [path, hlive, hleft]
          rw [hpath]
          exact control_put hget
        · rw [if_neg hleft]
          have hpath : path env w.mem (.tagSend tag level (some user) size) =
              readSection ++ [.modulePut] := by simp [path, hlive, hsize, hleft]
          rw [hpath]
          simp only [wp_bind, wp_searchLockIrqsave]
          refine wlp_findService (fun _ => ?_) fun l s _ hs => ?_
          · exact control_put (control_section hget ..)
          · simp only [wp_bind, wp_searchUnlockIrqrestore]
            have hread := control_section hget w₂.mem w₂.irq w₂.flags
            refine wp_loadService_of hs ?_
            -- from here on every branch ends with the put
            split
            · refine wp_bind.mpr (wp_imp (keeps_vfree buf env _) fun _ w₃ hw₃ => ?_)
              exact control_put (hw₃.trans hread)
            · split
              · refine wp_bind.mpr (wp_imp (keeps_vfree buf env _) fun _ w₃ hw₃ => ?_)
                exact control_put (hw₃.trans hread)
              · refine wp_bind.mpr (wp_imp (keeps_rcuListReplace l level buf size env _) ?_)
                intro r w₃ hw₃
                split
                · exact control_put (hw₃.trans hread)
                · refine wp_bind.mpr (wp_imp (keeps_levelIndex level env w₃) fun i w₄ hw₄ => ?_)
                  refine wp_bind.mpr (wp_imp (keeps_loadList l env w₄) fun list w₅ hw₅ => ?_)
                  have hlate := hw₅.trans (hw₄.trans (hw₃.trans hread))
                  split
                  · exact control_put hlate
                  · refine wp_bind.mpr (wp_imp (keeps_storeList l _ env w₅) fun _ w₆ hw₆ => ?_)
                    exact control_put (hw₆.trans hlate)

/-- So has `tag_receive`, which sleeps and copies outside of it. -/
theorem tagReceive_path {tag level : Int32} {bufferNull : Bool} {size : Nat}
    (hw : controlOf w = []) :
    wlp (tagReceive tag level bufferNull size) env w fun _ w' =>
      controlOf w' = path env w.mem (.tagReceive tag level bufferNull size) := by
  have htrace : control w.trace = [] := hw
  simp only [tagReceive, wlp, wp_bind, wp_ask, wp_tryModuleGet]
  cases hlive : env.moduleLive with
  | false => simp [path, hlive, controlOf, htrace]
  | true =>
    rw [if_neg (by simp)]
    by_cases hargs : size > maxMessageSize ∨ bufferNull = true
    · rw [if_pos hargs]
      simp [path, hlive, hargs, controlOf, htrace]
    · rw [if_neg hargs]
      have hpath : path env w.mem (.tagReceive tag level bufferNull size) =
          readSection ++ [.modulePut] := by simp [path, hlive, hargs]
      rw [hpath]
      have hget : controlOf { w with trace := w.trace ++ [.moduleGet true] } =
          [.moduleGet true] := by simp [controlOf, htrace]
      have hread := control_section hget w.mem w.irq w.flags
      simp only [wp_bind, wp_searchLockIrqsave]
      refine wlp_findService (fun _ => ?_) fun l s _ hs => ?_
      · exact control_put (control_section hget ..)
      · simp only [wp_bind, wp_searchUnlockIrqrestore]
        refine wp_loadService_of hs ?_
        split
        · exact control_put hread
        · split
          · exact control_put hread
          · refine wp_bind.mpr (wp_imp (keeps_rcuListSearch l level env _) fun p w₁ hw₁ => ?_)
            cases p with
            | none => exact control_put (hw₁.trans hread)
            | some a =>
              simp only [wp_bind, wp_readMem]
              refine wp_imp (keeps_derefElement _ _ env w₁) fun e w₂ hw₂ => ?_
              refine wp_imp (keeps_loadMessage _ _ env w₂) fun message w₃ hw₃ => ?_
              have hcopy : controlOf { w₃ with trace := w₃.trace ++ [.maySleep] } = readSection :=
                (keeps_emit rfl env w₃).trans (hw₃.trans (hw₂.trans (hw₁.trans hread)))
              exact control_put hcopy

/-- `CREATE` works under the write lock and leaves it taken when it gets no record. -/
theorem tagGetCreate_path {key permission : Int32} (hget : controlOf w = [.moduleGet true]) :
    wlp (tagGetCreate key permission) env w fun _ w' =>
      controlOf w' =
        if w.mem.serviceCount ≥ UInt32.ofNat minSysTagServices then [.moduleGet true, .modulePut]
        else if (key ≠ tagIpcPrivate ∧ (keyed w.mem key).isSome) ∨ freeSlot w.mem ≠ none then
          [.moduleGet true, .searchLock .writeLock, .searchLock .writeUnlock, .modulePut]
        else [.moduleGet true, .searchLock .writeLock, .modulePut] := by
  have htrace : control w.trace = [.moduleGet true] := hget
  simp only [tagGetCreate, wlp, wp_bind, wp_ask, wp_readMem]
  by_cases hfull : w.mem.serviceCount ≥ UInt32.ofNat minSysTagServices
  · rw [if_pos hfull, if_pos hfull]
    simp [controlOf, htrace]
  · rw [if_neg hfull, if_neg hfull]
    have hlocked : controlOf
        { w with irq := false, trace := w.trace ++ [.searchLock .writeLock] } =
          [.moduleGet true, .searchLock .writeLock] := by simp [controlOf, htrace]
    -- from a slot that was filled, with whichever of the last steps first
    have hdone : ∀ (a : Addr) (w₁ : World), control w₁.trace =
        [.moduleGet true, .searchLock .writeLock, .searchLock .writeUnlock, .modulePut] →
        wlp (loadService (some a)) env w₁ fun _ w' => control w'.trace =
          [.moduleGet true, .searchLock .writeLock, .searchLock .writeUnlock, .modulePut] :=
      fun a w₁ hw₁ => wp_imp (keeps_loadService (some a) env w₁) fun _ _ hw' => hw'.trans hw₁
    by_cases hpriv : key = tagIpcPrivate
    · rw [if_pos hpriv]
      simp only [wp_bind, wp_searchLockIrqsave]
      refine wlp_newTAGService (fun hnone => ?_) fun a w₁ hfree hw₁ => ?_
      · rw [if_neg (by simp [hpriv]; exact hnone)]
        exact control_put hlocked
      · rw [if_pos (Or.inr hfree)]
        have hw₂ : control w₁.trace = [.moduleGet true, .searchLock .writeLock] :=
          hw₁.trans hlocked
        simp only [wp_bind, wp_searchUnlockIrqrestore, addServiceCount, wp_modifyMem, wp_modulePut]
        exact hdone a _ (by simp [hw₂])
    · rw [if_neg hpriv]
      simp only [wp_bind, wp_searchLockIrqsave]
      refine wlp_findService (fun hnone => ?_) fun l s hsome _ => ?_
      · have hkeyed : ¬ (key ≠ tagIpcPrivate ∧ (keyed w.mem key).isSome = true) := by
          rw [keyed, show found _ w.mem = none from hnone]
          simp
        simp only [wp_bind]
        refine wlp_newTAGService (fun hfull' => ?_) fun a w₁ hfree hw₁ => ?_
        · rw [if_neg (by simp only [hkeyed, false_or, not_not]; exact hfull')]
          exact control_put hlocked
        · rw [if_pos (Or.inr hfree)]
          have hw₂ : control w₁.trace = [.moduleGet true, .searchLock .writeLock] :=
            hw₁.trans hlocked
          simp only [wp_bind, wp_searchUnlockIrqrestore, addServiceCount, wp_modifyMem,
            wp_modulePut]
          exact hdone a _ (by simp [hw₂])
      · have hkeyed : (keyed w.mem key).isSome = true := by
          rw [keyed, show found _ w.mem = some s from hsome]
          rfl
        rw [if_pos (Or.inl ⟨hpriv, hkeyed⟩)]
        simp [controlOf, htrace]

/-- `OPEN` keeps the reference when it answers with a tag. -/
theorem tagGetOpen_path {key : Int32} (hget : controlOf w = [.moduleGet true]) :
    wlp (tagGetOpen key) env w fun _ w' =>
      controlOf w' =
        if key = tagIpcPrivate then [.moduleGet true]
        else
          match keyed w.mem key with
          | none => readSection ++ [.modulePut]
          | some s =>
            if validServiceOperation env.caller s then readSection
            else readSection ++ [.modulePut] := by
  simp only [tagGetOpen, wlp, wp_bind, wp_ask]
  by_cases hpriv : key = tagIpcPrivate
  · rw [if_pos hpriv, if_pos hpriv]
    exact hget
  · rw [if_neg hpriv, if_neg hpriv]
    have hread := control_section hget w.mem w.irq w.flags
    simp only [wp_bind, wp_searchLockIrqsave]
    refine wlp_findService (fun hnone => ?_) fun l s hsome hs => ?_
    · rw [keyed, show found _ w.mem = none from hnone]
      exact control_put hread
    · rw [keyed, show found _ w.mem = some s from hsome]
      simp only [wp_bind, wp_searchUnlockIrqrestore]
      refine wp_loadService_of hs ?_
      cases hvalid : validServiceOperation env.caller s with
      | true => exact hread
      | false => exact control_put hread

/-- `tag_get` checks its arguments and dispatches on the command. -/
theorem tagGet_path {key command permission : Int32} (hw : controlOf w = []) :
    wlp (tagGet key command permission) env w fun _ w' =>
      controlOf w' = path env w.mem (.tagGet key command permission) := by
  have htrace : control w.trace = [] := hw
  simp only [tagGet, wlp, wp_bind, wp_tryModuleGet]
  cases hlive : env.moduleLive with
  | false => simp [path, hlive, controlOf, htrace]
  | true =>
    have hget : controlOf { w with trace := w.trace ++ [.moduleGet true] } =
        [.moduleGet true] := by simp [controlOf, htrace]
    rw [if_neg (by simp)]
    by_cases hperm : permAmmisible permission ≠ 0
    · rw [if_pos hperm]
      simp [path, hlive, hperm, controlOf, htrace]
    · rw [if_neg hperm]
      by_cases hkey : keyAmmissible key ≠ 0
      · rw [if_pos hkey]
        simp [path, hlive, hkey, controlOf, htrace]
      · rw [if_neg hkey]
        simp only [path, hlive, hperm, hkey, or_self, if_false, Bool.not_true,
          Bool.false_eq_true]
        by_cases hcreate : command = cmdCreate
        · rw [if_pos hcreate, if_pos hcreate]
          exact tagGetCreate_path hget
        · rw [if_neg hcreate, if_neg hcreate]
          by_cases hopen : command = cmdOpen
          · rw [if_pos hopen, if_pos hopen]
            exact tagGetOpen_path hget
          · rw [if_neg hopen, if_neg hopen]
            exact hget

/-- `AWAKE_ALL` releases a write lock it has not taken. -/
theorem tagCtlAwakeAll_path {tag : Int32} (hget : controlOf w = [.moduleGet true]) :
    wlp (tagCtlAwakeAll tag) env w fun _ w' =>
      controlOf w' =
        match tagged w.mem tag with
        | none => readSection ++ [.modulePut]
        | some s =>
          if validServiceOperation env.caller s then
            readSection ++ [.searchLock .writeUnlock, .modulePut]
          else readSection ++ [.modulePut] := by
  have hread := control_section hget w.mem w.irq w.flags
  simp only [tagCtlAwakeAll, wlp, wp_bind, wp_ask, wp_searchLockIrqsave]
  refine wlp_findService (fun hnone => ?_) fun l s hsome hs => ?_
  · rw [tagged, show found _ w.mem = none from hnone]
    exact control_put hread
  · rw [tagged, show found _ w.mem = some s from hsome]
    simp only [wp_bind, wp_searchUnlockIrqrestore]
    refine wp_loadService_of hs ?_
    cases hvalid : validServiceOperation env.caller s with
    | false => exact control_put hread
    | true =>
      refine wp_bind.mpr (wp_imp (keeps_wakeUpLevels l _ env _) fun _ w₁ hw₁ => ?_)
      have htrace : control w₁.trace = readSection := hw₁.trans hread
      simp [controlOf, htrace]

/-- `REMOVE` keeps the read lock where it may not remove or somebody sleeps. -/
theorem tagCtlRemove_path {tag : Int32} (hget : controlOf w = [.moduleGet true]) :
    wlp (tagCtlRemove tag) env w fun _ w' =>
      controlOf w' =
        match tagged w.mem tag with
        | none => readSection ++ [.modulePut]
        | some s =>
          if !validServiceOperation env.caller s then
            [.moduleGet true, .searchLock .readLock, .modulePut]
          else if hasSleepers s then [.moduleGet true, .searchLock .readLock]
          else readSection ++ [.modulePut] := by
  have htrace : control w.trace = [.moduleGet true] := hget
  have hlocked : controlOf { w with irq := false, trace := w.trace ++ [.searchLock .readLock] } =
      [.moduleGet true, .searchLock .readLock] := by simp [controlOf, htrace]
  simp only [tagCtlRemove, wlp, wp_bind, wp_ask, wp_searchLockIrqsave]
  refine wlp_findService (fun hnone => ?_) fun l s hsome hs => ?_
  · rw [tagged, show found _ w.mem = none from hnone]
    exact control_put (control_section hget ..)
  · rw [tagged, show found _ w.mem = some s from hsome]
    simp only [wp_bind]
    refine wp_loadService_of hs ?_
    cases hvalid : validServiceOperation env.caller s with
    | false => exact control_put hlocked
    | true =>
      cases hsleep : hasSleepers s with
      | true => exact hlocked
      | false =>
        refine wp_bind.mpr (wp_imp (keeps_kmallocService env _) fun p w₁ hw₁ => ?_)
        refine wp_bind.mpr (wp_imp (keeps_storeService p _ env w₁) fun _ w₂ hw₂ => ?_)
        cases p with
        | none => trivial
        | some a =>
          simp only [wp_bind]
          refine wp_imp (keeps_rcuListInit a env w₂) fun _ w₃ hw₃ => ?_
          refine wp_imp (keeps_insertLevels a _ env w₃) fun _ w₄ hw₄ => ?_
          refine wp_imp (keeps_loadService _ env w₄) fun s' w₅ hw₅ => ?_
          refine wp_imp (keeps_slotIndex _ env w₅) fun i w₆ hw₆ => ?_
          simp only [loadSlot, storeSlot, wp_readMem, wp_modifyMem, wp_searchUnlockIrqrestore]
          refine wp_imp (keeps_kfreeService _ env _) fun _ w₇ hw₇ => ?_
          refine wp_imp (keeps_addServiceCount _ env w₇) fun _ w₈ hw₈ => ?_
          have hlate : control w₈.trace = [.moduleGet true, .searchLock .readLock] :=
            hw₈.trans (hw₇.trans (hw₆.trans (hw₅.trans (hw₄.trans (hw₃.trans (hw₂.trans
              (hw₁.trans hlocked)))))))
          exact control_put (control_unlock hlate ..)

/-- `tag_ctl` checks the tag and dispatches on the command. -/
theorem tagCtl_path {tag command : Int32} (hw : controlOf w = []) :
    wlp (tagCtl tag command) env w fun _ w' =>
      controlOf w' = path env w.mem (.tagCtl tag command) := by
  have htrace : control w.trace = [] := hw
  simp only [tagCtl, wlp, wp_bind, wp_tryModuleGet]
  cases hlive : env.moduleLive with
  | false => simp [path, hlive, controlOf, htrace]
  | true =>
    have hget : controlOf { w with trace := w.trace ++ [.moduleGet true] } =
        [.moduleGet true] := by simp [controlOf, htrace]
    rw [if_neg (by simp)]
    by_cases hneg : tag < 0
    · rw [if_pos hneg]
      simp [path, hlive, hneg, controlOf, htrace]
    · rw [if_neg hneg]
      simp only [path, hlive, hneg, if_false, Bool.not_true, Bool.false_eq_true]
      by_cases hawake : command = cmdAwakeAll
      · rw [if_pos hawake, if_pos hawake]
        exact tagCtlAwakeAll_path hget
      · rw [if_neg hawake, if_neg hawake]
        by_cases hremove : command = cmdRemove
        · rw [if_pos hremove, if_pos hremove]
          exact tagCtlRemove_path hget
        · rw [if_neg hremove, if_neg hremove]
          exact hget

/-- Every call that returns has executed its path. -/
theorem exec_path {answer : Answer} {w' : World} (h : c.exec env w = .ok (answer, w')) :
    control w'.trace = path env w.mem c := by
  have hstart : controlOf { w with trace := [] } = [] := rfl
  have hwlp : wlp c.routine env { w with trace := [] } fun _ w' =>
      controlOf w' = path env w.mem c := by
    cases c with
    | tagGet key command permission => exact wp_seq (tagGet_path hstart) fun _ _ hp => hp
    | tagSend tag level buffer size => exact wp_seq (tagSend_path hstart) fun _ _ hp => hp
    | tagReceive tag level bufferNull size =>
        exact wp_seq (tagReceive_path hstart) fun _ _ hp => hp
    | tagCtl tag command => exact wp_seq (tagCtl_path hstart) fun _ _ hp => hp
  exact wlp_iff.mp hwlp answer w' h

end TagMessaging.Serial
