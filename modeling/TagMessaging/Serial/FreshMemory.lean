/-
# TagMessaging.Serial.FreshMemory -- does anything depend on what fresh memory held?

`initService` takes its table from `kmalloc`, which does not clear it, and stores nothing in it; the
searches take a slot that is not `NULL` for a service. A record and its list are stored field by
field before anything reads them, and so is an element. Two executions of one sequence of requests,
with fresh blocks of different contents, are therefore the same to their callers exactly when both
tables happened to be all `NULL`.
-/
import TagMessaging.Serial.Blind
import TagMessaging.Device.Snapshot

namespace TagMessaging.Serial

open TagMessaging.Lib.Effect TagMessaging.Model TagMessaging.Device

/-- What fresh memory held when it was handed out: the table of slots, and the records and elements
allocated later. -/
structure Held where
  table : Fin minSysTagServices → Ptr
  stock : Stock

/-- The world after `initService`, which stores 0 in `serviceCount` and nothing in the table. -/
def initService (table : Fin minSysTagServices → Ptr) : World :=
  { bootWorld with mem := { emptyMem with tagServices := table } }

/-- What is asked of the module: a call, with what the kernel answers to it, or a `scan_Service`. -/
inductive Request where
  | call (c : Call) (env : Env)
  | scan (vzallocFails : Bool) (len : Nat)

/-- What comes back. -/
inductive Outcome where
  | answer (a : Answer)
  | snapshot (t : Scan)

/-- One request, with fresh blocks out of `stock`. -/
def Request.serve (stock : Stock) (w : World) : Request → Except Fault (Outcome × World)
  | .call c env => do
      let r ← c.exec (restock (fun _ => stock) env) w
      pure (.answer r.1, r.2)
  | .scan vzallocFails len => do
      let t ← scanService w.mem vzallocFails len
      pure (.snapshot t, w)

/-- What comes back of a sequence of requests, up to the first that does not return. -/
def outcomes (stock : Stock) : World → List Request → List (Except Fault Outcome)
  | _, [] => []
  | w, r :: rs =>
      match r.serve stock w with
      | .error x => [.error x]
      | .ok (o, w') => .ok o :: outcomes stock w' rs

/-- What the callers see of a sequence of requests that starts with `initService`. -/
def Held.run (f : Held) (rs : List Request) : List (Except Fault Outcome) :=
  outcomes f.stock (initService f.table) rs

/-- Some pointer led to a block that is not there. -/
def Wild (os : List (Except Fault Outcome)) : Prop := ∃ a, .error (.dangling a) ∈ os

/-- Whatever is asked, the two contents make no difference and no slot leads astray. -/
def Unaffected (f g : Held) : Prop :=
  ∀ rs, f.run rs = g.run rs ∧ ¬ Wild (f.run rs) ∧ ¬ Wild (g.run rs)

variable {f g : Held} {s s' : Stock} {w w' : World} {m m' : Mem} {P : Parts} {env : Env} {c : Call}
variable {rs : List Request} {len : Nat} {X B Z : Addr → Prop} {F : Env → Stock} {α β : Type}

/-! ## Snapshots -/

theorem MemNear.printSlots (h : MemNear F X B Z m m') (is : List (Fin minSysTagServices))
    (t : Scan) : Scan.printSlots m' len is t = Scan.printSlots m len is t := by
  induction is generalizing t with
  | nil => rfl
  | cons i is ih =>
    simp only [Scan.printSlots, h.slots]
    cases hi : m.tagServices i with
    | none => exact ih t
    | some a =>
      have hrecord : derefService m' a = derefService m a := by
        unfold derefService
        rw [h.records a (h.seated i a hi)]
      simp only [hrecord, ih]

theorem MemNear.scanService (h : MemNear F X B Z m m') (vzallocFails : Bool) :
    scanService m' vzallocFails len = scanService m vzallocFails len := by
  unfold Model.scanService
  simp only [h.printSlots]

/-- The computation stops for no other reason than a null pointer. -/
def OnlyNull (r : Except Fault α) : Prop := ∀ x, r = .error x → x = .nullPointer

theorem onlyNull_ok (a : α) : OnlyNull (.ok a) := fun _ h => by cases h

theorem OnlyNull.bind {r : Except Fault α} {k : α → Except Fault β} (h : OnlyNull r)
    (hk : ∀ a, OnlyNull (k a)) : OnlyNull (r >>= k) := by
  intro x hx
  cases r with
  | error y =>
    obtain rfl : y = x := Except.error.inj hx
    exact h y rfl
  | ok a => exact hk a x hx

theorem onlyNull_store (cs : List Char) (t : Scan) : OnlyNull (t.store cs) := by
  intro x hx
  unfold Scan.store at hx
  split at hx
  · split at hx
    · cases hx
    · exact (Except.error.inj hx).symm
  · cases hx

theorem onlyNull_print (format : String) (args : List Int) (t : Scan) :
    OnlyNull (t.print len format args) :=
  (onlyNull_store _ _).bind fun _ => onlyNull_ok _

theorem onlyNull_printLevels (s : TAGService) (levels : List (Fin levelDeep)) (t : Scan) :
    OnlyNull (Scan.printLevels len s levels t) := by
  induction levels generalizing t with
  | nil => exact onlyNull_ok t
  | cons level levels ih =>
    refine OnlyNull.bind ?_ ih
    exact (onlyNull_print _ _ _).bind fun _ => (onlyNull_print _ _ _).bind fun _ =>
      (onlyNull_print _ _ _).bind fun _ => onlyNull_print _ _ _

theorem onlyNull_printSlots (hlive : SlotsLive m) (is : List (Fin minSysTagServices)) (t : Scan) :
    OnlyNull (Scan.printSlots m len is t) := by
  induction is generalizing t with
  | nil => exact onlyNull_ok t
  | cons i is ih =>
    simp only [Scan.printSlots]
    cases hi : m.tagServices i with
    | none => exact ih t
    | some a =>
      obtain ⟨s, hs⟩ := Option.isSome_iff_exists.mp (hlive i a hi)
      refine OnlyNull.bind ?_ fun s => (onlyNull_printLevels s _ t).bind fun t =>
        (onlyNull_print _ _ t).bind ih
      simp only [derefService, hs]
      exact onlyNull_ok s

/-- A scan of a table whose slots lead to records meets no other pointer than its own. -/
theorem onlyNull_scanService (hlive : SlotsLive m) (vzallocFails : Bool) :
    OnlyNull (scanService m vzallocFails len) :=
  (onlyNull_printSlots hlive _ _).bind fun _ => (onlyNull_store _ _).bind fun _ => onlyNull_ok _

/-! ## One request -/

/-- From twin worlds a request is served alike. -/
theorem serve_twin (h : Twin (fun _ => s') (fun _ => False) (fun _ => False) Z w w')
    (r : Request) :
    (∃ x, r.serve s w = .error x ∧ r.serve s' w' = .error x) ∨
      ∃ o t t', r.serve s w = .ok (o, t) ∧ r.serve s' w' = .ok (o, t') ∧
        Twin (fun _ => s') (fun _ => False) (fun _ => False) Z t t' := by
  cases r with
  | call c env =>
    have hcall := twin_exec c (restock (fun _ => s) env) w w' h
    rcases hcall.cases with ⟨a, t, b, t', hret, hret', rfl, ht⟩ | ⟨x, hfault, hfault'⟩
    · have hret₁ : c.exec (restock (fun _ => s') env) w' = .ok (b, t') := hret'
      refine Or.inr ⟨.answer b, t, t', ?_, ?_, ht⟩
      · simp [Request.serve, hret, bind, Except.bind, pure, Except.pure]
      · simp [Request.serve, hret₁, bind, Except.bind, pure, Except.pure]
    · have hfault₁ : c.exec (restock (fun _ => s') env) w' = .error x := hfault'
      refine Or.inl ⟨x, ?_, ?_⟩
      · simp [Request.serve, hfault, bind, Except.bind]
      · simp [Request.serve, hfault₁, bind, Except.bind]
  | scan vzallocFails len =>
    obtain ⟨Z', hZ, hw⟩ := h
    have hscan : scanService w'.mem vzallocFails len = scanService w.mem vzallocFails len :=
      hw.mem.scanService vzallocFails
    cases ht : scanService w.mem vzallocFails len with
    | error x =>
      refine Or.inl ⟨x, ?_, ?_⟩
      · simp [Request.serve, ht, bind, Except.bind]
      · simp [Request.serve, hscan, ht, bind, Except.bind]
    | ok t =>
      refine Or.inr ⟨.snapshot t, w, w', ?_, ?_, Z', hZ, hw⟩
      · simp [Request.serve, ht, bind, Except.bind, pure, Except.pure]
      · simp [Request.serve, hscan, ht, bind, Except.bind, pure, Except.pure]

theorem outcomes_twin (h : Twin (fun _ => s') (fun _ => False) (fun _ => False) Z w w')
    (rs : List Request) : outcomes s w rs = outcomes s' w' rs := by
  induction rs generalizing w w' with
  | nil => rfl
  | cons r rs ih =>
    simp only [outcomes]
    rcases serve_twin (s := s) h r with ⟨x, hx, hx'⟩ | ⟨o, t, t', ho, ho', ht⟩
    · rw [hx, hx']
    · rw [ho, ho']
      exact congrArg _ (ih ht)

/-- Two tables that are all `NULL` start twin worlds. -/
theorem initService_twin :
    Twin (fun _ => s') (fun _ => False) (fun _ => False) (fun _ => False)
      (initService fun _ => none) (initService fun _ => none) := by
  refine ⟨fun _ => False, fun _ => id, ⟨rfl, rfl, fun _ => rfl, fun _ _ => rfl, ?_, ?_,
    ⟨fun _ _ => rfl, fun _ => rfl⟩, fun _ _ => rfl, rfl⟩, rfl, rfl, rfl⟩
  · intro i a hi
    simp [initService, bootWorld] at hi
  · exact fun _ _ hz => hz.elim

/-! ## Formed memory has no wild pointer -/

/-- A `tag_receive` that strays stops at the index. -/
theorem Formed.tagReceive_strays {tag level : Int32} {bufferNull : Bool} {size : Nat}
    (h : Formed m P) (hm : w.mem = m)
    (hstray : Strays m env (.tagReceive tag level bufferNull size)) :
    wp (tagReceive tag level bufferNull size) env w (fun _ _ => False)
      (fun x => ∃ i, x = .outOfRange i) := by
  obtain ⟨hlive, hsize, hbuffer, hneg, k, s', hfind, hservice, hvalid⟩ := hstray
  simp only [tagReceive, wp_bind, wp_ask, wp_tryModuleGet]
  rw [if_neg (by simp [hlive]), if_neg (by simp [hbuffer, hsize])]
  simp only [wp_bind, wp_searchLockIrqsave]
  refine h.wp_findService hm (fun hnone => by simp [hnone] at hfind) fun i l s hi hl hs _ => ?_
  simp only [wp_bind, wp_searchUnlockIrqrestore]
  have hs₁ : w.mem.services l = some s := by rw [hm, hs]
  refine wp_loadService_of hs₁ ?_
  obtain rfl : i = k := Option.some.inj (hi.symm.trans hfind)
  obtain rfl : s = s' := by simpa [slotService, hl, hs] using hservice
  rw [if_neg (by simp [hvalid]), if_neg (mt levelTooDeep_iff.mp (by simp [levelDeep]; omega))]
  simp only [rcuListSearch, wp_bind]
  refine wp_loadList_of hs₁ ?_
  rw [levelIndex, dif_neg (by omega)]
  exact ⟨_, rfl⟩

/-- A call on formed memory leaves formed memory or stops at a null pointer or an index. -/
theorem Formed.exec_tame (h : Formed w.mem P) (c : Call) (env : Env) :
    wp c.exec env w (fun _ w' => ∃ P', Formed w'.mem P')
      (fun x => x = .nullPointer ∨ ∃ i, x = .outOfRange i) := by
  by_cases hstray : Strays w.mem env c
  · cases c with
    | tagReceive tag level bufferNull size =>
      have hwp := h.tagReceive_strays (w := { w with trace := [] }) rfl hstray
      have hcall : wp (Call.tagReceive tag level bufferNull size).routine env
          { w with trace := [] } (fun _ _ => False) (fun x => ∃ i, x = .outOfRange i) :=
        wp_seq hwp fun _ _ hno => hno.elim
      exact wp_mono hcall (fun _ _ => False.elim) fun _ hx => Or.inr hx
    | tagGet | tagSend | tagCtl => exact hstray.elim
  · refine wp_mono (exec_change h hstray) ?_ fun _ hx => Or.inl hx
    rintro a w' ⟨P', hchange⟩
    exact ⟨P', hchange.formed h⟩

theorem Formed.slotsLive (h : Formed m P) : SlotsLive m := by
  intro i a hi
  obtain ⟨s, hs, _⟩ := h.record hi
  simp [hs]

theorem serve_tame (h : Formed w.mem P) (r : Request) :
    (∃ x, r.serve s w = .error x ∧ (x = .nullPointer ∨ ∃ i, x = .outOfRange i)) ∨
      ∃ o w' P', r.serve s w = .ok (o, w') ∧ Formed w'.mem P' := by
  cases r with
  | call c env =>
    have hwp := h.exec_tame c (restock (fun _ => s) env)
    unfold wp at hwp
    cases hret : c.exec (restock (fun _ => s) env) w with
    | error x =>
      rw [hret] at hwp
      exact Or.inl ⟨x, by simp [Request.serve, hret, bind, Except.bind], hwp⟩
    | ok r =>
      rw [hret] at hwp
      obtain ⟨P', hP'⟩ := hwp
      exact Or.inr ⟨.answer r.1, r.2, P',
        by simp [Request.serve, hret, bind, Except.bind, pure, Except.pure], hP'⟩
  | scan vzallocFails len =>
    cases ht : scanService w.mem vzallocFails len with
    | error x =>
      exact Or.inl ⟨x, by simp [Request.serve, ht, bind, Except.bind],
        Or.inl (onlyNull_scanService h.slotsLive vzallocFails x ht)⟩
    | ok t =>
      exact Or.inr ⟨.snapshot t, w, P,
        by simp [Request.serve, ht, bind, Except.bind, pure, Except.pure], h⟩

theorem not_wild_of_formed (h : Formed w.mem P) (rs : List Request) :
    ¬ Wild (outcomes s w rs) := by
  induction rs generalizing w P with
  | nil =>
    rintro ⟨a, ha⟩
    simp [outcomes] at ha
  | cons r rs ih =>
    rintro ⟨a, ha⟩
    simp only [outcomes] at ha
    rcases serve_tame (s := s) h r with ⟨x, hx, htame⟩ | ⟨o, w', P', ho, hP'⟩
    · rw [hx, List.mem_singleton, Except.error.injEq] at ha
      subst ha
      simp at htame
    · rw [ho, List.mem_cons] at ha
      rcases ha with hhead | htail
      · cases hhead
      · exact ih hP' ⟨a, htail⟩

/-! ## A slot that was not `NULL` -/

/-- With no record there, a search stops at the first slot that is not `NULL`. -/
theorem findService_wild (test : TAGService → Bool) (is : List (Fin minSysTagServices))
    (hempty : ∀ a, w.mem.services a = none) (hslot : ∃ i ∈ is, w.mem.tagServices i ≠ none) :
    wp (findService test is) env w (fun _ _ => False)
      (fun x => ∃ i a, w.mem.tagServices i = some a ∧ x = .dangling a) := by
  induction is with
  | nil =>
    obtain ⟨i, hi, _⟩ := hslot
    simp at hi
  | cons i is ih =>
    simp only [findService, loadSlot, wp_bind, wp_readMem]
    cases hi : w.mem.tagServices i with
    | none =>
      obtain ⟨j, hj, hne⟩ := hslot
      rcases List.mem_cons.mp hj with rfl | hj
      · exact absurd hi hne
      · exact ih ⟨j, hj, hne⟩
    | some a =>
      show wp (loadService (some a) >>= _) env w _ _
      refine wp_bind.mpr (wp_loadService.mpr ⟨fun _ => ⟨i, a, hi, rfl⟩, fun s hs => ?_⟩)
      simp [hempty a] at hs

/-- The call that shows it: a `tag_get` that looks for the key 5. -/
def probe : Request := .call (.tagGet 5 cmdOpen openRoom) (callerEnv 10)

theorem probe_wild (hslot : ∃ i, f.table i ≠ none) :
    ∃ i a, f.table i = some a ∧ f.run [probe] = [.error (.dangling a)] := by
  obtain ⟨i, hi⟩ := hslot
  have hwp : wp (Call.tagGet 5 cmdOpen openRoom).exec
      (restock (fun _ => f.stock) (callerEnv 10)) (initService f.table) (fun _ _ => False)
      (fun x => ∃ i a, f.table i = some a ∧ x = .dangling a) := by
    show wp (Call.tagGet 5 cmdOpen openRoom).routine _ { initService f.table with trace := [] } _ _
    refine wp_seq (P := fun _ _ => False) ?_ fun _ _ => False.elim
    simp only [tagGet, wp_bind, wp_tryModuleGet]
    rw [if_neg (by simp [restock, callerEnv]), if_neg (by decide), if_neg (by decide),
      if_neg (by decide), if_pos trivial]
    simp only [tagGetOpen, wp_bind, wp_ask]
    rw [if_neg (by decide)]
    simp only [wp_bind, wp_searchLockIrqsave]
    exact wp_imp (findService_wild _ _ (fun _ => rfl) ⟨i, List.mem_finRange i, hi⟩) fun _ _ =>
      False.elim
  unfold wp at hwp
  split at hwp
  · exact hwp.elim
  · next x hfault =>
    obtain ⟨j, a, hj, rfl⟩ := hwp
    refine ⟨j, a, hj, ?_⟩
    have hserve : probe.serve f.stock (initService f.table) = .error (.dangling a) := by
      simp [probe, Request.serve, hfault, bind, Except.bind]
    simp [Held.run, outcomes, hserve]

/-! ## The exact condition -/

/-- **Fresh memory makes no difference exactly when both tables were all `NULL`.** -/
theorem unaffected_iff (f g : Held) :
    Unaffected f g ↔ (∀ i, f.table i = none) ∧ ∀ i, g.table i = none := by
  constructor
  · intro h
    obtain ⟨_, hf, hg⟩ := h [probe]
    refine ⟨fun i => ?_, fun i => ?_⟩
    · by_contra hi
      obtain ⟨_, a, _, hrun⟩ := probe_wild ⟨i, hi⟩
      exact hf ⟨a, by simp [hrun]⟩
    · by_contra hi
      obtain ⟨_, a, _, hrun⟩ := probe_wild ⟨i, hi⟩
      exact hg ⟨a, by simp [hrun]⟩
  · rintro ⟨hf, hg⟩ rs
    have hformed : Formed (initService fun _ => none).mem ⟨fun _ => [], fun _ => []⟩ :=
      emptyMem_formed
    unfold Held.run
    rw [funext hf, funext hg]
    exact ⟨outcomes_twin initService_twin rs, not_wild_of_formed hformed rs,
      not_wild_of_formed hformed rs⟩

/-- Fresh memory that was clear, and a table whose slot 0 was not. -/
def clear : Held where
  table := fun _ => none
  stock := ownStock (callerEnv 10)

def unclear : Held := { clear with table := Function.update clear.table 0 (some 7) }

/-- The search answers that there is no such service, or follows the pointer 7. -/
theorem unaffected_fails : ¬ Unaffected clear unclear ∧
    clear.run [probe] = [.ok (.answer (.ofRet Errno.ENOMSG.neg))] ∧
    unclear.run [probe] = [.error (.dangling 7)] := by
  have hclear : clear.run [probe] = [.ok (.answer (.ofRet Errno.ENOMSG.neg))] := by
    obtain ⟨w', hret, _⟩ := exec_returns (w := bootWorld) (.tagGet 5 cmdOpen openRoom)
      (callerEnv 10) emptyMem_rep id fun _ => rfl
    have hserve : probe.serve clear.stock (initService clear.table) =
        .ok (.answer (.ofRet Errno.ENOMSG.neg), w') := by
      show ((Call.tagGet 5 cmdOpen openRoom).exec (callerEnv 10) bootWorld >>= fun r =>
        pure (Outcome.answer r.1, r.2)) = _
      rw [hret]
      rfl
    simp [Held.run, outcomes, hserve]
  have hunclear : unclear.run [probe] = [.error (.dangling 7)] := by
    obtain ⟨i, a, hi, hrun⟩ := probe_wild (f := unclear) ⟨0, by simp [unclear]⟩
    obtain ⟨-, rfl⟩ : i = 0 ∧ 7 = a := by
      by_cases hzero : i = 0
      · exact ⟨hzero, by simpa [unclear, hzero] using hi⟩
      · simp [unclear, clear, hzero] at hi
    exact hrun
  refine ⟨fun h => ?_, hclear, hunclear⟩
  have hsame := (h [probe]).1
  rw [hclear, hunclear] at hsame
  cases hsame

end TagMessaging.Serial
