/-
# TagMessaging.Serial.Runs -- sequences of calls, one at a time

The system whose steps are calls that return, and the system of the registry. Every run of the
first that stays inside its arrays is a run of the second, with the same answers; so the table
keeps its shape, and every level of every service holds the last message sent to it.

A negative level passes the bound check of `tag_receive`, whose comparison is signed, and indexes
the arrays of the list from below. `ready` starts 206 words into the record on a 64-bit machine, so
`ready[-205]` is the record's own `tag`. C gives such a store no meaning; here any memory and any
answer may follow it.
-/
import TagMessaging.Serial.Refinement
import TagMessaging.Lib.Transition

namespace TagMessaging.Serial

open TagMessaging.Lib.Effect TagMessaging.Lib.Transition TagMessaging.Lib.Tally TagMessaging.Model

/-- A call that was made and what it answered. -/
structure Done where
  call : Call
  env : Env
  answer : Answer

/-- Calls run one at a time, from a table of `NULL` slots. -/
def serial : System World Done where
  init := fun w => w.mem = emptyMem
  step := fun w d w' =>
    d.call.exec d.env w = .ok (d.answer, w') ∨ ∃ i, d.call.exec d.env w = .error (.outOfRange i)

/-- The registry, asked the same calls. -/
def registry : System Registry Done where
  init := fun R => R = Registry.empty
  step := fun R d R' => R.step d.env d.call = (d.answer, R')

variable {R : Registry} {w w' : World} {c : Call} {env : Env} {d : Done} {ls : List Done}
variable {m : Mem} {E : Fault → Prop}

/-! ## One call -/

theorem exec_wp (h : Rep w.mem R) (hstray : ¬ Strays w.mem env c) (hok : Creates c → AllocOk env)
    (hE : ¬ AllocOk env → E .nullPointer) :
    wp c.routine env { w with trace := [] }
      (fun answer w' => Simulates R env c answer w'.mem) E :=
  routine_refines h hstray hok hE

/-- A step of the system from a memory that holds a registry. -/
theorem step_simulates (h : Rep w.mem R) (hstray : ¬ Strays w.mem d.env d.call)
    (hok : Creates d.call → AllocOk d.env) (hstep : serial.step w d w') :
    Simulates R d.env d.call d.answer w'.mem := by
  have hwp := exec_wp (E := fun x => x = .nullPointer) h hstray hok fun _ => rfl
  rcases hstep with hret | ⟨i, hfault⟩
  · rw [Call.exec] at hret
    have hsim := wp_of_ok hret hwp
    exact hsim
  · -- an index outside its array needs a stray level
    rw [Call.exec] at hfault
    rw [wp, hfault] at hwp
    simp at hwp

/-- With memory to spare, a call that does not stray returns, and answers as the registry does. -/
theorem exec_returns (c : Call) (env : Env) (h : Rep w.mem R) (hstray : ¬ Strays w.mem env c)
    (hok : AllocOk env) :
    ∃ w', c.exec env w = .ok ((R.step env c).1, w') ∧ Rep w'.mem (R.step env c).2 := by
  obtain ⟨answer, w', hret, hsim⟩ :=
    exists_ok_of_wp (exec_wp (E := fun _ => False) h hstray (fun _ => hok) fun hnot => hnot hok)
      fun _ => id
  rcases hsim with ⟨rfl, hrep⟩ | ⟨_, r, _, hnot, _⟩
  · exact ⟨w', hret, hrep⟩
  · exact absurd hok hnot

theorem tagReceive_strays {tag level : Int32} {bufferNull : Bool} {size : Nat} {m : Mem}
    {cells : Fin minSysTagServices → List Addr} (h : RepAt m R cells) (hm : w.mem = m)
    (hstray : Strays m env (.tagReceive tag level bufferNull size)) :
    wp (tagReceive tag level bufferNull size) env w (fun _ _ => False)
      (fun x => ∃ i, x = .outOfRange i) := by
  subst hm
  obtain ⟨hlive, hsize, hbuffer, hneg, k, s', hfind, hservice, hvalid⟩ := hstray
  rw [h.findSlot_tag] at hfind
  simp only [tagReceive, wp_bind, wp_ask, wp_tryModuleGet]
  rw [if_neg (by simp [hlive]), if_neg (by simp [hbuffer, hsize])]
  simp only [wp_bind, wp_searchLockIrqsave]
  refine wp_searchTAGServiceWithTag h rfl (fun hnone => by simp [hnone] at hfind)
    fun i room l s hroom hi hl hs hd _ => ?_
  simp only [wp_bind, wp_searchUnlockIrqrestore]
  refine wp_loadService_of hs ?_
  obtain rfl : i = k := by simpa [hroom] using hfind
  obtain rfl : s = s' := by simpa [slotService, hl, hs] using hservice
  rw [if_neg (by simp [hvalid]), if_neg (mt levelTooDeep_iff.mp (by simp [levelDeep]; omega))]
  simp only [rcuListSearch, wp_bind]
  refine wp_loadList_of hs ?_
  rw [levelIndex, dif_neg (by omega)]
  exact ⟨_, rfl⟩

/-- A stray call leaves the arrays. -/
theorem exec_strays (h : Rep w.mem R) (hstray : Strays w.mem env c) :
    ∃ i, c.exec env w = .error (.outOfRange i) := by
  obtain ⟨cells, h⟩ := h
  cases c with
  | tagReceive tag level bufferNull size =>
      have hwp := tagReceive_strays (w := { w with trace := [] }) h rfl hstray
      have hcall : wp (Call.tagReceive tag level bufferNull size).routine env
          { w with trace := [] } (fun _ _ => False) (fun x => ∃ i, x = .outOfRange i) :=
        wp_seq hwp fun _ _ hno => hno.elim
      rw [Call.exec]
      unfold wp at hcall
      split at hcall
      · exact hcall.elim
      · obtain ⟨i, rfl⟩ := hcall
        exact ⟨i, by assumption⟩
  | tagGet | tagSend | tagCtl => exact hstray.elim

/-! ## Runs of the registry are runs of the code -/

/-- A step with memory to spare that stays inside the arrays. -/
def InArrays (w : World) (d : Done) : Prop := AllocOk d.env ∧ ¬ Strays w.mem d.env d.call

/-- What the registry answers to a sequence of calls, with the state it ends in. -/
def Registry.answers (R : Registry) : List (Call × Env) → List Done × Registry
  | [] => ([], R)
  | (c, env) :: cs =>
      let r := R.step env c
      let rest := Registry.answers r.2 cs
      (⟨c, env, r.1⟩ :: rest.1, rest.2)

/-- Every sequence of calls that cannot stray is a run. -/
theorem exists_run (ok : World → Done → Prop) (h : Run serial ok ls w) (hrep : Rep w.mem R)
    (cs : List (Call × Env))
    (hcs : ∀ x ∈ cs, AllocOk x.2 ∧ (∀ m, ¬ Strays m x.2 x.1) ∧ ∀ w a, ok w ⟨x.1, x.2, a⟩) :
    ∃ w', Run serial ok (ls ++ (R.answers cs).1) w' ∧ Rep w'.mem (R.answers cs).2 := by
  induction cs generalizing ls w R with
  | nil => exact ⟨w, by simpa [Registry.answers] using h, hrep⟩
  | cons x cs ih =>
      obtain ⟨c, env⟩ := x
      obtain ⟨halloc, hstray, hok⟩ := hcs (c, env) List.mem_cons_self
      obtain ⟨w₁, hret, hrep₁⟩ := exec_returns c env hrep (hstray w.mem) halloc
      have hrun : Run serial ok (ls ++ [⟨c, env, (R.step env c).1⟩]) w₁ :=
        h.step (hok w _) (Or.inl hret)
      obtain ⟨w', hrun', hrep'⟩ := ih hrun hrep₁ fun y hy => hcs y (List.mem_cons_of_mem _ hy)
      exact ⟨w', by simpa [Registry.answers] using hrun', hrep'⟩

/-- A caller with thread group `tgid` whose call meets no failure. -/
def callerEnv (tgid : Int32) : Env where
  caller := { tgid := tgid, isRoot := false }
  moduleLive := true
  notCopied := 0
  waitEnd := .woken
  notSent := []
  kmallocFails := fun _ => false
  staleService := fun _ =>
    { key := 0, tag := 0, uidCreator := 0, perm := 0,
      levels :=
        { epoch := 0, standing := fun _ => 0, head := none, readerQueue := fun _ => 0,
          ready := fun _ => 0, waiters := fun _ => 0 } }
  staleElement := fun _ => { next := none, level := 0, message := none, size := 0 }

/-- The world before any call. -/
def bootWorld : World := { mem := emptyMem, irq := true, flags := true, trace := [] }

/-- Two callers make a room each. -/
def twoRooms : List (Call × Env) :=
  [(.tagGet 5 cmdCreate privateRoom, callerEnv 10), (.tagGet 6 cmdCreate openRoom, callerEnv 11)]

theorem twoRooms_run : ∃ w, Run serial InArrays (Registry.empty.answers twoRooms).1 w ∧
    Rep w.mem (Registry.empty.answers twoRooms).2 := by
  refine exists_run _ (w := bootWorld) (.start rfl) emptyMem_rep twoRooms fun x hx => ?_
  simp only [twoRooms, List.mem_cons, List.not_mem_nil, or_false] at hx
  rcases hx with rfl | rfl <;> exact ⟨fun _ => rfl, fun _ => id, fun _ _ => ⟨fun _ => rfl, id⟩⟩

/-! ## The table -/

/-- The shape of the table: each service sits in the slot its tag names, a public key is live once,
and the counter counts the slots in use. -/
structure Shaped (m : Mem) : Prop where
  tag : ∀ i l, m.tagServices i = some l → ∃ s, m.services l = some s ∧ s.tag = UInt32.ofNat i
  unique : ∀ i j s s', slotService m i = some s → slotService m j = some s' → s.key = s'.key →
    s.key ≠ tagIpcPrivate → i = j
  count : m.serviceCount.toNat = (Finset.univ.filter fun i => (m.tagServices i).isSome).card

theorem live_eq_card : R.live = (Finset.univ.filter fun i => (R i).isSome).card := by
  simp only [Registry.live, tally, Registry.occupied, Finset.sum_boole]

theorem Rep.shaped (h : Rep m R) : Shaped m := by
  obtain ⟨cells, h⟩ := h
  have hlive : ∀ i, (m.tagServices i).isSome = (R i).isSome := fun i => by
    cases hi : R i with
    | none => simp [(h.vacant i hi).1]
    | some room =>
        obtain ⟨l, hl, _⟩ := h.slot i room hi
        simp [hl]
  have hroom : ∀ i s, slotService m i = some s → ∃ room, R i = some room ∧ Describes room i s := by
    intro i s hs
    obtain ⟨l, hl, hls⟩ := Option.bind_eq_some_iff.mp hs
    obtain ⟨room, s', hi, hs', hd, _⟩ := h.intact hl
    obtain rfl := Option.some.inj (hls.symm.trans hs')
    exact ⟨room, hi, hd⟩
  refine ⟨fun i l hl => ?_, fun i j s s' hs hs' hkey hpub => ?_, ?_⟩
  · obtain ⟨_, s, _, hs, hd, _⟩ := h.intact hl
    exact ⟨s, hs, hd.tag⟩
  · obtain ⟨room, hi, hd⟩ := hroom i s hs
    obtain ⟨room', hj, hd'⟩ := hroom j s' hs'
    rw [hd.key, hd'.key] at hkey
    rw [hd.key] at hpub
    exact h.sound.unique i j room room' hi hj hkey hpub
  · have hcount := h.count
    rw [live_eq_card] at hcount
    simp only [hlive]
    exact_mod_cast hcount

/-- **The calls refine the registry.** In every run that stays inside its arrays the table keeps
its shape, the answers are those of the registry asked the same calls, and the next call returns
unless it strays. -/
theorem registry_refinement (h : Run serial InArrays ls w) :
    Shaped w.mem ∧ (∃ R, Run registry Always ls R ∧ Rep w.mem R) ∧
      ∀ c env, AllocOk env →
        ((∃ answer w', c.exec env w = .ok (answer, w')) ↔ ¬ Strays w.mem env c) := by
  obtain ⟨R, hrun, hrep⟩ := h.simulate (T := registry) (Q := fun w R => Rep w.mem R)
    (fun w hw => ⟨Registry.empty, rfl, hw ▸ emptyMem_rep⟩) fun w d w' R hrep hok hstep => by
      rcases step_simulates hrep hok.2 (fun _ => hok.1) hstep with
        ⟨hans, hrep'⟩ | ⟨_, _, _, hnot, _⟩
      · exact ⟨_, Prod.ext hans.symm rfl, hrep'⟩
      · exact absurd hok.1 hnot
  refine ⟨hrep.shaped, ⟨R, hrun, hrep⟩, fun c env hok => ⟨fun hret hstray => ?_, fun hstray => ?_⟩⟩
  · obtain ⟨answer, w', hret⟩ := hret
    obtain ⟨i, hfault⟩ := exec_strays hrep hstray
    simp [hret] at hfault
  · obtain ⟨w', hret, _⟩ := exec_returns c env hrep hstray hok
    exact ⟨_, w', hret⟩

theorem registry_refinement_twoRooms : ∃ w,
    Run serial InArrays (Registry.empty.answers twoRooms).1 w ∧ Shaped w.mem ∧
      (Registry.empty.answers twoRooms).1.map Done.answer = [.ofRet 0, .ofRet 1] := by
  obtain ⟨w, hrun, _⟩ := twoRooms_run
  exact ⟨w, hrun, (registry_refinement hrun).1, by decide⟩

/-- Memory after a store of 0 in the `tag` of the record at `l`. -/
def zeroTag (m : Mem) (l : Addr) : Mem :=
  { m with services := Function.update m.services l ((m.services l).map ({ · with tag := 0 })) }

/-- A receive on level -205 of tag 1 leaves a service in slot 1 whose tag is 0. -/
theorem registry_stray : ∃ ls w, Run serial (fun _ d => AllocOk d.env) ls w ∧
    ls.map Done.call = [.tagGet 5 cmdCreate privateRoom, .tagGet 6 cmdCreate openRoom,
      .tagReceive 1 (-205) false 16] ∧ ¬ Shaped w.mem := by
  obtain ⟨w, hrun, hrep⟩ := twoRooms_run
  obtain ⟨cells, h⟩ := hrep
  set R := (Registry.empty.answers twoRooms).2
  set i : Fin minSysTagServices := ⟨1, by decide⟩ with hi
  have hroom : R.roomOf 1 = some (i, ⟨6, 11, openRoom, fun _ => []⟩) := rfl
  obtain ⟨l, hl, hslot⟩ := h.slot i _ rfl
  obtain ⟨s, hs, hd⟩ := hslot.record
  have hstray : Strays w.mem (callerEnv 12) (.tagReceive 1 (-205) false 16) := by
    refine ⟨rfl, by decide, rfl, by decide, i, s, ?_, by simp [slotService, hl, hs], ?_⟩
    · rw [h.findSlot_tag, hroom]
      rfl
    · rw [hd.validServiceOperation _ (Or.inl rfl)]
      rfl
  have hstep : serial.step w ⟨.tagReceive 1 (-205) false 16, callerEnv 12, .ofRet 0⟩
      (withMem w (zeroTag w.mem l)) := Or.inr (exec_strays ⟨cells, h⟩ hstray)
  refine ⟨_, _, (hrun.weaken fun _ _ => And.left).step (fun _ => rfl) hstep, rfl, fun hshape => ?_⟩
  obtain ⟨s', hs', htag⟩ := hshape.tag i l hl
  obtain rfl : { s with tag := 0 } = s' := by simpa [zeroTag, hs] using hs'
  have hne : (0 : UInt32) ≠ UInt32.ofNat i := by decide
  exact hne htag

end TagMessaging.Serial
