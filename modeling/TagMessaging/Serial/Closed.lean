/-
# TagMessaging.Serial.Closed -- private rooms are closed to strangers

From any state that the calls reach, strangers to a private service make calls of their own, as many
as they like. The record of the service and its messages stay as they are, each call that names the
service is refused, and the strangers learn nothing: from a state that differs only in the contents
of its messages they get the same answers and the same bytes.
-/
import TagMessaging.Serial.Execution
import TagMessaging.Serial.Blind
import TagMessaging.Serial.Store

namespace TagMessaging.Serial

open TagMessaging.Lib.Effect TagMessaging.Lib.Segment TagMessaging.Lib.Transition
open TagMessaging.Model

/-! ## What belongs to a service -/

/-- The element is on the list of the service. -/
def OnList (m : Mem) (s : TAGService) (a : Addr) : Prop :=
  ∃ xs es, ListRep m s.levels.head xs es ∧ a ∈ xs

/-- The buffer holds one of its messages. -/
def MessageOf (m : Mem) (s : TAGService) (b : Addr) : Prop :=
  ∃ a e, OnList m s a ∧ m.elements a = some e ∧ e.message = some b

/-- The message of a level, as `rcu_list_search` finds it. -/
def messageOf (m : Mem) (s : TAGService) (level : Int32) : Option (List UInt8) :=
  match findLevel m.elements level m.brk s.levels.head with
  | .ok (some a) =>
    (m.elements a).bind fun e => if e.size = 0 then some [] else e.message.bind m.buffers
  | _ => none

/-- The state `v` differs from `w` only in the contents of the messages of `s`. -/
def SameButMessages (s : TAGService) (w v : World) : Prop :=
  Alike (OnList w.mem s) (MessageOf w.mem s) w v

/-- Calls run one at a time, from the state `w₀`. -/
def serialFrom (w₀ : World) : System World Done where
  init := fun w => w = w₀
  step := serial.step

/-- A call of someone who is neither root nor the creator of `s`, on a level in 0 to 31. -/
def ByStranger (s : TAGService) (_ : World) (d : Done) : Prop :=
  d.env.caller.isRoot = false ∧ d.env.caller.tgid ≠ s.uidCreator ∧ InLevels d.call

variable {X B X' B' : Addr → Prop} {env : Env} {c : Call} {w w' v v' : World} {m m' : Mem}
variable {P P' : Parts} {i : Fin minSysTagServices} {l a b : Addr} {s : TAGService}
variable {tag level : Int32} {size : Nat} {xs : List Addr} {es : List Entry} {ls : List Done}
variable {d : Done}

theorem messageOf_eq (h : ListRep m s.levels.head xs es) (hf : FreshAbove m) (level : Int32) :
    messageOf m s level = (es.find? (hasLevel level)).bind fun x =>
      if x.size = 0 then some [] else x.message.bind m.buffers := by
  obtain ⟨p, hp, hfound⟩ := h.findLevel hf level
  cases hfirst : es.find? (hasLevel level) with
  | none =>
    obtain rfl : p = none := by simpa [hfirst] using hfound
    simp [messageOf, hp]
  | some x =>
    simp only [hfirst] at hfound
    obtain ⟨a, _, rfl, hentry⟩ := hfound
    obtain ⟨e, he, rfl⟩ := Option.map_eq_some_iff.mp hentry
    simp [messageOf, hp, he, Element.entry]

/-- The list of a service in a slot is made of the slot's cells. -/
theorem Formed.mem_cells (h : Formed m P) (hi : m.tagServices i = some l)
    (hs : m.services l = some s) (ha : OnList m s a) : a ∈ P.cells i := by
  obtain ⟨s₁, es, hs₁, hrep, _⟩ := (h.seat i l hi).record
  obtain rfl := Option.some.inj (hs.symm.trans hs₁)
  obtain ⟨xs, es', hrep', hmem⟩ := ha
  exact hrep'.seg.unique hrep.seg ▸ hmem

theorem Formed.mem_bufs (h : Formed m P) (hi : m.tagServices i = some l)
    (hs : m.services l = some s) (hb : MessageOf m s b) : b ∈ P.bufs i := by
  obtain ⟨a, e, ha, he, hmsg⟩ := hb
  have hcell := h.mem_cells hi hs ha
  obtain ⟨s₁, es, hs₁, hrep, _, hbs⟩ := (h.seat i l hi).record
  have hentry : some e.entry ∈ es.map some := by
    rw [← hrep.entries]
    exact List.mem_map.mpr ⟨a, hcell, by simp [entryAt, he]⟩
  rw [← hbs]
  exact List.mem_filterMap.mpr ⟨e.entry, by simpa using hentry, hmsg⟩

theorem Alike.mono (h : Alike X B w v) (hX : ∀ a, X a → X' a) (hB : ∀ b, B b → B' b) :
    Alike X' B' w v :=
  ⟨⟨h.mem.slots, h.mem.count, h.mem.services,
    ⟨fun a ha => h.mem.elements.outside a fun hx => ha (hX a hx), h.mem.elements.skeleton⟩,
    fun b hb => h.mem.buffers b fun hx => hb (hB b hx), h.mem.brk⟩, h.irq, h.flags, h.trace⟩

/-! ## `tag_receive` by a stranger -/

/-- The elements and messages it reads are those of another slot. -/
theorem couple_tagReceive {bufferNull : Bool} (h : Formed w.mem P)
    (hi : w.mem.tagServices i = some l) (hs : w.mem.services l = some s)
    (hclosed : validServiceOperation env.caller s = false) (hlevel : InLevel level)
    (hw : Alike (· ∈ P.cells i) (· ∈ P.bufs i) w v) :
    Couple env (tagReceive tag level bufferNull size) w (tagReceive tag level bufferNull size) v
      fun x t y t' => x = y ∧ Alike (· ∈ P.cells i) (· ∈ P.bufs i) t t' := by
  refine couple_bind_of_ok rfl rfl ?_
  refine couple_bind ((blind_tryModuleGet env w v hw).and_wlp
    (P := fun _ (t : World) => t.mem = w.mem) rfl) ?_
  rintro live w₁ _ v₁ ⟨hm₁, rfl, hw₁⟩
  split
  · exact ⟨rfl, hw₁⟩
  · split
    · exact blind_put _ env w₁ v₁ hw₁
    · refine couple_bind ((blind_searchLockIrqsave .readLock env w₁ v₁ hw₁).and_wlp
        (P := fun _ (t : World) => t.mem = w.mem) hm₁) ?_
      rintro flags w₂ _ v₂ ⟨hm₂, rfl, hw₂⟩
      refine couple_bind ((blind_findService _ _ env w₂ v₂ hw₂).and_wlp
        (P := fun p (t : World) => t.mem = w.mem ∧ ∀ k, p = some k →
          ∃ j s', w.mem.tagServices j = some k ∧ w.mem.services k = some s')
        (h.wp_findService hm₂ (fun _ => ⟨hm₂, by simp⟩) fun j k s' _ hj hs' _ =>
          ⟨hm₂, fun k' hk => ⟨j, s', Option.some.inj hk ▸ hj, Option.some.inj hk ▸ hs'⟩⟩)) ?_
      rintro p w₃ _ v₃ ⟨⟨hm₃, hfound⟩, rfl, hw₃⟩
      cases p with
      | none =>
        exact blind_bind (blind_searchUnlockIrqrestore _ _) (fun _ => blind_put _) env w₃ v₃ hw₃
      | some k =>
        obtain ⟨j, s', hj, hs'⟩ := hfound k rfl
        refine couple_bind ((blind_searchUnlockIrqrestore _ _ env w₃ v₃ hw₃).and_wlp
          (P := fun _ (t : World) => t.mem = w.mem) hm₃) ?_
        rintro _ w₄ _ v₄ ⟨hm₄, _, hw₄⟩
        have hload : w₄.mem.services k = some s' := by rw [hm₄, hs']
        refine couple_bind_of_ok (loadService_eq hload)
          (loadService_eq (by rw [hw₄.mem.services, hload])) ?_
        split
        · exact blind_put _ env w₄ v₄ hw₄
        · next hvalid =>
          split
          · exact blind_put _ env w₄ v₄ hw₄
          · -- the service found is open to the caller, so it is in another slot
            have hji : j ≠ i := by
              rintro rfl
              obtain rfl := Option.some.inj (hj.symm.trans hi)
              obtain rfl := Option.some.inj (hs'.symm.trans hs)
              simp [hclosed] at hvalid
            refine couple_bind ((blind_rcuListSearch k level env w₄ v₄ hw₄).and_wlp
              (h.wp_search hm₄ hj hs' hlevel)) ?_
            rintro found w₅ _ v₅ ⟨⟨_, hcell⟩, rfl, hw₅⟩
            cases found with
            | none => exact blind_put _ env w₅ v₅ hw₅
            | some a =>
              obtain ⟨ha, e, he, hbufs⟩ := hcell a rfl
              have he' : v₅.mem.elements a = some e := by
                rw [hw₅.mem.elements.outside a (h.apart j i hji a ha), he]
              refine couple_bind_of_ok rfl rfl ?_
              show Couple _ (Action.lift (derefElement w₅.mem.elements (some a)) >>= _) w₅
                (Action.lift (derefElement v₅.mem.elements (some a)) >>= _) v₅ _
              rw [derefElement_some he, derefElement_some he']
              refine couple_bind_of_ok rfl rfl ?_
              exact blind_bind (blind_loadMessage fun b hb => h.owned j i hji b (hbufs b hb))
                (fun _ => blind_bind (blind_emit _) fun _ => blind_put _) env w₅ v₅ hw₅

/-- Any call by a stranger. -/
theorem couple_exec (h : Formed w.mem P) (hi : w.mem.tagServices i = some l)
    (hs : w.mem.services l = some s) (hclosed : validServiceOperation env.caller s = false)
    (hlevel : InLevels c) (hw : Alike (· ∈ P.cells i) (· ∈ P.bufs i) w v) :
    Couple env c.exec w c.exec v fun x t y t' =>
      x = y ∧ Alike (· ∈ P.cells i) (· ∈ P.bufs i) t t' := by
  have hw₀ : Alike (· ∈ P.cells i) (· ∈ P.bufs i) { w with trace := [] } { v with trace := [] } :=
    ⟨hw.mem, hw.irq, hw.flags, rfl⟩
  show Couple env c.routine { w with trace := [] } c.routine { v with trace := [] } _
  cases c with
  | tagGet key command permission =>
    exact blind_bind (blind_tagGet key command permission) (fun _ => blind_pure _) env _ _ hw₀
  | tagSend tag level buffer size =>
    exact blind_bind (blind_tagSend tag level buffer size) (fun _ => blind_pure _) env _ _ hw₀
  | tagReceive tag level bufferNull size =>
    refine couple_bind (couple_tagReceive (w := { w with trace := [] }) h hi hs hclosed hlevel hw₀) ?_
    rintro r t _ t' ⟨rfl, ht⟩
    exact ⟨rfl, ht⟩
  | tagCtl tag command =>
    exact blind_bind (blind_tagCtl tag command) (fun _ => blind_pure _) env _ _ hw₀

/-! ## Sequences of calls by strangers -/

theorem ByStranger.closed (h : ByStranger s w d) (hperm : s.perm = privateRoom) :
    validServiceOperation d.env.caller s = false := by
  have hne : ¬ s.uidCreator = d.env.caller.tgid := fun heq => h.2.1 heq.symm
  simp [validServiceOperation, h.1, hperm, privateRoom, openRoom, hne]

/-- What holds all along: memory is formed and the service is intact. -/
def Untouched (m : Mem) (P : Parts) (i : Fin minSysTagServices) (l : Addr) (w' : World) : Prop :=
  ∃ P', Formed w'.mem P' ∧ Intact m P w'.mem P' i l

/-- One call of a stranger. -/
theorem untouched_step (hs : m.services l = some s) (hperm : s.perm = privateRoom)
    (hu : Untouched m P i l w) (hok : ByStranger s w d) (hstep : serial.step w d w') :
    Untouched m P i l w' ∧ (Names s d.call → d.answer.ret < 0) := by
  obtain ⟨P₁, hP₁, hint⟩ := hu
  have hs₁ : w.mem.services l = some s := hint.record.trans hs
  have hclosed := hok.closed hperm
  obtain ⟨P₂, hchange⟩ := step_change hP₁ (not_strays_of_inLevels hok.2.2) hstep
  exact ⟨⟨P₂, hchange.formed hP₁, hint.trans (hchange.closed hP₁ hint.slot hs₁ hclosed)⟩,
    hchange.refuses hP₁ hint.slot hs₁ hclosed⟩

theorem untouched_run (h : Formed w.mem P) (hi : w.mem.tagServices i = some l)
    (hs : w.mem.services l = some s) (hperm : s.perm = privateRoom)
    (hrun : Run (serialFrom w) (ByStranger s) ls w') :
    Untouched w.mem P i l w' ∧ ∀ d ∈ ls, Names s d.call → d.answer.ret < 0 := by
  induction hrun with
  | start h0 =>
    obtain rfl : _ = w := h0
    exact ⟨⟨P, h, hi, rfl, rfl, rfl, fun _ _ => rfl, fun _ _ => rfl⟩, by simp⟩
  | @step ls w₁ w₂ d _ hok hstep ih =>
    obtain ⟨hu, hrefused⟩ := ih
    obtain ⟨hu', hret⟩ := untouched_step hs hperm hu hok hstep
    refine ⟨hu', fun d' hd' => ?_⟩
    rcases List.mem_append.mp hd' with hold | hnew
    · exact hrefused d' hold
    · rwa [List.mem_singleton.mp hnew]

/-- What an intact service holds is what it held. -/
theorem messageOf_intact (h : Formed m P) (h' : Formed m' P') (hi : m.tagServices i = some l)
    (hs : m.services l = some s) (hint : Intact m P m' P' i l) (level : Int32) :
    messageOf m' s level = messageOf m s level := by
  obtain ⟨s₁, es, hs₁, hrep, _, hbs⟩ := (h.seat i l hi).record
  obtain rfl := Option.some.inj (hs.symm.trans hs₁)
  rw [messageOf_eq hrep h.fresh, messageOf_eq (hrep.congr hint.elements) h'.fresh]
  cases hfirst : es.find? (hasLevel level) with
  | none => rfl
  | some x =>
    cases hmsg : x.message with
    | none => simp [hmsg]
    | some b =>
      have hb : b ∈ P.bufs i := by
        rw [← hbs]
        exact List.mem_filterMap.mpr ⟨x, List.mem_of_find?_eq_some hfirst, hmsg⟩
      simp [hmsg, hint.buffers b hb]

/-- The runs from a state that differs in the messages only are the same. -/
theorem sameRuns (h : Formed w.mem P) (hi : w.mem.tagServices i = some l)
    (hs : w.mem.services l = some s) (hperm : s.perm = privateRoom)
    (hw : Alike (· ∈ P.cells i) (· ∈ P.bufs i) w v) :
    (∃ w', Run (serialFrom w) (ByStranger s) ls w') ↔
      ∃ v', Run (serialFrom v) (ByStranger s) ls v' := by
  have hstart : Untouched w.mem P i l w :=
    ⟨P, h, hi, rfl, rfl, rfl, fun _ _ => rfl, fun _ _ => rfl⟩
  -- one call from two states that agree
  have hcouple : ∀ {w₁ v₁ d}, Untouched w.mem P i l w₁ →
      Alike (· ∈ P.cells i) (· ∈ P.bufs i) w₁ v₁ → ByStranger s w₁ d →
      Couple d.env d.call.exec w₁ d.call.exec v₁ fun x t y t' =>
        x = y ∧ Alike (· ∈ P.cells i) (· ∈ P.bufs i) t t' := by
    rintro w₁ v₁ d ⟨P₁, hP₁, hint⟩ hw₁ hok
    rw [← hint.cells, ← hint.bufs] at hw₁ ⊢
    exact couple_exec hP₁ hint.slot (hint.record.trans hs) (hok.closed hperm) hok.2.2 hw₁
  constructor
  · rintro ⟨w', hrun⟩
    have hsim : ∃ v', Run (serialFrom v) (ByStranger s) ls v' ∧
        (Untouched w.mem P i l w' ∧ Alike (· ∈ P.cells i) (· ∈ P.bufs i) w' v') := by
      refine hrun.simulate_admitted
        (Q := fun w₁ v₁ => Untouched w.mem P i l w₁ ∧ Alike (· ∈ P.cells i) (· ∈ P.bufs i) w₁ v₁)
        (fun w₁ hw₁ => ⟨v, rfl, by rw [show w₁ = w from hw₁]; exact ⟨hstart, hw⟩⟩) ?_
      rintro w₁ d w₂ v₁ ⟨hu, hw₁⟩ hok hstep
      have hboth := hcouple hu hw₁ hok
      have hformed := hu
      obtain ⟨P₁, hP₁, _⟩ := hformed
      obtain ⟨_, v₂, hret, rfl, hw₂⟩ :=
        hboth.ok_left (step_returns hP₁ (not_strays_of_inLevels hok.2.2) hstep)
      exact ⟨hok, v₂, Or.inl hret, (untouched_step hs hperm hu hok hstep).1, hw₂⟩
    obtain ⟨v', hrun', _⟩ := hsim
    exact ⟨v', hrun'⟩
  · rintro ⟨v', hrun⟩
    have hsim : ∃ w', Run (serialFrom w) (ByStranger s) ls w' ∧
        (Untouched w.mem P i l w' ∧ Alike (· ∈ P.cells i) (· ∈ P.bufs i) w' v') := by
      refine hrun.simulate_admitted
        (Q := fun v₁ w₁ => Untouched w.mem P i l w₁ ∧ Alike (· ∈ P.cells i) (· ∈ P.bufs i) w₁ v₁)
        (fun v₁ hv₁ => ⟨w, rfl, by rw [show v₁ = v from hv₁]; exact ⟨hstart, hw⟩⟩) ?_
      rintro v₁ d v₂ w₁ ⟨hu, hw₁⟩ hok hstep
      have hboth := hcouple hu hw₁ hok
      rcases hstep with hret | ⟨k, hfault⟩
      · obtain ⟨_, w₂, hret', rfl, hw₂⟩ := hboth.ok_right hret
        exact ⟨hok, w₂, Or.inl hret', (untouched_step hs hperm hu hok (Or.inl hret')).1, hw₂⟩
      · -- an index outside its array would be one in the other run too
        obtain ⟨P₁, hP₁, _⟩ := hu
        have hinside : Inside w₁ d := not_strays_of_inLevels hok.2.2
        have hwp := exec_change hP₁ hinside
        rcases hboth.cases with ⟨_, _, _, _, _, hret, _⟩ | ⟨x, hx, hx'⟩
        · exact absurd (hfault.symm.trans hret) (by simp)
        · obtain rfl := Except.error.inj (hx'.symm.trans hfault)
          rw [wp, hx] at hwp
          simp at hwp
    obtain ⟨w', hrun', _⟩ := hsim
    exact ⟨w', hrun'⟩

/-- **Private rooms are closed to strangers.** -/
theorem closed_to_strangers {ls₀ : List Done} (h : Run serial Inside ls₀ w)
    (hi : w.mem.tagServices i = some l) (hs : w.mem.services l = some s)
    (hperm : s.perm = privateRoom) :
    (∀ ls w', Run (serialFrom w) (ByStranger s) ls w' →
      w'.mem.tagServices i = some l ∧ w'.mem.services l = some s ∧
        (∀ level, messageOf w'.mem s level = messageOf w.mem s level) ∧
        ∀ d ∈ ls, Names s d.call → d.answer.ret < 0) ∧
    ∀ v, SameButMessages s w v → ∀ ls,
      (∃ w', Run (serialFrom w) (ByStranger s) ls w') ↔
        ∃ v', Run (serialFrom v) (ByStranger s) ls v' := by
  obtain ⟨P, hP⟩ := reached_formed h
  refine ⟨fun ls w' hrun => ?_, fun v hv ls => ?_⟩
  · obtain ⟨⟨P', hP', hint⟩, hrefused⟩ := untouched_run hP hi hs hperm hrun
    exact ⟨hint.slot, hint.record.trans hs, messageOf_intact hP hP' hi hs hint, hrefused⟩
  · exact sameRuns hP hi hs hperm
      (hv.mono (fun a ha => hP.mem_cells hi hs ha) fun b hb => hP.mem_bufs hi hs hb)

/-- The creator of a private room sends two bytes to level 3; a stranger then tries to read them. -/
def secretSent : List (Call × Env) :=
  twoRooms ++ [(.tagSend 0 3 (some fun _ => 65) 2, callerEnv 10)]

theorem closed_to_strangers_secretSent : ∃ ls w l s w',
    Run serial Inside ls w ∧ w.mem.tagServices ⟨0, by decide⟩ = some l ∧
      w.mem.services l = some s ∧ s.perm = privateRoom ∧
      Run (serialFrom w) (ByStranger s)
        [⟨.tagReceive 0 3 false 2, callerEnv 12, .ofRet Errno.EBADRQC.neg⟩] w' ∧
      w'.mem.services l = some s ∧ messageOf w'.mem s 3 = messageOf w.mem s 3 ∧
      ∀ v, SameButMessages s w v → ∃ v', Run (serialFrom v) (ByStranger s)
        [⟨.tagReceive 0 3 false 2, callerEnv 12, .ofRet Errno.EBADRQC.neg⟩] v' := by
  obtain ⟨w, hrun, hrep⟩ := exists_run Inside (w := bootWorld) (.start rfl) emptyMem_rep secretSent
    fun x hx => by
      simp only [secretSent, twoRooms, List.cons_append, List.nil_append, List.mem_cons,
        List.not_mem_nil, or_false] at hx
      rcases hx with rfl | rfl | rfl <;> exact ⟨fun _ => rfl, fun _ => id, fun _ _ => id⟩
  obtain ⟨w', hret, _⟩ := exec_returns (.tagReceive 0 3 false 2) (callerEnv 12) hrep
    (not_strays_of_inLevels ⟨by decide, by decide⟩) fun _ => rfl
  obtain ⟨cells, h⟩ := hrep
  obtain ⟨l, hl, hslot⟩ := h.slot ⟨0, by decide⟩ _ rfl
  obtain ⟨s, hs, hd⟩ := hslot.record
  have hperm : s.perm = privateRoom := hd.perm
  have hok : ByStranger s w ⟨.tagReceive 0 3 false 2, callerEnv 12, .ofRet Errno.EBADRQC.neg⟩ := by
    refine ⟨rfl, ?_, by decide, by decide⟩
    rw [hd.uidCreator]
    decide
  have hstart : Run (serialFrom w) (ByStranger s) [] w := .start rfl
  have hstranger := hstart.step hok (Or.inl hret)
  obtain ⟨hframe, hsame⟩ := closed_to_strangers hrun hl hs hperm
  obtain ⟨_, hs', hmsg, _⟩ := hframe _ _ hstranger
  exact ⟨_, w, l, s, w', hrun, hl, hs, hperm, hstranger, hs', hmsg 3,
    fun v hv => (hsame v hv _).mp ⟨w', hstranger⟩⟩

end TagMessaging.Serial
