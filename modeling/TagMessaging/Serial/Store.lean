/-
# TagMessaging.Serial.Store -- what the levels hold after a sequence of calls

`lastSend ls i j` reads off a history of calls what the last successful `tag_send` to level `j` of
tag `i` sent, counting from the creation of the service now at `i`. It looks at the arguments and
the answers only. In every run the list of every live service has one element for each level, and
that element holds these bytes, provided no allocation failed while a service was created:
`new_TAG_Service` does not look at what `list_insert` answers.
-/
import TagMessaging.Serial.Runs

namespace TagMessaging.Serial

open TagMessaging.Lib.Effect TagMessaging.Lib.Segment TagMessaging.Lib.Transition
open TagMessaging.Model

/-- The messages by tag and level. -/
abbrev Messages := Fin minSysTagServices → Fin levelDeep → List UInt8

/-- The level an argument names, if it is in range. -/
def levelOf (level : Int32) : Option (Fin levelDeep) :=
  if h : 0 ≤ level.toInt ∧ level.toInt < levelDeep then
    some (indexOf level.toInt h)
  else none

/-- The tag a creation answered with. -/
def slotOfAnswer (ret : Int) : Option (Fin minSysTagServices) :=
  if h : 0 ≤ ret ∧ ret < minSysTagServices then some (indexOf ret h) else none

/-- What one call does to the messages: a creation empties the levels of its tag, a send that
answers 0 sets one level, and nothing else counts. -/
def noteCall (M : Messages) (d : Done) : Messages :=
  match d.call with
  | .tagGet _ command _ =>
    if command = cmdCreate then
      match slotOfAnswer d.answer.ret with
      | some i => Function.update M i fun _ => []
      | none => M
    else M
  | .tagSend tag level (some user) size =>
    if d.answer.ret = 0 then
      match Registry.slotOf tag, levelOf level with
      | some i, some j =>
          Function.update M i (Function.update (M i) j ((List.range size).map user))
      | _, _ => M
    else M
  | _ => M

/-- The last message sent to each level, by the history. -/
def lastSend (ls : List Done) : Messages := ls.foldl noteCall fun _ _ => []

theorem lastSend_snoc (ls : List Done) (d : Done) :
    lastSend (ls ++ [d]) = noteCall (lastSend ls) d := by
  simp [lastSend]

/-- The history and the registry tell the same of every live room. -/
def Agrees (R : Registry) (M : Messages) : Prop := ∀ i room, R i = some room → room.message = M i

variable {R : Registry} {M : Messages} {w w' : World} {d : Done} {ls : List Done}
variable {env : Env} {c : Call}

/-! ## What a call does to the registry -/

theorem create_cases (R : Registry) (env : Env) (key permission : Int32) :
    (R.create env key permission).2 = R ∧ (R.create env key permission).1 < 0 ∨
      ∃ (i : Fin minSysTagServices) (room : Room), room.message = (fun _ => []) ∧
        R.create env key permission = ((i : Int), Function.update R i (some room)) := by
  unfold Registry.create
  cases R.freeTag with
  | none => exact Or.inl ⟨rfl, Errno.neg_lt_zero _⟩
  | some i =>
      simp only
      split
      · exact Or.inl ⟨rfl, Errno.neg_lt_zero _⟩
      · exact Or.inr ⟨i, _, rfl, rfl⟩

theorem get_cases (R : Registry) (env : Env) (key command permission : Int32) :
    (R.get env key command permission).2 = R ∧
        (command = cmdCreate → (R.get env key command permission).1 < 0) ∨
      command = cmdCreate ∧ ∃ (i : Fin minSysTagServices) (room : Room),
        room.message = (fun _ => []) ∧
          R.get env key command permission = ((i : Int), Function.update R i (some room)) := by
  unfold Registry.get
  split
  · exact Or.inl ⟨rfl, fun _ => Errno.neg_lt_zero _⟩
  · split
    · exact Or.inl ⟨rfl, fun _ => Errno.neg_lt_zero _⟩
    · split
      · exact Or.inl ⟨rfl, fun _ => Errno.neg_lt_zero _⟩
      · split
        · next hcreate =>
          rcases create_cases R env key permission with ⟨hR, hret⟩ | hnew
          · exact Or.inl ⟨hR, fun _ => hret⟩
          · exact Or.inr ⟨hcreate, hnew⟩
        · next hcreate =>
          refine Or.inl ⟨?_, fun hc => absurd hc hcreate⟩
          split <;> rfl

theorem send_cases (R : Registry) (env : Env) (tag level : Int32)
    (buffer : Option (Nat → UInt8)) (size : Nat) :
    (R.send env tag level buffer size).2 = R ∧ (R.send env tag level buffer size).1 < 0 ∨
      ∃ user i room j, buffer = some user ∧ Registry.slotOf tag = some i ∧ R i = some room ∧
        levelOf level = some j ∧
        R.send env tag level buffer size = (0, R.put i room j ((List.range size).map user)) := by
  unfold Registry.send
  split
  · exact Or.inl ⟨rfl, Errno.neg_lt_zero _⟩
  · cases buffer with
    | none => exact Or.inl ⟨rfl, Errno.neg_lt_zero _⟩
    | some user =>
      simp only
      split
      · exact Or.inl ⟨rfl, Errno.neg_lt_zero _⟩
      · split
        · exact Or.inl ⟨rfl, Errno.neg_lt_zero _⟩
        · cases hroom : R.roomOf tag with
          | none => exact Or.inl ⟨rfl, Errno.neg_lt_zero _⟩
          | some found =>
            obtain ⟨i, room⟩ := found
            obtain ⟨hslot, hi⟩ := Registry.roomOf_eq_some hroom
            simp only
            split
            · exact Or.inl ⟨rfl, Errno.neg_lt_zero _⟩
            · split
              · exact Or.inl ⟨rfl, Errno.neg_lt_zero _⟩
              · split
                · next hrange =>
                  exact Or.inr ⟨user, i, room, _, rfl, hslot, hi, dif_pos hrange, rfl⟩
                · exact Or.inl ⟨rfl, Errno.neg_lt_zero _⟩

theorem ctl_cases (R : Registry) (env : Env) (tag command : Int32) :
    (R.ctl env tag command).2 = R ∨ ∃ i, (R.ctl env tag command).2 = Function.update R i none := by
  unfold Registry.ctl
  split
  · exact Or.inl rfl
  · split
    · exact Or.inl rfl
    · split
      · refine Or.inl ?_
        split
        · rfl
        · split <;> rfl
      · split
        · split
          · exact Or.inl rfl
          · split
            · exact Or.inl rfl
            · exact Or.inr ⟨_, rfl⟩
        · exact Or.inl rfl

/-! ## The history -/

theorem slotOfAnswer_eq (i : Fin minSysTagServices) : slotOfAnswer (i : Int) = some i := by
  have hrange : (0 : Int) ≤ (i : Int) ∧ (i : Int) < minSysTagServices := by
    have := i.isLt
    omega
  rw [slotOfAnswer, dif_pos hrange]
  simp [indexOf]

theorem slotOfAnswer_neg {ret : Int} (h : ret < 0) : slotOfAnswer ret = none :=
  dif_neg (by omega)

theorem Agrees.update {i : Fin minSysTagServices} {room : Room} {row : Fin levelDeep → List UInt8}
    (h : Agrees R M) (hrow : room.message = row) :
    Agrees (Function.update R i (some room)) (Function.update M i row) := by
  intro j room' hj
  by_cases hji : j = i
  · subst hji
    obtain rfl : room = room' := by simpa using hj
    simpa using hrow
  · rw [Function.update_of_ne hji] at hj ⊢
    exact h j room' hj

/-- One call keeps them in agreement. -/
theorem agrees_step (h : Agrees R M) (hans : d.answer = (R.step d.env d.call).1) :
    Agrees (R.step d.env d.call).2 (noteCall M d) := by
  obtain ⟨call, env, answer⟩ := d
  simp only at hans
  subst hans
  cases call with
  | tagGet key command permission =>
    rcases get_cases R env key command permission with
      ⟨hR, hret⟩ | ⟨rfl, i, room, hempty, hnew⟩
    · have hnote : noteCall M ⟨.tagGet key command permission, env,
          (R.step env (.tagGet key command permission)).1⟩ = M := by
        by_cases hcreate : command = cmdCreate
        · simp [noteCall, Registry.step, Answer.ofRet, hcreate,
            slotOfAnswer_neg (hcreate ▸ hret hcreate)]
        · simp [noteCall, hcreate]
      rw [hnote, Registry.step, hR]
      exact h
    · simp only [noteCall, Registry.step, Answer.ofRet, hnew, slotOfAnswer_eq, if_true]
      exact h.update hempty
  | tagSend tag level buffer size =>
    rcases send_cases R env tag level buffer size with
      ⟨hR, hret⟩ | ⟨user, i, room, j, rfl, hslot, hi, hlevel, hput⟩
    · have hnote : noteCall M ⟨.tagSend tag level buffer size, env,
          (R.step env (.tagSend tag level buffer size)).1⟩ = M := by
        cases buffer with
        | none => rfl
        | some user => simp [noteCall, Registry.step, Answer.ofRet, hret.ne]
      rw [hnote, Registry.step, hR]
      exact h
    · simp only [noteCall, Registry.step, Answer.ofRet, hput, hslot, hlevel, if_true]
      exact h.update (by rw [h i room hi])
  | tagReceive tag level bufferNull size => exact h
  | tagCtl tag command =>
    rcases ctl_cases R env tag command with hR | ⟨i, hR⟩
    · rw [Registry.step, hR]
      exact h
    · rw [Registry.step, hR]
      intro j room hj
      have hji : j ≠ i := by
        rintro rfl
        simp at hj
      exact h j room (by simpa [hji] using hj)

/-! ## The store -/

/-- The calls in question: levels 0 to 31, and no allocation fails while a service is created. -/
def InLevels : Call → Prop
  | .tagSend _ level _ _ => 0 ≤ level.toInt ∧ level.toInt < levelDeep
  | .tagReceive _ level _ _ => 0 ≤ level.toInt ∧ level.toInt < levelDeep
  | _ => True

/-- The list of the service in slot `i` has one element for each level, from 31 down to 0, and
no other, and the element of level `j` holds the bytes `M i j`. -/
def HoldsAll (m : Mem) (M : Messages) : Prop :=
  ∀ i l, m.tagServices i = some l → ∃ s xs f, m.services l = some s ∧ s.tag = UInt32.ofNat i ∧
    ListRep m s.levels.head xs (levelOrder.map f) ∧
    ∀ j, (f j).level = Int32.ofNat j ∧ Holds m (f j) (M i j)

theorem holdsAll_of_rep {m : Mem} (h : Rep m R) (hM : Agrees R M) : HoldsAll m M := by
  obtain ⟨cells, h⟩ := h
  intro i l hl
  obtain ⟨room, s, hi, hs, hd, hslot⟩ := h.intact hl
  obtain ⟨f, hlist, hf⟩ := hslot.list hs
  rw [hM i room hi] at hf
  exact ⟨s, cells i, f, hs, hd.tag, hlist, hf⟩

theorem not_strays_of_inLevels {m : Mem} (h : InLevels c) : ¬ Strays m env c := by
  cases c with
  | tagReceive tag level bufferNull size =>
    rintro ⟨_, _, _, hneg, _⟩
    exact absurd hneg (not_lt.mpr h.1)
  | tagGet | tagSend | tagCtl => exact id

/-- **The levels hold the last messages sent.** In every run of calls on levels 0 to 31 in which no
allocation of a creation fails. -/
theorem message_store
    (h : Run serial (fun _ d => InLevels d.call ∧ (Creates d.call → AllocOk d.env)) ls w) :
    HoldsAll w.mem (lastSend ls) := by
  suffices hrep : ∃ R, Rep w.mem R ∧ Agrees R (lastSend ls) by
    obtain ⟨R, hrep, hM⟩ := hrep
    exact holdsAll_of_rep hrep hM
  induction h with
  | start h0 => exact ⟨Registry.empty, h0 ▸ emptyMem_rep, fun _ _ hi => by cases hi⟩
  | @step ls w w' d _ hok hstep ih =>
    obtain ⟨R, hrep, hM⟩ := ih
    rw [lastSend_snoc]
    rcases step_simulates hrep (not_strays_of_inLevels hok.1) hok.2 hstep with
      ⟨hans, hrep'⟩ | ⟨⟨tag, level, buffer, size, hcall⟩, r, hans, hexh⟩
    · exact ⟨_, hrep', agrees_step hM hans⟩
    · -- a send without memory answers an error
      refine ⟨R, hexh.2.2, ?_⟩
      have hnote : noteCall (lastSend ls) d = lastSend ls := by
        obtain ⟨call, env, answer⟩ := d
        simp only at hcall hans
        subst hcall hans
        have hret : r ≠ 0 := hexh.2.1 ▸ (Errno.neg_lt_zero _).ne
        cases buffer with
        | none => rfl
        | some user => simp [noteCall, Answer.ofRet, hret]
      rwa [hnote]

/-- A room is made, sent to on two levels, and sent to again on the first of them. -/
def threeSends : List (Call × Env) :=
  [(.tagGet 5 cmdCreate openRoom, callerEnv 10),
    (.tagSend 0 3 (some fun _ => 65) 2, callerEnv 11),
    (.tagSend 0 31 (some fun _ => 66) 1, callerEnv 10),
    (.tagSend 0 3 (some fun _ => 67) 3, callerEnv 10)]

theorem message_store_threeSends : ∃ ls w,
    Run serial (fun _ d => InLevels d.call ∧ (Creates d.call → AllocOk d.env)) ls w ∧
      HoldsAll w.mem (lastSend ls) ∧
      lastSend ls ⟨0, by decide⟩ ⟨3, by decide⟩ = [67, 67, 67] ∧
      lastSend ls ⟨0, by decide⟩ ⟨31, by decide⟩ = [66] := by
  obtain ⟨w, hrun, _⟩ := exists_run (R := Registry.empty) (w := bootWorld)
    (fun _ d => InLevels d.call ∧ (Creates d.call → AllocOk d.env)) (.start rfl)
    emptyMem_rep threeSends fun x hx => by
      simp only [threeSends, List.mem_cons, List.not_mem_nil, or_false] at hx
      rcases hx with rfl | rfl | rfl | rfl
      · exact ⟨fun _ => rfl, fun _ => id, fun _ _ => ⟨trivial, fun _ _ => rfl⟩⟩
      all_goals exact ⟨fun _ => rfl, fun _ => id, fun _ _ => ⟨⟨by decide, by decide⟩, fun _ _ => rfl⟩⟩
  exact ⟨_, w, hrun, message_store hrun, rfl, rfl⟩

/-- A caller for whom only the first allocation of the call succeeds. -/
def firstAllocationOnly : Env := { callerEnv 10 with kmallocFails := fun a => a ≠ 0 }

/-- The creation answers a tag all the same, and the list of the service is empty. -/
theorem creation_without_elements : ∃ answer w',
    (Call.tagGet tagIpcPrivate cmdCreate openRoom).exec firstAllocationOnly bootWorld =
        .ok (answer, w') ∧
      answer = .ofRet 0 ∧ w'.mem.tagServices ⟨0, by decide⟩ = some 0 ∧
      (w'.mem.services 0).map (·.levels.head) = some none := by
  refine exists_ok_of_wp (E := fun _ => False) ?_ fun _ => id
  decide +kernel

theorem message_store_without_elements : ∃ ls w,
    Run serial (fun _ d => InLevels d.call) ls w ∧
      ls.map Done.call = [.tagGet tagIpcPrivate cmdCreate openRoom] ∧
      ¬ HoldsAll w.mem (lastSend ls) := by
  obtain ⟨answer, w', hexec, rfl, hslot, hhead⟩ := creation_without_elements
  have hstep : serial.step bootWorld
      ⟨.tagGet tagIpcPrivate cmdCreate openRoom, firstAllocationOnly, .ofRet 0⟩ w' := Or.inl hexec
  have hstart : Run serial (fun _ d => InLevels d.call) [] bootWorld := .start rfl
  refine ⟨_, w', hstart.step (by exact trivial) hstep, rfl, fun hall => ?_⟩
  obtain ⟨s, xs, f, hs, _, hrep, _⟩ := hall _ _ hslot
  have hnone : s.levels.head = none := by simpa [hs] using hhead
  have hentries := hrep.entries
  rw [hnone] at hrep
  obtain rfl : xs = [] := hrep.seg.unique rfl
  have hlen : 0 = levelDeep := by simpa [levelOrder] using congrArg List.length hentries
  exact absurd hlen (by decide)

end TagMessaging.Serial
