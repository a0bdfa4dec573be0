/-
# TagMessaging.Wakeup.Delivery -- which message a receive returns

The wake-up and the message travel apart: the flag ends the wait, then the receiver looks up the one
element its level has at that moment, and reads it after the walk. So a receive that a `tag_send`
woke returns the message of that send or of a later one (`woken_receive`), and one that an
`AWAKE_ALL` woke returns whatever is there, also a message stored and discarded before it began. Both
ask that no sender frees an element that a receive found and has not read to its end
(`FreedAfterUse`). The documented answers come out when, besides, every wake-up follows a message
newer than the receives it meets, and no wait is ended by a signal (`Answered`,
`documented_answers`).
-/
import TagMessaging.Wakeup.Elements

namespace TagMessaging.Wakeup

open TagMessaging.Model TagMessaging.Lib.Transition

variable {τ : Type} {s s' : St τ} {t : τ} {p : Pc} {level : Fin levelDeep} {w : Waker}
variable {history history' : Fin levelDeep → List Msg}
variable [DecidableEq τ] [Fintype τ]

/-! ## The message a woken receiver gets -/

/-- In every run in which no element is freed before it is read: nobody reads a freed one, and a
receive that a `wake_up_all` of the `tag_send` of the message at position `k` found in the queue
returns, if it returns a message, the one stored last before it looked: that message or a later one,
and that one itself when none was stored in between. -/
theorem woken_receive (h : Reached (service τ) FreedAfterUse s) :
    (∀ u, s.pc u ≠ .wild) ∧
    ∀ (t : τ) (r : Receive) (e : Ending) (ret : Int) (bytes : Msg) (seen k : Nat),
      s.pc t = .returned r e ret bytes seen → r.sender = some k → 0 ≤ ret →
      ∃ m m', (s.history r.level)[k]? = some m ∧ (s.history r.level)[seen - 1]? = some m' ∧
        k ≤ seen - 1 ∧ (seen = k + 1 → m' = m) ∧ r.Returns m' ret bytes := by
  refine ⟨(held_reached h).ne_wild, ?_⟩
  intro t r e ret bytes seen k hp hk hret
  have hrec : (Pc.returned r e ret bytes seen).Recorded s.history :=
    hp ▸ (faithful_reached h).recorded t
  obtain ⟨hbefore, hend⟩ := hrec
  have hlt : k < seen := hbefore.sender k hk
  cases e with
  | signal =>
      obtain ⟨hneg, _⟩ := hend
      exact absurd hret (by rw [hneg]; exact not_le.mpr (Errno.neg_lt_zero _))
  | flag w =>
      obtain ⟨m', hm', hreturns⟩ := hend
      have hseen : seen - 1 < (s.history r.level).length := (List.getElem?_eq_some_iff.mp hm').1
      have hkl : k < (s.history r.level).length := lt_of_le_of_lt (Nat.le_pred_of_lt hlt) hseen
      refine ⟨(s.history r.level)[k], m', List.getElem?_eq_getElem hkl, hm',
        Nat.le_pred_of_lt hlt, ?_, hreturns⟩
      rintro rfl
      exact (List.getElem?_eq_some_iff.mp hm').2.symm

instance (p : Pc) (level : Fin levelDeep) (j : Nat) : Decidable (p.Reads level j) := by
  rcases p <;> dsimp only [Pc.Reads] <;> infer_instance

instance (s : St (Fin 3)) (l : Fin 3 × Act) : Decidable (FreedAfterUse s l) := by
  obtain ⟨t, act⟩ := l
  rcases act <;> dsimp only [FreedAfterUse] <;> try infer_instance
  all_goals
    generalize s.pc t = p
    rcases p <;> dsimp only <;> infer_instance

/-- Thread `t`, past its wait, walks, reads the size, copies `n` bytes in one round and returns. -/
def readAll (t : Fin 3) (n : Nat) : List (Fin 3 × Act) :=
  statements t 2 ++ (t, .copied n) :: statements t 1

/-- Thread 0, woken by the send of the message at position 1, gets it. -/
theorem woken_receive_first : ∃ s, Reached (service (Fin 3)) FreedAfterUse s ∧
    s.pc 0 = .returned ⟨level5, 1, 1, true, some 1⟩ (.flag (.send 1)) 1 [1] 2 ∧
    ∃ m m', (s.history level5)[1]? = some m ∧ (s.history level5)[2 - 1]? = some m' ∧
      1 ≤ 2 - 1 ∧ (2 = 1 + 1 → m' = m) ∧
      Receive.Returns ⟨level5, 1, 1, true, some 1⟩ m' 1 [1] := by
  obtain ⟨s, hs, hp⟩ : ∃ s, Reached (service (Fin 3)) FreedAfterUse s ∧
      s.pc 0 = .returned ⟨level5, 1, 1, true, some 1⟩ (.flag (.send 1)) 1 [1] 2 :=
    exists_reached_of_replay step initial (sleptAndWoken 1 ++ statements 0 2 ++ readAll 0 1)
      (by decide +kernel)
  exact ⟨s, hs, hp, (woken_receive hs).2 0 _ _ _ _ _ _ hp rfl (by decide)⟩

/-- Thread 0, woken by the send of `[1, 2]`, gets the message that thread 2 stored before thread 0
looked; and it reads a freed element, when thread 2 frees the one that thread 0 has found. -/
theorem later_message_received :
    (∃ s, Reached (service (Fin 3)) FreedAfterUse s ∧
      s.pc 0 = .returned ⟨level5, 16, 1, true, some 1⟩ (.flag (.send 1)) 3 [3, 4, 5] 3 ∧
      (s.history level5)[1]? = some [1, 2]) ∧
    ∃ s, Reached (service (Fin 3)) Always s ∧ s.pc 0 = .wild := by
  constructor
  · exact exists_reached_of_replay step initial
      (sleptAndWoken 16 ++ (2, .send level5 [3, 4, 5]) :: statements 2 2 ++ statements 0 2 ++
        readAll 0 3) (by decide +kernel)
  · exact exists_reached_of_replay step initial
      (sleptAndWoken 16 ++ statements 0 3 ++ (2, .send level5 [3, 4, 5]) :: statements 2 1 ++
        statements 0 1) (by decide +kernel)

/-! ## What ends a wait -/

/-- `ERESTART`, the documented answer of a receive that a signal woke. -/
def erestart : Int := 85

/-- The documented answers of the receives that no send answered, and where the bytes of the others
come from. -/
structure Documented (s : St τ) : Prop where
  /-- No receive delivers what it read of a freed element. -/
  tame : ∀ t, s.pc t ≠ .wild
  /-- Ended by `AWAKE_ALL`, with no message stored at the level since the receive began. -/
  awakened : ∀ t r ret bytes seen, s.pc t = .returned r (.flag .awakeAll) ret bytes seen →
    seen = r.began → ret = Errno.EUCLEAN.neg ∧ bytes = []
  signalled : ∀ t r ret bytes seen, s.pc t = .returned r .signal ret bytes seen →
    ret = -erestart ∧ bytes = []
  stored : ∀ t r e ret bytes seen, s.pc t = .returned r e ret bytes seen → 0 ≤ ret →
    ∃ j m, r.began ≤ j ∧ (s.history r.level)[j]? = some m ∧ r.Returns m ret bytes

/-- A message was stored at the level since the receive began, if the thread is in one there that
has reset the flag and not tested it with success. -/
def Pc.Informed (level : Fin levelDeep) (now : Nat) : Pc → Prop
  | .reset r | .queued r | .asleep r | .awakened r => r.level = level → r.began < now
  | _ => True

/-- No wait is ended by a signal, and whoever stores 1 in the flag of a level finds every receive in
progress there begun before the message of the level was stored. -/
def Answered (s : St τ) : τ × Act → Prop
  | (t, .signal) =>
      match s.pc t with
      | .asleep r => s.ready r.level = 1
      | _ => True
  | (t, .advance) =>
      match s.pc t with
      | .noticed level _ | .awaking level => ∀ u, (s.pc u).Informed level (s.history level).length
      | _ => True
  | _ => True

/-- Both guards. -/
def Orderly (s : St τ) (l : τ × Act) : Prop := Answered s l ∧ FreedAfterUse s l

/-- A receive that the flag lets go, or has let go, has a message stored since it began. -/
def Pc.Heard (ready : Fin levelDeep → Int) (history : Fin levelDeep → List Msg) : Pc → Prop
  | .reset r | .queued r | .asleep r | .awakened r =>
      ready r.level = 1 → r.began < (history r.level).length
  | .signalled _ => False
  | .released r _ => r.began < (history r.level).length
  | .found r _ j | .copying r _ j _ _ => r.began < j + 1
  | .returned r e _ _ seen => e ≠ .signal ∧ r.began < seen
  | _ => True

variable {ready : Fin levelDeep → Int}

theorem Pc.Heard.resetFlag (h : p.Heard ready history) (level : Fin levelDeep) :
    p.Heard (Function.update ready level 0) history := by
  have hold : ∀ r : Receive, (ready r.level = 1 → r.began < (history r.level).length) →
      Function.update ready level 0 r.level = 1 → r.began < (history r.level).length := by
    intro r hr hready
    by_cases hl : r.level = level
    · simp [hl] at hready
    · exact hr (by simpa [hl] using hready)
  cases p with
  | reset r | queued r | asleep r | awakened r => exact hold r h
  | _ => exact h

theorem Pc.Heard.setFlag (h : p.Heard ready history)
    (hinformed : p.Informed level (history level).length) :
    p.Heard (Function.update ready level 1) history := by
  have hold : ∀ r : Receive, (r.level = level → r.began < (history level).length) →
      (ready r.level = 1 → r.began < (history r.level).length) →
      Function.update ready level 1 r.level = 1 → r.began < (history r.level).length := by
    intro r hi hr hready
    by_cases hl : r.level = level
    · rw [hl]
      exact hi hl
    · exact hr (by simpa [hl] using hready)
  cases p with
  | reset r | queued r | asleep r | awakened r => exact hold r hinformed h
  | _ => exact h

theorem Pc.Heard.grow (h : p.Heard ready history) (hle : ∀ level, history level <+: history' level) :
    p.Heard ready history' := by
  cases p with
  | reset r | queued r | asleep r | awakened r =>
      exact fun hready => lt_of_lt_of_le (h hready) (hle r.level).length_le
  | released r w => exact lt_of_lt_of_le h (hle r.level).length_le
  | _ => exact h

theorem Pc.Heard.wake (h : p.Heard ready history) : (p.wake level w).Heard ready history := by
  apply Pc.wake_of (P := Pc.Heard ready history) h
  rintro r - (rfl | rfl)
  · exact h
  · exact h

theorem Pc.Heard.test {r : Receive} (h : (Pc.queued r).Heard ready history) :
    (if ready r.level = 1 then Pc.released r w else .asleep r).Heard ready history := by
  split
  · exact h ‹_›
  · exact h

theorem heard_advance (h : ∀ u, (s.pc u).Heard s.ready s.history) (hcurrent : Current s)
    (hok : Answered s (t, .advance)) (hs : advance s t = some s') :
    ∀ u, (s'.pc u).Heard s'.ready s'.history := by
  have ht : (s.pc t).Heard s.ready s.history := h t
  cases hp : s.pc t with simp only [advance, hp] at hs ht
  | idle | asleep r | wild => cases hs
  | signalled r => exact ht.elim
  | entered r =>
      obtain rfl := Option.some.inj hs
      refine forall_goto (fun u => (h u).resetFlag r.level) fun hready => ?_
      simp [St.resetFlag, St.goto] at hready
  | queued r =>
      obtain rfl := Option.some.inj hs
      exact forall_goto h ht.test
  | reset r | awakened r =>
      obtain rfl := Option.some.inj hs
      exact forall_goto h ht
  | released r w =>
      obtain rfl := Option.some.inj hs
      refine forall_goto h ?_
      show r.began < s.current r.level + 1
      rw [← hcurrent.1]
      exact ht
  | found r w j =>
      obtain rfl := Option.some.inj hs
      refine forall_goto h ?_
      split
      · trivial
      · exact ht
  | copying r w j bSize out =>
      obtain ⟨_, ⟨⟩⟩ := Option.ite_none_left_eq_some.mp hs
      exact forall_goto h ⟨by simp, ht⟩
  | replaced level removed =>
      obtain rfl := Option.some.inj hs
      exact forall_goto (s := s.kfree level removed) h trivial
  | returned r e ret bytes seen =>
      obtain rfl := Option.some.inj hs
      exact forall_goto h trivial
  | stored level k =>
      obtain rfl := Option.some.inj hs
      refine forall_goto h ?_
      split <;> trivial
  | noticed level k | awaking level =>
      obtain rfl := Option.some.inj hs
      have hinformed : ∀ u, (s.pc u).Informed level (s.history level).length := by
        simpa [Answered, hp] using hok
      exact forall_goto (fun u => (h u).setFlag (hinformed u)) trivial
  | flagged level w =>
      obtain rfl := Option.some.inj hs
      refine forall_goto (fun u => (h u).wake) ?_
      exact Waker.next_of (P := Pc.Heard s.ready s.history) trivial fun _ => trivial

theorem heard_step {l : τ × Act} (h : ∀ u, (s.pc u).Heard s.ready s.history)
    (hcurrent : Current s) (hok : Answered s l) (hs : step s l = some s') :
    ∀ u, (s'.pc u).Heard s'.ready s'.history := by
  obtain ⟨t, act⟩ := l
  cases act with
  | advance => exact heard_advance h hcurrent hok hs
  | receive level size | awakeAll =>
      obtain ⟨_, ⟨⟩⟩ := Option.ite_none_right_eq_some.mp hs
      exact forall_goto h trivial
  | copied n =>
      have ht : (s.pc t).Heard s.ready s.history := h t
      cases hp : s.pc t with simp only [step, hp] at hs ht
      | copying r w j bSize out =>
          obtain ⟨_, ⟨⟩⟩ := Option.ite_none_right_eq_some.mp hs
          refine forall_goto h ?_
          split
          · trivial
          · exact ht
      | _ => cases hs
  | send level m =>
      obtain ⟨_, ⟨⟩⟩ := Option.ite_none_right_eq_some.mp hs
      have hgrow : ∀ u, (s.pc u).Heard s.ready (s.listReplace level m).history := fun u =>
        (h u).grow (listReplace_extends s level m)
      exact forall_goto (s := s.listReplace level m) hgrow trivial
  | signal =>
      have ht : (s.pc t).Heard s.ready s.history := h t
      cases hp : s.pc t with simp only [step, hp] at hs ht
      | asleep r =>
          obtain rfl := Option.some.inj hs
          have hready : s.ready r.level = 1 := by simpa [Answered, hp] using hok
          refine forall_goto h ?_
          rw [if_pos hready]
          exact ht hready
      | _ => cases hs

/-- In every run under both guards the documented answers come out, for any number of threads and any
history of messages. -/
theorem documented_answers (h : Reached (service τ) Orderly s) : Documented s := by
  have hheard : Faithful s ∧ ∀ u, (s.pc u).Heard s.ready s.history := by
    refine h.invariant (I := fun s => Faithful s ∧ ∀ u, (s.pc u).Heard s.ready s.history) ?_
      fun _ _ _ hi hok hs => ⟨recorded_step hi.1 hs, heard_step hi.2 hi.1.current hok.1 hs⟩
    rintro s₀ hs₀
    have hstart : Reached (service τ) Always s₀ := .start hs₀
    obtain rfl := hs₀
    exact ⟨faithful_reached hstart, fun _ => trivial⟩
  obtain ⟨hfaithful, hheard⟩ := hheard
  have hheld : Held s := held_reached (h.weaken fun _ _ hok => hok.2)
  refine ⟨hheld.ne_wild, ?_, ?_, ?_⟩
  · rintro t r ret bytes seen hp rfl
    have ht : (Pc.returned r (.flag .awakeAll) ret bytes r.began).Heard s.ready s.history :=
      hp ▸ hheard t
    exact absurd ht.2 (Nat.lt_irrefl _)
  · intro t r ret bytes seen hp
    have ht : (Pc.returned r .signal ret bytes seen).Heard s.ready s.history := hp ▸ hheard t
    exact absurd rfl ht.1
  · intro t r e ret bytes seen hp _
    have ht : (Pc.returned r e ret bytes seen).Heard s.ready s.history := hp ▸ hheard t
    have hr : (Pc.returned r e ret bytes seen).Recorded s.history :=
      hp ▸ hfaithful.recorded t
    cases e with
    | signal => exact absurd rfl ht.1
    | flag w =>
        obtain ⟨_, m, hm, hreturns⟩ := hr
        exact ⟨seen - 1, m, Nat.le_pred_of_lt ht.2, hm, hreturns⟩

/-! ## Runs of three threads -/

instance (p : Pc) (level : Fin levelDeep) (now : Nat) : Decidable (p.Informed level now) := by
  rcases p <;> dsimp only [Pc.Informed] <;> infer_instance

instance (s : St (Fin 3)) (l : Fin 3 × Act) : Decidable (Answered s l) := by
  obtain ⟨t, act⟩ := l
  rcases act <;> dsimp only [Answered] <;> try infer_instance
  all_goals
    generalize s.pc t = p
    rcases p <;> dsimp only <;> infer_instance

instance (s : St (Fin 3)) (l : Fin 3 × Act) : Decidable (Orderly s l) :=
  inferInstanceAs (Decidable (_ ∧ _))

/-- Under the guards: thread 0 waited for the message of thread 1 and has it. -/
theorem documented_answers_send : ∃ s, Reached (service (Fin 3)) Orderly s ∧
    s.pc 0 = .returned ⟨level5, 16, 1, true, some 1⟩ (.flag (.send 1)) 2 [1, 2] 2 ∧
    Documented s := by
  obtain ⟨s, hs, hp⟩ : ∃ s, Reached (service (Fin 3)) Orderly s ∧
      s.pc 0 = .returned ⟨level5, 16, 1, true, some 1⟩ (.flag (.send 1)) 2 [1, 2] 2 :=
    exists_reached_of_replay step initial (sleptAndWoken 16 ++ statements 0 2 ++ readAll 0 2)
      (by decide +kernel)
  exact ⟨s, hs, hp, documented_answers hs⟩

/-- Without them: thread 0 returns 2 bytes of a message that was discarded before it began, because
an `AWAKE_ALL` ended its wait; and `-EUCLEAN`, because a signal did; and it reads a freed element,
because a sender freed it first. -/
theorem undocumented_answers :
    (∃ s, Reached (service (Fin 3)) FreedAfterUse s ∧
      s.pc 0 = .returned ⟨level5, 16, 2, true, none⟩ (.flag .awakeAll) 2 [1, 2] 2) ∧
    (∃ s, Reached (service (Fin 3)) FreedAfterUse s ∧
      s.pc 0 = .returned ⟨level5, 16, 1, false, none⟩ .signal (-117) [] 1) ∧
    ∃ s, Reached (service (Fin 3)) Answered s ∧ s.pc 0 = .wild := by
  refine ⟨?_, ?_, ?_⟩
  · exact exists_reached_of_replay step initial
      ((1, .send level5 [1, 2]) :: statements 1 2 ++ (0, .receive level5 16) :: statements 0 3 ++
        (1, .awakeAll) :: statements 1 12 ++ statements 0 2 ++ readAll 0 2) (by decide +kernel)
  · exact exists_reached_of_replay step initial
      ((0, .receive level5 16) :: statements 0 3 ++ (0, .signal) :: statements 0 1)
      (by decide +kernel)
  · exact exists_reached_of_replay step initial
      (sleptAndWoken 16 ++ statements 0 3 ++ (2, .send level5 [3, 4, 5]) :: statements 2 1 ++
        statements 0 1) (by decide +kernel)

end TagMessaging.Wakeup
