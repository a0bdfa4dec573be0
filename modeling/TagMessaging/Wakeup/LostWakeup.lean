/-
# TagMessaging.Wakeup.LostWakeup -- a wake-up that is not lost

All receivers of a level share one flag, and each of them resets it before it waits. A receiver that
a `wake_up_all` found in the queue leaves the wait if the flag is still 1 at its next test. It is,
as long as nobody resets the flag in between: after the waker stored 1 and before it wakes, or after
it woke a receiver and before that one has tested. `Undisturbed` is the guard that says so; without
it a newcomer sends a woken receiver back to sleep.
-/
import TagMessaging.Wakeup.Steps

namespace TagMessaging.Wakeup

open TagMessaging.Model TagMessaging.Lib.Transition

variable {τ : Type} {s s' : St τ} {t : τ} {p : Pc} {level : Fin levelDeep} {w : Waker}

/-! ## What a waker does to a thread -/

/-- `wake_up_all` leaves a thread as it is, or takes it out of the queue of the level. -/
theorem Pc.wake_of {P : Pc → Prop} (hp : P p)
    (hawakened : ∀ r, r.level = level → p = .queued r ∨ p = .asleep r → P (.awakened (r.wake w))) :
    P (p.wake level w) := by
  cases p with
  | queued r =>
      by_cases hl : r.level = level
      · simpa only [Pc.wake, hl, if_true] using hawakened r hl (Or.inl rfl)
      · simpa only [Pc.wake, hl, if_false] using hp
  | asleep r =>
      by_cases hl : r.level = level
      · simpa only [Pc.wake, hl, if_true] using hawakened r hl (Or.inr rfl)
      · simpa only [Pc.wake, hl, if_false] using hp
  | _ => exact hp

/-- A sender is done after its `wake_up_all`, and so is `AWAKE_ALL` after its last level. -/
theorem Waker.next_of {P : Pc → Prop} (hidle : P .idle) (hawaking : ∀ level', P (.awaking level')) :
    P (w.next level) := by
  cases w with
  | send k => exact hidle
  | awakeAll =>
      unfold Waker.next
      dsimp only
      split
      · exact hawaking _
      · exact hidle

/-! ## The flags that are relied on -/

/-- The thread relies on the 1 in the flag of the level: it is about to wake the queue, or was woken
and has not tested since. -/
def Pc.NeedsFlag (level : Fin levelDeep) : Pc → Prop
  | .flagged level' _ => level' = level
  | .awakened r => r.level = level
  | .queued r => r.woken = true ∧ r.level = level
  | _ => False

/-- A receiver does not reset the flag while somebody relies on it. -/
def Undisturbed (s : St τ) : τ × Act → Prop
  | (t, .advance) =>
      match s.pc t with
      | .entered r => ∀ u, ¬ (s.pc u).NeedsFlag r.level
      | _ => True
  | _ => True

/-- The claim of a wake-up on a thread: no thread that a `wake_up_all` found in the queue is asleep
again in the same call. -/
def WakeupsKept (s : St τ) : Prop := ∀ t r, s.pc t = .asleep r → r.woken = false

/-- Before its first test, and whenever it is asleep, nobody has woken the receiver. -/
def Pc.Unwoken : Pc → Prop
  | .entered r | .reset r | .asleep r => r.woken = false
  | _ => True

/-- What holds of each thread: the flag it relies on is 1, and it does not sleep woken. -/
structure Pc.Served (ready : Fin levelDeep → Int) (p : Pc) : Prop where
  flag : ∀ level, p.NeedsFlag level → ready level = 1
  unwoken : p.Unwoken

variable {ready : Fin levelDeep → Int}

theorem Pc.Served.of_not (hneeds : ∀ level, ¬ p.NeedsFlag level) (hunwoken : p.Unwoken) :
    p.Served ready :=
  ⟨fun level h => absurd h (hneeds level), hunwoken⟩

/-- Storing 1 in a flag keeps what threads rely on. -/
theorem Pc.Served.setFlag (h : p.Served ready) (level : Fin levelDeep) :
    p.Served (Function.update ready level 1) := by
  refine ⟨fun level' hp => ?_, h.unwoken⟩
  by_cases hl : level' = level
  · simp [hl]
  · simp [hl, h.flag level' hp]

/-- So does storing 0 in a flag on which the thread does not rely. -/
theorem Pc.Served.resetFlag (h : p.Served ready) (hp : ¬ p.NeedsFlag level) :
    p.Served (Function.update ready level 0) := by
  refine ⟨fun level' hp' => ?_, h.unwoken⟩
  have hl : level' ≠ level := by
    rintro rfl
    exact hp hp'
  simp [hl, h.flag level' hp']

/-- Under a flag that is 1 everybody may be woken. -/
theorem Pc.Served.wake (h : p.Served ready) (hready : ready level = 1) :
    (p.wake level w).Served ready := by
  apply Pc.wake_of (P := Pc.Served ready) h
  rintro r rfl _
  refine ⟨fun level' hl => ?_, trivial⟩
  obtain rfl : r.level = level' := hl
  exact hready

/-- A test of the flag sends nobody to sleep who was woken. -/
theorem Pc.Served.test {r : Receive} (h : (Pc.queued r).Served ready) :
    (if ready r.level = 1 then Pc.released r w else .asleep r).Served ready := by
  by_cases hready : ready r.level = 1
  · rw [if_pos hready]
    exact .of_not (by simp [Pc.NeedsFlag]) trivial
  · rw [if_neg hready]
    refine .of_not (by simp [Pc.NeedsFlag]) ?_
    by_contra hwoken
    exact hready (h.flag r.level ⟨by simpa [Pc.Unwoken] using hwoken, rfl⟩)

theorem Pc.Served.next (level : Fin levelDeep) (w : Waker) : (w.next level).Served ready := by
  apply Waker.next_of (P := Pc.Served ready)
  · exact .of_not (by simp [Pc.NeedsFlag]) trivial
  · exact fun _ => .of_not (by simp [Pc.NeedsFlag]) trivial

variable [DecidableEq τ]

theorem forall_goto {P : Pc → Prop} (h : ∀ u, P (s.pc u)) (hp : P p) :
    ∀ u, P ((s.goto t p).pc u) :=
  (Function.forall_update_iff s.pc (p := fun _ q => P q)).mpr ⟨hp, fun u _ => h u⟩

variable [Fintype τ]

theorem served_advance (h : ∀ u, (s.pc u).Served s.ready) (hok : Undisturbed s (t, .advance))
    (hs : advance s t = some s') : ∀ u, (s'.pc u).Served s'.ready := by
  have ht : (s.pc t).Served s.ready := h t
  cases hp : s.pc t with simp only [advance, hp] at hs ht
  | idle | asleep r | wild => cases hs
  | entered r =>
      obtain rfl := Option.some.inj hs
      have hneeds : ∀ u, ¬ (s.pc u).NeedsFlag r.level := by simpa [Undisturbed, hp] using hok
      exact forall_goto (s := s.resetFlag r.level) (fun u => (h u).resetFlag (hneeds u))
        (.of_not (by simp [Pc.NeedsFlag]) ht.unwoken)
  | reset r =>
      obtain rfl := Option.some.inj hs
      have hunwoken : r.woken = false := ht.unwoken
      exact forall_goto h (.of_not (by simp [Pc.NeedsFlag, hunwoken]) trivial)
  | queued r =>
      obtain rfl := Option.some.inj hs
      exact forall_goto h ht.test
  | awakened r =>
      obtain rfl := Option.some.inj hs
      exact forall_goto h ⟨fun level hl => ht.flag level hl.2, trivial⟩
  | signalled r | released r w | returned r e ret bytes seen =>
      obtain rfl := Option.some.inj hs
      exact forall_goto h (.of_not (by simp [Pc.NeedsFlag]) trivial)
  | found r w j =>
      obtain rfl := Option.some.inj hs
      refine forall_goto h ?_
      split <;> exact .of_not (by simp [Pc.NeedsFlag]) trivial
  | copying r w j bSize out =>
      obtain ⟨_, ⟨⟩⟩ := Option.ite_none_left_eq_some.mp hs
      exact forall_goto h (.of_not (by simp [Pc.NeedsFlag]) trivial)
  | replaced level removed =>
      obtain rfl := Option.some.inj hs
      exact forall_goto (s := s.kfree level removed) h (.of_not (by simp [Pc.NeedsFlag]) trivial)
  | stored level k =>
      obtain rfl := Option.some.inj hs
      refine forall_goto h ?_
      split <;> exact .of_not (by simp [Pc.NeedsFlag]) trivial
  | noticed level k | awaking level =>
      obtain rfl := Option.some.inj hs
      refine forall_goto (fun u => (h u).setFlag level) ⟨fun level' hl => ?_, trivial⟩
      obtain rfl : level = level' := hl
      exact Function.update_self ..
  | flagged level w =>
      obtain rfl := Option.some.inj hs
      have hready : s.ready level = 1 := ht.flag level rfl
      exact forall_goto (fun u => (h u).wake hready) (Pc.Served.next level w)

theorem served_step {l : τ × Act} (h : ∀ u, (s.pc u).Served s.ready) (hok : Undisturbed s l)
    (hs : step s l = some s') : ∀ u, (s'.pc u).Served s'.ready := by
  obtain ⟨t, act⟩ := l
  cases act with
  | advance => exact served_advance h hok hs
  | receive level size =>
      obtain ⟨_, ⟨⟩⟩ := Option.ite_none_right_eq_some.mp hs
      exact forall_goto h (.of_not (by simp [Pc.NeedsFlag]) rfl)
  | send level m | awakeAll =>
      obtain ⟨_, ⟨⟩⟩ := Option.ite_none_right_eq_some.mp hs
      exact forall_goto h (.of_not (by simp [Pc.NeedsFlag]) trivial)
  | copied n =>
      cases hp : s.pc t with simp only [step, hp] at hs
      | copying r w j bSize out =>
          obtain ⟨_, ⟨⟩⟩ := Option.ite_none_right_eq_some.mp hs
          refine forall_goto h ?_
          split <;> exact .of_not (by simp [Pc.NeedsFlag]) trivial
      | _ => cases hs
  | signal =>
      cases hp : s.pc t with simp only [step, hp] at hs
      | asleep r =>
          obtain rfl := Option.some.inj hs
          refine forall_goto h ?_
          split <;> exact .of_not (by simp [Pc.NeedsFlag]) trivial
      | _ => cases hs

/-- In every run in which nobody resets a flag that is relied on, no wake-up is lost: signals may
come or not. -/
theorem no_lost_wakeup (h : Reached (service τ) Undisturbed s) : WakeupsKept s := by
  have hserved : ∀ u, (s.pc u).Served s.ready := by
    refine h.invariant (I := fun s => ∀ u, (s.pc u).Served s.ready) ?_ fun _ _ _ hi hok hs =>
      served_step hi hok hs
    rintro _ rfl u
    exact .of_not (by simp [initial, Pc.NeedsFlag]) trivial
  intro t r hp
  have hunwoken := (hserved t).unwoken
  rwa [hp] at hunwoken

/-! ## Runs of three threads -/

instance (p : Pc) (level : Fin levelDeep) : Decidable (p.NeedsFlag level) := by
  rcases p <;> dsimp only [Pc.NeedsFlag] <;> infer_instance

instance (s : St (Fin 3)) (l : Fin 3 × Act) : Decidable (Undisturbed s l) := by
  obtain ⟨t, act⟩ := l
  rcases act <;> dsimp only [Undisturbed] <;> try infer_instance
  all_goals
    generalize s.pc t = p
    rcases p <;> dsimp only <;> infer_instance

def level5 : Fin levelDeep := 5

/-- Thread `t` takes `n` statements. -/
def statements (t : Fin 3) (n : Nat) : List (Fin 3 × Act) := List.replicate n (t, .advance)

/-- Thread 0 sleeps on level 5; thread 1 sends a message there and wakes it. -/
def sleptAndWoken (size : Nat) : List (Fin 3 × Act) :=
  (0, .receive level5 size) :: statements 0 3 ++ (1, .send level5 [1, 2]) :: statements 1 4

/-- Under the guard: thread 2 begins to wait after thread 0 has tested; thread 2 is the one asleep. -/
theorem no_lost_wakeup_newcomer : ∃ s, Reached (service (Fin 3)) Undisturbed s ∧
    (s.pc 0 = .found ⟨level5, 16, 1, true, some 1⟩ (.send 1) 1 ∧
      s.pc 2 = .asleep ⟨level5, 8, 2, false, none⟩) ∧ WakeupsKept s := by
  obtain ⟨s, hs, hp⟩ : ∃ s, Reached (service (Fin 3)) Undisturbed s ∧
      (s.pc 0 = .found ⟨level5, 16, 1, true, some 1⟩ (.send 1) 1 ∧
        s.pc 2 = .asleep ⟨level5, 8, 2, false, none⟩) :=
    exists_reached_of_replay step initial
      (sleptAndWoken 16 ++ statements 0 3 ++ (2, .receive level5 8) :: statements 2 3)
      (by decide +kernel)
  exact ⟨s, hs, hp, no_lost_wakeup hs⟩

/-- Without it: thread 2 begins to receive before thread 0 has tested, and resets the flag; thread 0,
which the `wake_up_all` found in the queue, is asleep again. -/
theorem wakeup_lost : ∃ s, Reached (service (Fin 3)) Always s ∧
    s.pc 0 = .asleep ⟨level5, 16, 1, true, some 1⟩ :=
  exists_reached_of_replay step initial
    (sleptAndWoken 16 ++ (2, .receive level5 8) :: statements 2 1 ++ statements 0 2)
    (by decide +kernel)

end TagMessaging.Wakeup
