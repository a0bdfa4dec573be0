/-
# TagMessaging.Rcu.GracePeriod -- no reader is left on an element that is freed

A writer frees the element it took out after it has seen `standing` of the old epoch at 0. That is
enough when every reader in the list at the moment of the relinking is counted in the epoch the
writer is going to wait for. `rcu_list_search` does not guarantee it: the epoch is sampled before
the sleep, and the sender that wakes the reader has already gone on to the next one. Under the
guard `Covered` every `kfree` is safe, without it a reader is left on a freed element.
-/
import TagMessaging.Rcu.Invariant

namespace TagMessaging.Rcu

open TagMessaging.Model TagMessaging.Lib.Transition

variable {τ : Type} {s s' : St τ} {t : τ} {p : Pc} {xs : List Addr}

/-- What the grace period is for: at a `kfree(removed)` no reader in the list holds a pointer to the
element, and no reader has followed a pointer to a freed one. -/
def GraceKept (s : St τ) : Prop :=
  (∀ t a, s.pc t = .unlocked (some a) → ∀ u, ¬ (s.pc u).PointsTo a) ∧ ∀ u e, s.pc u ≠ .lost e

theorem Pc.PointsTo.countedIn {a : Addr} (h : p.PointsTo a) : ∃ e, p.CountedIn e := by
  cases p with
  | walking key e q => exact ⟨e, rfl⟩
  | leaving e q => exact ⟨e, rfl⟩
  | _ => exact h.elim

theorem InvAt.graceKept (h : InvAt s xs) : GraceKept s := by
  refine ⟨fun t a hp u hu => ?_, fun u e hp => ?_⟩
  · have howns : (s.pc t).Owns a := by simp [hp, Pc.Owns]
    obtain ⟨e, hc⟩ := hu.countedIn
    rcases h.pointers u a e hu hc with ha | ⟨v, hv⟩
    · exact (h.owned t a howns).2 ha
    · obtain rfl := h.distinct v t a hv.owns howns
      simp [hp, Pc.Defers] at hv
  · have htame := h.tame u
    rw [hp] at htame
    exact htame

/-! ## The steps keep the invariant -/

theorem InvAt.unsignalled (h : InvAt s xs) : Unsignalled s := fun t e hp => by
  have htame := h.tame t
  rw [hp] at htame
  exact htame

section Threads

variable [Fintype τ]

/-- The invariant of every run that stays clear of the races. -/
def Inv (s : St τ) : Prop := Counts s ∧ ∃ xs, InvAt s xs

theorem inv_initial : Inv (initial : St τ) := by
  refine ⟨counts_initial, [], fun _ _ => rfl, rfl, ?_, ?_, ?_, ?_, ?_, fun _ => trivial⟩
  · exact fun _ _ h => h.elim
  · exact fun _ _ _ h => h.elim
  · exact fun _ h => h.elim
  · exact fun _ _ _ h => h.elim
  · rintro _ _ _ ⟨_, h⟩
    exact h.elim

variable [DecidableEq τ]

/-- The next statement of a thread keeps the list part of the invariant. -/
theorem InvAt.advance (h : InvAt s xs) (hcounts : Counts s) (hc : Covered s (t, .advance))
    (hs : advance s t = some s') : ∃ ys, InvAt s' ys := by
  cases hp : s.pc t with simp only [Rcu.advance, hp] at hs
  | idle | asleep key i e | lost e | wild => cases hs
  | signalled e => exact absurd hp (h.unsignalled t e)
  | sampled key e =>
      -- the guard: the flag is inside the array
      obtain ⟨i, hi⟩ := Option.isSome_iff_exists.mp (show (readyIndex key).isSome by
        simpa [Covered, hp] using hc)
      simp only [hi, Option.some.injEq] at hs
      subst hs
      have hready : InvAt (s.setReady i 0) xs := h.withList rfl
      exact ⟨xs, hready.read (by simp [hp, Pc.Writing]) (by simp [Pc.Writing])
        (by simp [Pc.PointsTo]) trivial⟩
  | queued key i e =>
      obtain rfl := Option.some.inj hs
      refine ⟨xs, h.read (by simp [hp, Pc.Writing]) ?_ ?_ ?_⟩ <;> split <;>
        simp [Pc.Writing, Pc.PointsTo, Pc.Tame]
  | woken key e =>
      obtain rfl := Option.some.inj hs
      have hadd : InvAt (s.addStanding e 1) xs := h.withList rfl
      exact ⟨xs, hadd.read (by simp [hp, Pc.Writing]) (by simp [Pc.Writing])
        (by simp [Pc.PointsTo]) trivial⟩
  | counted key e =>
      obtain rfl := Option.some.inj hs
      refine ⟨xs, h.read (by simp [hp, Pc.Writing]) (by simp [Pc.Writing]) ?_ trivial⟩
      exact fun a _ ha _ => Or.inl (h.mem_head ha)
  | walking key e q =>
      obtain rfl := Option.some.inj hs
      exact ⟨xs, h.hop hp⟩
  | leaving e q =>
      obtain rfl := Option.some.inj hs
      have hadd : InvAt (s.addStanding e (-1)) xs := h.withList rfl
      exact ⟨xs, hadd.read (by simp [hp, Pc.Writing]) (by simp [Pc.Writing])
        (by simp [Pc.PointsTo]) trivial⟩
  | returned q =>
      obtain rfl := Option.some.inj hs
      exact ⟨xs, h.read (by simp [hp, Pc.Writing]) (by simp [Pc.Writing])
        (by simp [Pc.PointsTo]) trivial⟩
  | notifying i =>
      obtain rfl := Option.some.inj hs
      exact ⟨xs, h.wakeAll hp⟩
  | prepared c =>
      obtain ⟨hfree, ⟨⟩⟩ := Option.ite_none_right_eq_some.mp hs
      exact ⟨xs, h.acquire hfree hp⟩
  | locked c =>
      obtain rfl := Option.some.inj hs
      refine h.change hp ?_
      rintro key a rfl
      simpa [Covered, hp] using hc
  | unlinked removed g =>
      obtain ⟨hzero, ⟨⟩⟩ := Option.ite_none_left_eq_some.mp hs
      -- the loop has ended: the counter is zero, and so no reader is counted in this epoch
      exact ⟨xs, h.cleared hp fun u => hcounts.not_countedIn (Int.not_lt.mp hzero) u⟩
  | relinked removed g =>
      obtain rfl := Option.some.inj hs
      exact ⟨xs, h.flip hp⟩
  | flipped removed g =>
      obtain ⟨hzero, ⟨⟩⟩ := Option.ite_none_left_eq_some.mp hs
      exact ⟨xs, h.drained hp fun u => hcounts.not_countedIn (Int.not_lt.mp hzero) u⟩
  | drained removed =>
      obtain rfl := Option.some.inj hs
      exact ⟨xs, h.release hp⟩
  | unlocked removed =>
      obtain rfl := Option.some.inj hs
      exact ⟨xs, h.kfree hp⟩

theorem Inv.step {l : τ × Act} (h : Inv s) (hc : Covered s l) (hs : step s l = some s') :
    Inv s' := by
  obtain ⟨t, act⟩ := l
  obtain ⟨hcounts, xs, hat⟩ := h
  refine ⟨hcounts.step hat.unsignalled hs, ?_⟩
  cases act with
  | advance => exact hat.advance hcounts hc hs
  | search key =>
      obtain ⟨hp, ⟨⟩⟩ := Option.ite_none_right_eq_some.mp hs
      exact ⟨xs, hat.read (by simp [hp, Pc.Writing]) (by simp [Pc.Writing])
        (by simp [Pc.PointsTo]) trivial⟩
  | write op kmallocFails =>
      obtain ⟨hp, ⟨⟩⟩ := Option.ite_none_right_eq_some.mp hs
      exact ⟨xs, hat.write hp⟩
  | notify i =>
      obtain ⟨hp, ⟨⟩⟩ := Option.ite_none_right_eq_some.mp hs
      have hready : InvAt (s.setReady i 1) xs := hat.withList rfl
      exact ⟨xs, hready.read (by simp [hp, Pc.Writing]) (by simp [Pc.Writing])
        (by simp [Pc.PointsTo]) trivial⟩
  | signal =>
      cases hp : s.pc t with simp only [Rcu.step, hp] at hs
      | asleep key i e =>
          obtain rfl := Option.some.inj hs
          have hready : s.list.ready i = 1 := by simpa [Covered, hp] using hc
          simp only [hready, if_true]
          exact ⟨xs, hat.read (by simp [hp, Pc.Writing]) (by simp [Pc.Writing])
            (by simp [Pc.PointsTo]) trivial⟩
      | _ => cases hs

/-- In every run that stays clear of the races, for any number of threads, the grace period does
what it is for. -/
theorem grace_period (h : Reached (rcuList τ) Covered s) : GraceKept s := by
  have hinv : Inv s := by
    refine h.invariant ?_ fun _ _ _ hi hc hs => hi.step hc hs
    rintro _ rfl
    exact inv_initial
  obtain ⟨_, xs, hat⟩ := hinv
  exact hat.graceKept

end Threads

/-! ## Runs of three threads -/

instance (s : St (Fin 3)) (l : Fin 3 × Act) : Decidable (Covered s l) := by
  obtain ⟨t, act⟩ := l
  rcases act <;> dsimp only [Covered] <;> first | infer_instance | (split <;> infer_instance)

def level5 : Fin levelDeep := 5

/-- Thread `t` takes `n` statements. -/
def statements (t : Fin 3) (n : Nat) : List (Fin 3 × Act) := List.replicate n (t, .advance)

/-- Thread 1 inserts an element at level 5. -/
def inserted : List (Fin 3 × Act) := (1, .write (.insert ⟨5, none, 0⟩) false) :: statements 1 6

/-- Thread 0 goes to sleep on level 5. -/
def receiverAsleep : List (Fin 3 × Act) := (0, .search 5) :: statements 0 2

/-- Thread 2 wakes it; it samples nothing again, is counted and loads the head. -/
def receiverWoken : List (Fin 3 × Act) :=
  (2, .notify level5) :: statements 2 1 ++ statements 0 3

/-- Thread 1 replaces the element, up to the test of the counter. -/
def replacing (size : Nat) : List (Fin 3 × Act) :=
  (1, .write (.replace ⟨5, none, size⟩) false) :: statements 1 3

/-- Under the guard: the replacement waits until thread 0 has left the list; it is back, on the new
element, when the old one is freed. -/
theorem grace_period_replace : ∃ s, Reached (rcuList (Fin 3)) Covered s ∧
    (s.pc 1 = .unlocked (some 0) ∧ s.pc 0 = .walking 5 0 (some 1)) ∧ GraceKept s := by
  obtain ⟨s, hs, hp⟩ : ∃ s, Reached (rcuList (Fin 3)) Covered s ∧
      (s.pc 1 = .unlocked (some 0) ∧ s.pc 0 = .walking 5 0 (some 1)) :=
    exists_reached_of_replay step initial
      (inserted ++ receiverAsleep ++ receiverWoken ++ replacing 1 ++ statements 0 3 ++
        receiverAsleep ++ receiverWoken ++ statements 1 2) (by decide +kernel)
  exact ⟨s, hs, hp, grace_period hs⟩

/-- Without it: thread 0 sampled epoch 1 and sleeps, thread 1 replaces the element and goes on to
epoch 0 before thread 0 is woken, and the next replacement waits for epoch 0 only. Thread 0 stands
on the element that thread 1 frees, and follows its link. -/
theorem kfree_under_reader :
    (∃ s, Reached (rcuList (Fin 3)) Always s ∧
      s.pc 1 = .unlocked (some 1) ∧ (s.pc 0).PointsTo 1) ∧
    ∃ s, Reached (rcuList (Fin 3)) Always s ∧ s.pc 0 = .lost 1 := by
  constructor
  · exact exists_reached_of_replay step initial
      (inserted ++ receiverAsleep ++ replacing 1 ++ statements 1 3 ++ receiverWoken ++
        replacing 2 ++ statements 1 2) (by decide +kernel)
  · exact exists_reached_of_replay step initial
      (inserted ++ receiverAsleep ++ replacing 1 ++ statements 1 3 ++ receiverWoken ++
        replacing 2 ++ statements 1 3 ++ statements 0 1) (by decide +kernel)

end TagMessaging.Rcu
