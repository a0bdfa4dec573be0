/-
# TagMessaging.Waiters.Exact -- what the status device prints as waiters

`waiters[level]` is meant to be the number of searches on the level that have raised it and not
lowered it (`receivers`). An update stores what it makes of the value it has loaded, so a store that
comes after another update of the same level wipes that one out: `drift_step` says by how much the
counter moves away from the receivers. Nothing brings it back by itself.

`Timely` is the guard that a store finds the counter as its update loaded it. `Alone` is a way to
keep it, and one that a lock would bring about: no search begins an update while another one on the
level is half done.
-/
import TagMessaging.Waiters.Phases
import TagMessaging.Rcu.ReaderCount
import TagMessaging.Model.Status

namespace TagMessaging.Waiters

open TagMessaging.Model TagMessaging.Lib.Transition TagMessaging.Lib.Tally

variable {τ : Type} {s s' : St τ} {t u : τ} {i : Fin levelDeep} {ls : List (τ × Rcu.Act)}

/-! ## What is to hold -/

/-- The search has raised `waiters[i]` and not lowered it. -/
def Phase.Holds (i : Fin levelDeep) : Phase → Prop
  | .inside j | .lower j | .lowering j _ => j = i
  | _ => False

instance (p : Phase) : Decidable (p.Holds i) := by
  rcases p <;> dsimp only [Phase.Holds] <;> infer_instance

/-- The update of `waiters[i]` is half done, with `v` loaded. -/
def Phase.Loaded (i : Fin levelDeep) (v : Int) : Phase → Prop
  | .raising j w | .lowering j w => j = i ∧ w = v
  | _ => False

/-- The thread is in `rcu_list_search`. -/
def Searching (s : St τ) (t : τ) : Prop := (s.pc t).Searching ∨ s.phase t ≠ .outside

/-- How many searches have raised `waiters[i]` and not lowered it. -/
def receivers [Fintype τ] (s : St τ) (i : Fin levelDeep) : Int :=
  (Finset.univ.filter fun t => (s.phase t).Holds i).card

/-- The memory with these values in the counters of the record at `a`. -/
def reporting (m : Mem) (a : Addr) (w : Fin levelDeep → Int) : Mem :=
  { m with
    services := Function.update m.services a
      ((m.services a).map fun service =>
        { service with levels := { service.levels with waiters := w } }) }

/-- Each counter is the number of receivers of its level, whether or not an update is half done;
`printed` says of any table with a room on this list that `scan_Service` prints these numbers. -/
structure WaitersExact [Fintype τ] (s : St τ) : Prop where
  exact : ∀ i, s.list.waiters i = receivers s i
  quiet : (∀ t, ¬ Searching s t) → ∀ i, s.list.waiters i = 0
  printed : ∀ (m : Mem) (a : Addr) (service : TAGService) (vzallocFails : Bool) (len : Nat),
    m.services a = some service → service.levels = s.list →
      scanService (reporting m a (receivers s)) vzallocFails len = scanService m vzallocFails len

/-! ## The guards -/

/-- A store finds the counter as its update loaded it. -/
def Timely (s : St τ) : τ × Rcu.Act → Prop
  | (t, .advance) =>
      match s.phase t with
      | .raising i v | .lowering i v => s.list.waiters i = v
      | _ => True
  | _ => True

/-- No update begins while another one of the same level is half done. -/
def Alone (s : St τ) : τ × Rcu.Act → Prop
  | (t, .advance) =>
      match s.phase t with
      | .raise i | .lower i => ∀ u v, ¬ (s.phase u).Loaded i v
      | _ => True
  | _ => True

/-! ## One step -/

/-- By how much the step puts `waiters[i]` further ahead of its receivers. -/
def slip (s : St τ) (i : Fin levelDeep) : τ × Rcu.Act → Int
  | (t, .advance) =>
      match s.phase t with
      | .raising j v | .lowering j v => if j = i then v - s.list.waiters i else 0
      | _ => 0
  | _ => 0

/-- A timely step is one that puts no counter ahead. -/
theorem timely_iff (l : τ × Rcu.Act) : Timely s l ↔ ∀ i, slip s i l = 0 := by
  obtain ⟨t, act⟩ := l
  cases act with
  | advance =>
      cases hp : s.phase t with simp only [Timely, slip, hp]
      | raising j v | lowering j v =>
          constructor
          · intro h i
            split
            · next hj =>
                subst hj
                omega
            · rfl
          · intro h
            have hj := h j
            rw [if_pos rfl] at hj
            omega
      | _ => simp
  | _ => simp [Timely, slip]

/-- A statement of the list takes a thread across no update. -/
theorem next_iff {P : Phase → Prop} (hraise : ∀ j, P (.raise j) ↔ P .outside)
    (hlower : ∀ j, P (.lower j) ↔ P (.inside j)) (p : Rcu.Pc) {phase : Phase} :
    P (phase.next p) ↔ P phase := by
  cases phase with
  | outside =>
      cases p with
      | sampled key e => cases hkey : Rcu.readyIndex key <;> simp [Phase.next, hkey, hraise]
      | _ => exact Iff.rfl
  | inside j =>
      cases p with
      | signalled | leaving => exact hlower j
      | _ => exact Iff.rfl
  | _ => exact Iff.rfl

section Drift

variable [Fintype τ] [DecidableEq τ]

omit [DecidableEq τ] in
theorem receivers_eq_count : receivers s i = count (Phase.Holds i) s.phase := count_eq_card.symm

/-- By how much `waiters[i]` is ahead of the receivers of the level. -/
def drift (s : St τ) (i : Fin levelDeep) : Int := s.list.waiters i - receivers s i

/-- The threads between their increment and their decrement, after thread `t` has turned to `p`. -/
theorem receivers_turn (p : Phase) : receivers (s.turn t p) i =
    receivers s i - (if (s.phase t).Holds i then 1 else 0) + if p.Holds i then 1 else 0 := by
  rw [receivers_eq_count, receivers_eq_count]
  exact count_update t p

theorem drift_turn {r : Rcu.St τ} {p : Phase} (hw : r.list.waiters = s.list.waiters)
    (hp : p.Holds i ↔ (s.phase t).Holds i) :
    drift ({ s with toSt := r }.turn t p) i = drift s i := by
  have hcount : receivers ({ s with toSt := r }.turn t p) i = receivers s i := by
    rw [receivers_eq_count, receivers_eq_count]
    exact count_update_of_iff hp
  unfold drift
  rw [hcount]
  show r.list.waiters i - _ = _
  rw [hw]

/-- A store of `w` by thread `t`, which then stands at `p`. -/
theorem drift_store (j : Fin levelDeep) (w : Int) (p : Phase) :
    drift ((s.setWaiters j w).turn t p) i =
      (if i = j then w else s.list.waiters i) - (receivers s i -
        (if (s.phase t).Holds i then 1 else 0) + if p.Holds i then 1 else 0) := by
  have hcount : receivers ((s.setWaiters j w).turn t p) i =
      receivers s i - (if (s.phase t).Holds i then 1 else 0) + if p.Holds i then 1 else 0 :=
    receivers_turn p
  have hw : ((s.setWaiters j w).turn t p).list.waiters i =
      if i = j then w else s.list.waiters i := Function.update_apply ..
  unfold drift
  rw [hcount, hw]

/-- What one step does to a counter and its receivers. -/
theorem drift_step {l : τ × Rcu.Act} (hs : step s l = some s') (i : Fin levelDeep) :
    drift s' i = drift s i + slip s i l := by
  rcases step_cases hs with ⟨t, rfl, hadv⟩ | ⟨t, act, r, rfl, hact, hr, rfl⟩
  · cases hp : s.phase t with simp only [advance, hp] at hadv
    | raise j | lower j =>
        obtain rfl := Option.some.inj hadv
        have hslip : slip s i (t, .advance) = 0 := by simp only [slip, hp]
        rw [hslip, add_zero]
        exact drift_turn rfl (by rw [hp]; exact Iff.rfl)
    | raising j v =>
        -- the store may write back a count that others have changed in between
        obtain rfl := Option.some.inj hadv
        rw [drift_store]
        by_cases hj : j = i
        · subst hj
          simp only [slip, hp, Phase.Holds, ↓reduceIte, drift]
          omega
        · simp only [slip, hp, Phase.Holds, hj, Ne.symm hj, ↓reduceIte, drift]
          omega
    | lowering j v =>
        obtain rfl := Option.some.inj hadv
        rw [drift_store]
        by_cases hj : j = i
        · subst hj
          simp only [slip, hp, Phase.Holds, ↓reduceIte, drift]
          omega
        · simp only [slip, hp, Phase.Holds, hj, Ne.symm hj, ↓reduceIte, drift]
          omega
    | outside | inside j =>
        obtain ⟨r, hr, rfl⟩ := Option.map_eq_some_iff.mp hadv
        have hslip : slip s i (t, .advance) = 0 := by simp only [slip, hp]
        rw [hslip, add_zero]
        refine drift_turn (waiters_kept (l := (t, .advance)) hr) ?_
        rw [← hp]
        exact next_iff (fun _ => Iff.rfl) (fun _ => Iff.rfl) (s.pc t)
  · have hslip : slip s i (t, act) = 0 := by
      cases act with
      | advance => exact absurd rfl hact
      | _ => rfl
    rw [hslip, add_zero]
    show r.list.waiters i - receivers s i = _
    rw [waiters_kept hr]
    rfl

/-! ## Whole runs -/

theorem drift_zero (h : Reached (countedList τ) Timely s) (i : Fin levelDeep) : drift s i = 0 := by
  refine h.invariant (I := fun s => drift s i = 0) ?_ fun s l s' hi hok hs => ?_
  · rintro _ rfl
    have hnone : receivers (initial : St τ) i = 0 := by
      rw [receivers_eq_count]
      exact count_eq_zero fun _ => id
    show 0 - receivers (initial : St τ) i = 0
    omega
  · show drift s' i = 0
    rw [drift_step hs i, hi, (timely_iff l).mp hok i, add_zero]

/-- The counters of a list whose drift is 0 may be replaced by the numbers of receivers. -/
theorem reporting_eq {m : Mem} {a : Addr} {service : TAGService} {w : Fin levelDeep → Int}
    (ha : m.services a = some service) (hw : w = service.levels.waiters) :
    reporting m a w = m := by
  unfold reporting
  rw [ha, hw]
  show ({ m with services := Function.update m.services a (some service) } : Mem) = m
  rw [← ha, Function.update_eq_self]

/-- In every run whose stores all find the counter as their update loaded it, for any number of
threads, wake-ups and signals, the counters are exact in every state reached. -/
theorem waiters_exact (h : Reached (countedList τ) Timely s) : WaitersExact s := by
  have hcount : ∀ i, s.list.waiters i = receivers s i := fun i => by
    have hdrift : s.list.waiters i - receivers s i = 0 := drift_zero h i
    omega
  refine ⟨hcount, fun hquiet i => ?_, fun m a service vzallocFails len ha hlist => ?_⟩
  · rw [hcount i, receivers_eq_count]
    refine count_eq_zero fun t hholds => hquiet t (Or.inr fun hout => ?_)
    rw [hout] at hholds
    exact hholds
  · have hw : receivers s = service.levels.waiters := by
      rw [hlist]
      exact funext fun i => (hcount i).symm
    rw [reporting_eq ha hw]

end Drift

/-! ## One update at a time -/

/-- What `Alone` keeps: an update half done has the counter as it stands, and is the only one of its
level. -/
structure Single (s : St τ) : Prop where
  current : ∀ t i v, (s.phase t).Loaded i v → s.list.waiters i = v
  unique : ∀ t u i v w, (s.phase t).Loaded i v → (s.phase u).Loaded i w → t = u

theorem Single.timely (h : Single s) (l : τ × Rcu.Act) : Timely s l := by
  obtain ⟨t, act⟩ := l
  cases act with
  | advance =>
      cases hp : s.phase t with simp only [Timely, hp]
      | raising j v | lowering j v =>
          refine h.current t j v ?_
          rw [hp]
          exact ⟨rfl, rfl⟩
  | _ => trivial

variable [DecidableEq τ]

/-- A thread turns to a phase in which nothing is loaded; the list may take a step. -/
theorem Single.turn {r : Rcu.St τ} {p : Phase} (h : Single s)
    (hw : r.list.waiters = s.list.waiters) (hp : ∀ i v, ¬ p.Loaded i v) :
    Single ({ s with toSt := r }.turn t p) := by
  have old : ∀ {u i v}, (Function.update s.phase t p u).Loaded i v → (s.phase u).Loaded i v := by
    intro u i v hl
    by_cases hu : u = t
    · subst hu
      rw [Function.update_self] at hl
      exact absurd hl (hp i v)
    · rw [Function.update_of_ne hu] at hl
      exact hl
  constructor
  · intro u i v hl
    show r.list.waiters i = v
    rw [hw]
    exact h.current u i v (old hl)
  · intro u u' i v w hl hl'
    exact h.unique u u' i v w (old hl) (old hl')

/-- A load while no other update of the level is half done. -/
theorem Single.load {p : Phase} {j : Fin levelDeep} (h : Single s)
    (hfree : ∀ u v, ¬ (s.phase u).Loaded j v)
    (hp : ∀ i v, p.Loaded i v → i = j ∧ v = s.list.waiters j) : Single (s.turn t p) := by
  have split : ∀ {u i v}, (Function.update s.phase t p u).Loaded i v →
      u = t ∧ i = j ∧ v = s.list.waiters j ∨ (s.phase u).Loaded i v := by
    intro u i v hl
    by_cases hu : u = t
    · subst hu
      rw [Function.update_self] at hl
      exact Or.inl ⟨rfl, hp i v hl⟩
    · rw [Function.update_of_ne hu] at hl
      exact Or.inr hl
  constructor
  · intro u i v hl
    rcases split hl with ⟨_, rfl, rfl⟩ | hold
    · rfl
    · exact h.current u i v hold
  · intro u u' i v w hl hl'
    rcases split hl with ⟨rfl, rfl, rfl⟩ | hold <;>
      rcases split hl' with ⟨rfl, hi, hv⟩ | hold'
    · rfl
    · exact absurd hold' (hfree u' w)
    · subst hi
      exact absurd hold (hfree u v)
    · exact h.unique u u' i v w hold hold'

/-- A store ends the only update of its level. -/
theorem Single.store {p : Phase} {j : Fin levelDeep} {v : Int} (h : Single s)
    (ht : (s.phase t).Loaded j v) (hp : ∀ i v, ¬ p.Loaded i v) (w : Int) :
    Single ((s.setWaiters j w).turn t p) := by
  have other : ∀ {u i v}, (Function.update s.phase t p u).Loaded i v →
      i ≠ j ∧ (s.phase u).Loaded i v := by
    intro u i v' hl
    by_cases hu : u = t
    · subst hu
      rw [Function.update_self] at hl
      exact absurd hl (hp i v')
    · rw [Function.update_of_ne hu] at hl
      refine ⟨?_, hl⟩
      rintro rfl
      exact hu (h.unique u t i v' v hl ht)
  constructor
  · intro u i v' hl
    obtain ⟨hi, hold⟩ := other hl
    show Function.update s.list.waiters j w i = v'
    rw [Function.update_of_ne hi]
    exact h.current u i v' hold
  · intro u u' i v' w' hl hl'
    exact h.unique u u' i v' w' (other hl).2 (other hl').2

theorem Single.step {l : τ × Rcu.Act} (h : Single s) (hok : Alone s l) (hs : step s l = some s') :
    Single s' := by
  rcases step_cases hs with ⟨t, rfl, hadv⟩ | ⟨t, act, r, rfl, hact, hr, rfl⟩
  · cases hp : s.phase t with simp only [advance, Alone, hp] at hadv hok
    | raise j | lower j =>
        obtain rfl := Option.some.inj hadv
        refine h.load hok ?_
        rintro i v ⟨rfl, rfl⟩
        exact ⟨rfl, rfl⟩
    | raising j v | lowering j v =>
        obtain rfl := Option.some.inj hadv
        have ht : (s.phase t).Loaded j v := by
          rw [hp]
          exact ⟨rfl, rfl⟩
        exact h.store ht (fun _ _ => id) _
    | outside | inside j =>
        obtain ⟨r, hr, rfl⟩ := Option.map_eq_some_iff.mp hadv
        refine h.turn (waiters_kept (l := (t, .advance)) hr) fun i v hl => ?_
        rw [← hp] at hl
        have hloaded : (s.phase t).Loaded i v :=
          (next_iff (fun _ => Iff.rfl) (fun _ => Iff.rfl) (s.pc t)).mp hl
        rw [hp] at hloaded
        exact hloaded
  · have hkept := waiters_kept hr
    exact ⟨fun u i v hl => (congrFun hkept i).trans (h.current u i v hl), h.unique⟩

/-- A run in which no update begins while another one of its level is half done is timely. -/
theorem timely_of_alone (h : Run (countedList τ) Alone ls s) : Run (countedList τ) Timely ls s := by
  refine h.strengthen (I := Single) ?_ (fun _ _ _ hi hok hs => hi.step hok hs)
    fun _ l hi _ => hi.timely l
  rintro _ rfl
  exact ⟨fun _ _ _ => False.elim, fun _ _ _ _ _ hl => hl.elim⟩

/-! ## Runs of two threads -/

instance Timely.decidable (s : St τ) (l : τ × Rcu.Act) : Decidable (Timely s l) := by
  obtain ⟨t, act⟩ := l
  rcases act <;> dsimp only [Timely] <;> try infer_instance
  generalize s.phase t = p
  rcases p <;> dsimp only <;> infer_instance

instance Phase.Loaded.decidable (v : Int) (p : Phase) : Decidable (p.Loaded i v) := by
  rcases p <;> dsimp only [Phase.Loaded] <;> infer_instance

instance Searching.decidable (s : St τ) (t : τ) : Decidable (Searching s t) :=
  inferInstanceAs (Decidable (_ ∨ _))

/-- The phase is that of an update half done. -/
def Phase.HalfDone : Phase → Prop
  | .raising _ _ | .lowering _ _ => True
  | _ => False

instance (p : Phase) : Decidable p.HalfDone := by
  rcases p <;> dsimp only [Phase.HalfDone] <;> infer_instance

/-- Thread `t` takes `n` statements. -/
def statements (t : Fin 3) (n : Nat) : List (Fin 3 × Rcu.Act) := List.replicate n (t, .advance)

/-- A signal ends the wait of thread `t`, and its search returns. -/
def endedBySignal (t : Fin 3) : List (Fin 3 × Rcu.Act) :=
  statements t 1 ++ (t, .signal) :: statements t 3

/-- Under the guard: threads 0 and 1 raise the counter one after the other; thread 2 wakes the
level, and thread 0 finds nothing in the list and lowers the counter. -/
theorem waiters_exact_woken : ∃ s, Reached (countedList (Fin 3)) Timely s ∧
    (s.list.waiters 5 = 1 ∧ Searching s 1 ∧ ¬ Searching s 0) ∧ WaitersExact s := by
  obtain ⟨s, hs, hp⟩ : ∃ s, Reached (countedList (Fin 3)) Timely s ∧
      (s.list.waiters 5 = 1 ∧ Searching s 1 ∧ ¬ Searching s 0) :=
    exists_reached_of_replay step initial
      ((0, .search 5) :: statements 0 4 ++ (1, .search 5) :: statements 1 4 ++
        (2, .notify 5) :: statements 2 1 ++ statements 0 8) (by decide +kernel)
  exact ⟨s, hs, hp, waiters_exact hs⟩

/-- Threads 0 and 1 load the counter of level 5 before either stores it, and one increment is lost:
two searches wait, and the counter is 1. When a signal has ended both waits nobody searches, and the
counter is -1. -/
theorem waiters_lost :
    (∃ s, Reached (countedList (Fin 3)) Always s ∧ (∀ t, ¬ (s.phase t).HalfDone) ∧
      s.list.waiters 5 = 1 ∧ receivers s 5 = 2) ∧
    ∃ s, Reached (countedList (Fin 3)) Always s ∧ (∀ t, ¬ (s.phase t).HalfDone) ∧
      (∀ t, ¬ Searching s t) ∧ s.list.waiters 5 = -1 := by
  constructor
  · exact exists_reached_of_replay step initial
      ((0, .search 5) :: statements 0 2 ++ (1, .search 5) :: statements 1 3 ++ statements 0 1)
      (by decide +kernel)
  · exact exists_reached_of_replay step initial
      ((0, .search 5) :: statements 0 2 ++ (1, .search 5) :: statements 1 3 ++ statements 0 1 ++
        endedBySignal 0 ++ endedBySignal 1) (by decide +kernel)

end TagMessaging.Waiters
