/-
# TagMessaging.Table.Leftover -- the locks that failed calls leave behind

A `REMOVE` that is turned down, by its permission check or for the threads that wait in the room,
returns with its read lock. Nobody releases it any more. A writer gets in when there is no reader,
so after the first of them no creator ever gets past the lock again (`creation_freezes`). Nothing
else leaves a read lock behind: as long as each service is freed last, the lock word counts the
calls that are inside and the removals that were turned down (`readers_exact`).

A `CREATE` that finds no slot returns with the write lock. Then nobody gets past the lock at all,
until an `AWAKE_ALL` that was already on its way ends with its stray `write_unlock`
(`table_freezes`).
-/
import TagMessaging.Table.Capacity

namespace TagMessaging.Table

open TagMessaging.Model TagMessaging.Lib.Transition TagMessaging.Lib.RwLock TagMessaging.Lib.Tally

variable {τ : Type} {s s' s₁ : St τ} {t : τ} {p q : Pc} {a b : Addr}

/-! ## Places -/

theorem reads_wake {level : Fin levelDeep} : (p.wake level b).reads = p.reads := by
  unfold Pc.wake
  split
  · subst_vars
    rfl
  · rfl

theorem reads_start {op : Op} (h : ∀ tag, op ≠ .remove tag) : (op.start a).reads = 0 :=
  (outside_start a h).reads

/-- No step misplaces a call. -/
theorem held_move [DecidableEq τ] (h : ∀ u, ¬ (s.pc u).Misplaced) (hm : Move s t s') :
    ∀ u, ¬ (s'.pc u).Misplaced := by
  have goes : ∀ {s₁ : St τ} {q : Pc}, s₁.pc = s.pc → ¬ q.Misplaced →
      ∀ u, ¬ ((s₁.goto t q).pc u).Misplaced := by
    intro s₁ q hpc hq
    refine forall_goto (P := (¬ ·.Misplaced)) ?_ hq
    rwa [hpc]
  have counted : ∀ d : UInt32, (s.addCount d).pc = s.pc := fun _ => rfl
  cases hm with
  | outside pc hpc =>
      intro u
      rcases hpc u with heq | ⟨_, hout⟩
      · show ¬ (pc u).Misplaced
        rw [heq]
        exact h u
      · exact hout.not_misplaced
  | writeUnlock hp hq | readUnlock hp hq => exact goes rfl hq.not_misplaced
  | find hp hq =>
      rcases hq with rfl | ⟨a, rfl⟩
      · exact goes rfl id
      · exact goes rfl id
  | @kfree a tmp hp => cases tmp <;> exact goes rfl id
  | discount hp | count hp | raise hp => exact goes (counted _) id
  | _ => exact goes rfl id

variable [Fintype τ]

/-- The next step of the thread ends a `REMOVE` that is turned down. -/
def TurnsDown (s : St τ) (t : τ) : Prop :=
  match s.pc t with
  | .found c (.remove _) a => (s.services a).any (validServiceOperation c) = false
  | .checked a => HasSleepers s a
  | _ => False

instance (s : St τ) (t : τ) : Decidable (TurnsDown s t) := by
  unfold TurnsDown
  split <;> infer_instance

/-! ## What is left in the lock word -/

/-- The read locks that nobody inside is going to release. -/
def leftover (s : St τ) : Int := s.lock.readers - tally Pc.reads s.pc

/-- It reads the lock word and the threads. -/
theorem leftover_congr (hlock : s'.lock.readers = s.lock.readers) (hpc : s'.pc = s.pc) :
    leftover s' = leftover s := by
  unfold leftover
  rw [hlock, hpc]

theorem leftover_initial : leftover (initial : St τ) = 0 := by
  have hzero : tally Pc.reads (initial : St τ).pc = 0 := tally_eq_zero fun _ => rfl
  unfold leftover
  rw [hzero]
  rfl

theorem leftover_addCount (d : UInt32) : leftover (s.addCount d) = leftover s :=
  leftover_congr rfl rfl

theorem leftover_kfree {tmp : Ptr} : leftover (s.kfree tmp) = leftover s := by
  cases tmp <;> exact leftover_congr rfl rfl

theorem leftover_wakeAll {level : Fin levelDeep} : leftover (s.wakeAll level b) = leftover s := by
  have htally : tally Pc.reads (s.wakeAll level b).pc = tally Pc.reads s.pc := by
    apply le_antisymm <;> apply tally_le_tally <;> intro u
    · exact le_of_eq reads_wake
    · exact le_of_eq reads_wake.symm
  unfold leftover
  rw [htally]
  rfl

theorem leftover_readLock : leftover (s.lockOp .readLock) = leftover s + 1 := by
  simp only [leftover, St.lockOp, Word.apply]
  omega

theorem leftover_readUnlock : leftover (s.lockOp .readUnlock) = leftover s - 1 := by
  simp only [leftover, St.lockOp, Word.apply]
  omega

/-- The table, and beside the code how many calls of `REMOVE` were turned down. -/
structure Tallied (τ : Type) where
  table : St τ
  turnedDown : Nat

/-- For each of them a lock is left behind. -/
structure Tallied.Inv (x : Tallied τ) : Prop where
  held : ∀ u, ¬ (x.table.pc u).Misplaced
  left : (x.turnedDown : Int) ≤ leftover x.table

theorem Tallied.inv_initial : Tallied.Inv ({ table := initial, turnedDown := 0 } : Tallied τ) where
  held := fun _ => id
  left := le_of_eq leftover_initial.symm

variable [DecidableEq τ]

/-- A thread moves: what it releases at its new place, nobody is left to release. -/
theorem leftover_goto : leftover (s.goto t q) = leftover s + (s.pc t).reads - q.reads := by
  have hsum : tally Pc.reads (s.goto t q).pc = tally Pc.reads s.pc - (s.pc t).reads + q.reads :=
    tally_update t q
  unfold leftover
  rw [hsum]
  show s.lock.readers - _ = _
  omega

/-- A thread goes on inside, or outside. -/
theorem leftover_stay (hs : leftover s₁ = leftover s) (hpc : (s₁.pc t).reads = q.reads) :
    leftover (s₁.goto t q) = leftover s := by
  rw [leftover_goto, hs]
  omega

theorem leftover_enter (hp : (s.pc t).reads = 0) (hq : q.reads = 1) :
    leftover ((s.lockOp .readLock).goto t q) = leftover s := by
  have hpc : ((s.lockOp .readLock).pc t).reads = (s.pc t).reads := rfl
  rw [leftover_goto, leftover_readLock]
  omega

theorem leftover_leave (hp : (s.pc t).reads = 1) (hq : q.reads = 0) :
    leftover ((s.lockOp .readUnlock).goto t q) = leftover s := by
  have hpc : ((s.lockOp .readUnlock).pc t).reads = (s.pc t).reads := rfl
  rw [leftover_goto, leftover_readUnlock]
  omega

/-! ## One step -/

/-- A removal that is turned down leaves its lock behind. -/
theorem leftover_turnsDown (hturn : TurnsDown s t) (hs : advance s t = some s') :
    leftover s' = leftover s + 1 := by
  have out : ∀ {q : Pc}, (s.pc t).reads = 1 → q.reads = 0 →
      leftover (s.goto t q) = leftover s + 1 := by
    intro q hread hq
    rw [leftover_goto]
    omega
  unfold TurnsDown at hturn
  split at hturn
  · next c tag a hp =>
      -- the check fails, or the record is gone
      simp only [advance, hp] at hs
      obtain rfl := Option.some.inj hs
      unfold St.access
      split
      · exact out (hp ▸ rfl) rfl
      · next service ha =>
          have hinvalid : ¬ validServiceOperation c service = true := by simpa [ha] using hturn
          show leftover (s.goto t (if _ then _ else _)) = _
          rw [if_neg hinvalid]
          exact out (hp ▸ rfl) rfl
  · next a hp =>
      simp only [advance, hp, if_pos hturn] at hs
      obtain rfl := Option.some.inj hs
      unfold St.access
      split <;> exact out (hp ▸ rfl) rfl
  · exact hturn.elim

/-- As many locks are left behind as before, or the thread is lost with one. -/
def Keeps (s : St τ) (t : τ) (s' : St τ) : Prop :=
  leftover s' = leftover s ∨ s'.pc t = .wild ∧ leftover s ≤ leftover s'

theorem Keeps.wild : Keeps s t (s.goto t .wild) := by
  refine .inr ⟨Function.update_self .., ?_⟩
  have hnonneg := reads_nonneg (s.pc t)
  have hzero : Pc.wild.reads = 0 := rfl
  rw [leftover_goto]
  omega

theorem Keeps.access {next : TAGService → St τ}
    (hnext : ∀ service, s.services a = some service → leftover (next service) = leftover s) :
    Keeps s t (s.access t a next) := by
  unfold St.access
  split
  · exact .wild
  · exact .inl (hnext _ ‹_›)

theorem Keeps.accessSlot {next : Fin minSysTagServices → St τ}
    (hnext : ∀ i, leftover (next i) = leftover s) : Keeps s t (s.accessSlot t a next) := by
  unfold St.accessSlot St.access
  split
  · exact .wild
  · dsimp only
    split
    · exact .wild
    · exact .inl (hnext _)

theorem Keeps.lookup {test : TAGService → Bool} {next : Ptr → Pc}
    (hnext : ∀ found, (next found).reads = (s.pc t).reads) :
    Keeps s t (s.lookup t test next) := by
  unfold St.lookup
  split
  · exact .wild
  · exact .inl (leftover_stay rfl (hnext _).symm)

/-- Every other step of a call releases what it took, and no more. -/
theorem keeps_advance (hheld : ¬ (s.pc t).Misplaced) (hturn : ¬ TurnsDown s t)
    (hs : advance s t = some s') : Keeps s t s' := by
  have stay : ∀ {q : Pc}, (s.pc t).reads = q.reads → leftover (s.goto t q) = leftover s :=
    fun hq => leftover_stay rfl hq
  -- the lock is taken in `looking` and released in `missed`, `found` and `discounted`
  cases hp : s.pc t with simp only [advance, hp] at hs
  | idle | wild => cases hs
  | creating c key perm =>
      obtain rfl := Option.some.inj hs
      refine .inl (stay ?_)
      rw [hp]
      split <;> rfl
  | admitted c key perm =>
      obtain ⟨_, ⟨⟩⟩ := Option.ite_none_right_eq_some.mp hs
      exact .inl (leftover_stay (leftover_congr rfl rfl) (hp ▸ rfl))
  | looking c op =>
      obtain ⟨_, ⟨⟩⟩ := Option.ite_none_right_eq_some.mp hs
      exact .inl (leftover_enter (hp ▸ rfl) rfl)
  | writing c key perm =>
      split at hs <;> obtain rfl := Option.some.inj hs
      · exact .inl (stay (hp ▸ rfl))
      · refine .lookup fun found => ?_
        rw [hp]
        cases found <;> rfl
  | choosing c key perm =>
      split at hs <;> obtain rfl := Option.some.inj hs <;> exact .inl (stay (hp ▸ rfl))
  | filling c key perm i =>
      obtain rfl := Option.some.inj hs
      exact .inl (leftover_stay (leftover_congr rfl rfl) (hp ▸ rfl))
  | filled key a =>
      split at hs <;> obtain rfl := Option.some.inj hs
      · exact .inl (leftover_stay (leftover_congr rfl rfl) (hp ▸ rfl))
      · exact .inl (leftover_stay (leftover_addCount _) (hp ▸ rfl))
  | reading c op =>
      obtain rfl := Option.some.inj hs
      refine .lookup fun found => ?_
      rw [hp]
      cases found <;> rfl
  | missed =>
      obtain rfl := Option.some.inj hs
      exact .inl (leftover_leave (hp ▸ rfl) rfl)
  | found c op a =>
      cases op with
      | remove tag =>
          obtain rfl := Option.some.inj hs
          refine .access fun service ha => ?_
          have hvalid : validServiceOperation c service = true := by
            simpa [TurnsDown, hp, ha] using hturn
          rw [hvalid]
          exact stay (hp ▸ rfl)
      | «open» key | send tag level | receive tag level | awakeAll tag =>
          obtain rfl := Option.some.inj hs
          exact .inl (leftover_leave (hp ▸ rfl) rfl)
  | holding c op a =>
      obtain rfl := Option.some.inj hs
      -- `REMOVE` would have its lock here, but it never comes here
      have hop : ∀ tag, op ≠ .remove tag := by
        rintro tag rfl
        exact hheld (hp ▸ trivial)
      refine .access fun service _ => stay ?_
      rw [hp]
      split
      · exact (reads_start hop).symm
      · rfl
  | created a | opening a | sending level a | receiving level a | queued level a
  | awakened level a | left a =>
      obtain rfl := Option.some.inj hs
      exact .access fun _ _ => stay (hp ▸ rfl)
  | replaced level a =>
      obtain rfl := Option.some.inj hs
      refine .access fun _ _ => stay ?_
      rw [hp]
      split <;> rfl
  | noticed level a =>
      obtain rfl := Option.some.inj hs
      refine .access fun _ _ => leftover_stay leftover_wakeAll ?_
      show ((s.pc t).wake level a).reads = _
      rw [reads_wake, hp]
      rfl
  | waking level a =>
      obtain rfl := Option.some.inj hs
      refine .access fun _ _ => leftover_stay leftover_wakeAll ?_
      show ((s.pc t).wake level a).reads = _
      rw [reads_wake, hp]
      exact (outside_nextLevel level a).reads.symm
  | refused | counted a | awoken =>
      obtain rfl := Option.some.inj hs
      exact .inl (leftover_stay (leftover_congr rfl rfl) (hp ▸ rfl))
  | unlocked a =>
      obtain rfl := Option.some.inj hs
      exact .inl (leftover_stay (leftover_addCount _) (hp ▸ rfl))
  | checked a =>
      have hnone : ¬ HasSleepers s a := by simpa [TurnsDown, hp] using hturn
      rw [if_neg hnone] at hs
      obtain rfl := Option.some.inj hs
      exact .access fun _ _ => stay (hp ▸ rfl)
  | unused a =>
      obtain rfl := Option.some.inj hs
      exact .accessSlot fun _ => stay (hp ▸ rfl)
  | loaded a tmp =>
      obtain rfl := Option.some.inj hs
      exact .accessSlot fun _ => leftover_stay (leftover_congr rfl rfl) (hp ▸ rfl)
  | cleared a tmp =>
      obtain rfl := Option.some.inj hs
      refine .inl (leftover_stay leftover_kfree ?_)
      cases tmp <;> exact hp ▸ rfl
  | freed a =>
      obtain rfl := Option.some.inj hs
      exact .inl (leftover_stay (leftover_addCount _) (hp ▸ rfl))
  | discounted a =>
      obtain rfl := Option.some.inj hs
      have hleave : leftover ((s.lockOp .readUnlock).goto t .idle) = leftover s :=
        leftover_leave (hp ▸ rfl) rfl
      exact .inl ((leftover_congr rfl rfl).trans hleave)

theorem keeps_step {l : τ × Act} (hheld : ¬ (s.pc l.1).Misplaced)
    (hturn : ¬ (l.2 = .advance ∧ TurnsDown s l.1)) (hs : step s l = some s') : Keeps s l.1 s' := by
  obtain ⟨t, act⟩ := l
  cases act with
  | advance => exact keeps_advance hheld (fun h => hturn ⟨rfl, h⟩) hs
  | create c key perm | call c op =>
      obtain ⟨hp, ⟨⟩⟩ := Option.ite_none_right_eq_some.mp hs
      exact .inl (leftover_stay rfl (hp ▸ rfl))
  | sleepAgain =>
      cases hp : s.pc t with simp only [step, hp] at hs
      | awakened level a =>
          obtain rfl := Option.some.inj hs
          exact .access fun _ _ => leftover_stay rfl (hp ▸ rfl)
      | _ => cases hs

/-- A creator at the lock does not get in. -/
theorem blocked {c : Caller} {key perm : Int32} (h : 0 < leftover s)
    (hp : s.pc t = .admitted c key perm) : advance s t = none := by
  have hinside : 0 ≤ tally Pc.reads s.pc := tally_nonneg reads_nonneg
  have hreaders : s.lock.readers ≠ 0 := by
    unfold leftover at h
    omega
  simp only [advance, hp, St.acquire]
  exact if_neg fun hgrant => hreaders hgrant.2

/-! ## Runs -/

/-- One step of one thread. -/
def Tallied.step (x : Tallied τ) (l : τ × Act) : Option (Tallied τ) :=
  (Table.step x.table l).map fun s =>
    { table := s
      turnedDown := x.turnedDown + if l.2 = .advance ∧ TurnsDown x.table l.1 then 1 else 0 }

/-- The table with the count of the removals that were turned down. -/
def tallied (τ : Type) [DecidableEq τ] [Fintype τ] : System (Tallied τ) (τ × Act) :=
  System.ofStep { table := initial, turnedDown := 0 } Tallied.step

variable {x x' : Tallied τ} {ls : List (τ × Act)}

/-- What a step does to the count and to the locks that are left. -/
theorem Tallied.leftover_step {l : τ × Act} (hheld : ¬ (x.table.pc l.1).Misplaced)
    (hs : x.step l = some x') :
    Table.step x.table l = some x'.table ∧ x.turnedDown ≤ x'.turnedDown ∧
      (leftover x'.table - leftover x.table = x'.turnedDown - x.turnedDown ∨
        x'.table.pc l.1 = .wild ∧
          (x'.turnedDown : Int) - x.turnedDown ≤ leftover x'.table - leftover x.table) := by
  obtain ⟨s', hs', rfl⟩ := Option.map_eq_some_iff.mp hs
  refine ⟨hs', Nat.le_add_right _ _, ?_⟩
  by_cases hturn : l.2 = .advance ∧ TurnsDown x.table l.1
  · left
    obtain ⟨t, act⟩ := l
    obtain ⟨rfl, hturn'⟩ := hturn
    have hmore := leftover_turnsDown hturn' hs'
    simp only [hturn', and_self, if_true, Nat.cast_add, Nat.cast_one]
    omega
  · simp only [if_neg hturn, Nat.add_zero, sub_self]
    rcases keeps_step hheld hturn hs' with hsame | ⟨hwild, hle⟩
    · exact .inl (by omega)
    · exact .inr ⟨hwild, by omega⟩

theorem Tallied.Inv.step {l : τ × Act} (h : x.Inv) (hs : x.step l = some x') :
    x'.Inv ∧ x.turnedDown ≤ x'.turnedDown := by
  obtain ⟨hs', hmore, hleft⟩ := Tallied.leftover_step (h.held l.1) hs
  have hle := h.left
  refine ⟨⟨held_move h.held (move_of_step (h.held l.1) hs'), ?_⟩, hmore⟩
  rcases hleft with hsame | ⟨_, hle'⟩ <;> omega

/-- In every run, for any number of threads and calls: there is a reader in the lock word for each
call that is inside and for each removal that was turned down; after the first of these, no creator
that has come to the lock takes another step. -/
theorem creation_freezes (h : Run (tallied τ) Always ls x) :
    tally Pc.reads x.table.pc + x.turnedDown ≤ x.table.lock.readers ∧
      (0 < x.turnedDown → ∀ ls' y, Path (tallied τ) Always x ls' y → ∀ u c key perm,
        y.table.pc u = .admitted c key perm → advance y.table u = none) := by
  have hinv : x.Inv := by
    refine h.invariant ?_ fun _ _ _ hi _ hs => (hi.step hs).1
    rintro _ rfl
    exact Tallied.inv_initial
  constructor
  · have hleft := hinv.left
    unfold leftover at hleft
    omega
  · intro hdown ls' y hpath u c key perm hp
    -- the count never falls, and each of them is still a reader
    have hlater : y.Inv ∧ x.turnedDown ≤ y.turnedDown := by
      refine hpath.invariant (I := fun y => y.Inv ∧ x.turnedDown ≤ y.turnedDown) ⟨hinv, le_rfl⟩ ?_
      intro y l y' ⟨hy, hle⟩ _ hs
      exact ⟨(hy.step hs).1, hle.trans (hy.step hs).2⟩
    have hleft := hlater.1.left
    exact blocked (by omega) hp

/-- In every run in which each service is freed last, nothing else is in the lock word. -/
theorem readers_exact (h : Reached (tallied τ) (fun x l => FreedLast x.table l) x) :
    x.table.lock.readers = tally Pc.reads x.table.pc + x.turnedDown := by
  have hinv : x.Inv ∧ Lifetimes x.table ∧ leftover x.table = x.turnedDown := by
    refine h.invariant
      (I := fun x => x.Inv ∧ Lifetimes x.table ∧ leftover x.table = x.turnedDown) ?_ ?_
    · rintro _ rfl
      exact ⟨Tallied.inv_initial, lifetimes_initial, leftover_initial⟩
    · intro x l x' ⟨hi, hlife, heq⟩ hok hs
      obtain ⟨hs', _, hleft⟩ := Tallied.leftover_step (hi.held l.1) hs
      have hlife' : Lifetimes x'.table := lifetimes_step hlife hok hs'
      refine ⟨(hi.step hs).1, hlife', ?_⟩
      rcases hleft with hsame | ⟨hwild, _⟩
      · omega
      · -- no thread is lost when each service is freed last
        exact absurd hwild (hlife'.threads l.1).tame
  have hexact := hinv.2.2
  unfold leftover at hexact
  omega

/-! ## The write lock of a creator without a slot -/

/-- The lock word has a writer, and there is none. -/
structure Shut (s : St τ) : Prop where
  writer : s.lock.writer = true
  empty : ∀ u, ¬ (s.pc u).InWrite
  held : ∀ u, ¬ (s.pc u).Misplaced

omit [Fintype τ] in
theorem Shut.move (h : Shut s) (hstray : s.pc t ≠ .awoken) (hm : Move s t s') : Shut s' := by
  have hheld : ∀ u, ¬ (s'.pc u).Misplaced := held_move h.held hm
  have outside : ∀ {p}, s.pc t = p → ¬ p.InWrite := by
    rintro p rfl
    exact h.empty t
  have goes : ∀ {s₁ : St τ} {q : Pc}, s₁.lock.writer = s.lock.writer → s₁.pc = s.pc →
      ¬ q.InWrite →
      (s₁.goto t q).lock.writer = true ∧ ∀ u, ¬ ((s₁.goto t q).pc u).InWrite := by
    intro s₁ q hlock hpc hq
    refine ⟨hlock.trans h.writer, forall_goto (P := (¬ ·.InWrite)) ?_ hq⟩
    rw [hpc]
    exact h.empty
  have counted : ∀ d : UInt32, (s.addCount d).lock.writer = s.lock.writer ∧
      (s.addCount d).pc = s.pc := fun _ => ⟨rfl, rfl⟩
  suffices hshut : s'.lock.writer = true ∧ ∀ u, ¬ (s'.pc u).InWrite from
    ⟨hshut.1, hshut.2, hheld⟩
  cases hm with
  | outside pc hpc =>
      refine ⟨h.writer, fun u => ?_⟩
      rcases hpc u with heq | ⟨_, hout⟩
      · show ¬ (pc u).InWrite
        rw [heq]
        exact h.empty u
      · exact hout.not_inWrite
  | writeLock hp hgrant => exact absurd (h.writer.symm.trans hgrant.1) (by decide)
  | readLock hp hgrant => exact absurd (h.writer.symm.trans hgrant) (by decide)
  -- these are steps of a creator inside
  | search hp | refuse hp | choose hp | fill hp | count hp | unlock hp =>
      exact absurd trivial (outside hp)
  | writeUnlock hp hq => rcases hp with hp | ⟨a, hp⟩ <;> exact absurd trivial (outside hp)
  | readUnlock hp hq => exact goes rfl rfl hq.not_inWrite
  | find hp hq => rcases hq with rfl | ⟨a, rfl⟩ <;> exact goes rfl rfl id
  | @kfree a tmp hp => cases tmp <;> exact goes rfl rfl id
  | discount hp | raise hp => exact goes (counted _).1 (counted _).2 id
  | stray hp => exact absurd hp hstray
  | _ => exact goes rfl rfl id

/-- In every run in which each `write_unlock` is of a lock its caller holds, up to a creator that
finds no slot: it returns, and from then on no thread that has come to the lock, reader or writer,
takes another step, as long as no `AWAKE_ALL` ends. -/
theorem table_freezes {c : Caller} {key perm : Int32} (h : Reached (table τ) UnlocksOwn s)
    (hp : s.pc t = .choosing c key perm) (hfull : freeSlot s = none) :
    ∃ s', advance s t = some s' ∧ s'.pc t = .idle ∧
      ∀ ls y, Path (table τ) (fun s l => s.pc l.1 ≠ .awoken) s' ls y → ∀ u,
        ((∃ c key perm, y.pc u = .admitted c key perm) ∨ ∃ c op, y.pc u = .looking c op) →
        advance y u = none := by
  have hl : Locked s := by
    refine h.invariant ?_ fun _ _ _ hl hok hs => locked_step hl hok hs
    rintro _ rfl
    exact locked_initial
  have hin : (s.pc t).InWrite := by
    rw [hp]
    trivial
  have hshut : Shut (s.goto t .idle) := by
    refine ⟨(hl.writer t hin).1, fun u hu => ?_, forall_goto (P := (¬ ·.Misplaced)) hl.held id⟩
    by_cases hut : u = t
    · subst hut
      rw [pc_goto_self] at hu
      exact hu
    · have hold : (s.pc u).InWrite := by simpa [St.goto, hut] using hu
      exact hut (hl.one u t hold hin)
  refine ⟨s.goto t .idle, by simp only [advance, hp, hfull], pc_goto_self, ?_⟩
  intro ls y hpath u hu
  have hlater : Shut y := by
    refine hpath.invariant hshut fun y l y' hy hstray hs => ?_
    exact hy.move hstray (move_of_step (hy.held l.1) hs)
  rcases hu with ⟨c, key, perm, hu⟩ | ⟨c, op, hu⟩
  · simp [advance, hu, St.acquire, Word.Grants, hlater.writer]
  · simp [advance, hu, St.acquire, Word.Grants, hlater.writer]

/-! ## Runs of two threads -/

/-- Thread 0 waits in the room when thread 1 wants to remove it: a creator that comes later stays at
the lock. -/
theorem creation_freezes_waiter : ∃ ls x, Run (tallied (Fin 2)) Always ls x ∧
    (x.turnedDown = 1 ∧ x.table.pc 1 = .admitted root 8 openRoom) ∧
    1 ≤ x.table.lock.readers ∧ advance x.table 1 = none := by
  obtain ⟨x, hx, hp⟩ : ∃ x, Run (tallied (Fin 2)) Always
      (created 1 ++ (0, .call root (.receive 0 level5)) :: steps 0 5 ++
        (1, .call root (.remove 0)) :: steps 1 4 ++ (1, .create root 8 openRoom) :: steps 1 1) x ∧
      (x.turnedDown = 1 ∧ x.table.pc 1 = .admitted root 8 openRoom ∧
        0 ≤ tally Pc.reads x.table.pc) :=
    exists_run_of_replay Tallied.step _ _ (by decide +kernel)
  obtain ⟨hreaders, hblocked⟩ := creation_freezes hx
  refine ⟨_, x, hx, ⟨hp.1, hp.2.1⟩, ?_, ?_⟩
  · omega
  · exact hblocked (by omega) [] x .refl 1 root 8 openRoom hp.2.1

/-- And when both are back, that removal is the only reader. -/
theorem readers_exact_waiter : ∃ x, Reached (tallied (Fin 2)) (fun x l => FreedLast x.table l) x ∧
    (x.turnedDown = 1 ∧ x.table.pc 0 = .idle ∧ x.table.pc 1 = .idle) ∧
    x.table.lock.readers = 1 := by
  obtain ⟨x, hx, hp⟩ : ∃ x, Reached (tallied (Fin 2)) (fun x l => FreedLast x.table l) x ∧
      (x.turnedDown = 1 ∧ x.table.pc 0 = .idle ∧ x.table.pc 1 = .idle) :=
    exists_reached_of_replay Tallied.step _
      (created 1 ++ (0, .call root (.receive 0 level5)) :: steps 0 5 ++
        (1, .call root (.remove 0)) :: steps 1 4 ++ steps 0 2) (by decide +kernel)
  have hnone : tally Pc.reads x.table.pc = 0 := by
    refine tally_eq_zero fun u => ?_
    fin_cases u
    · exact congrArg Pc.reads hp.2.1
    · exact congrArg Pc.reads hp.2.2
  have hreaders := readers_exact hx
  exact ⟨x, hx, hp, by omega⟩

/-- Both threads are admitted for the last slot: thread 1 finds none, and thread 0, which comes back
to look the first service up, stays at the lock. -/
theorem table_freezes_overbooked : ∃ s s' y, Reached (table (Fin 2)) UnlocksOwn s ∧
    s.pc 1 = .choosing root tagIpcPrivate openRoom ∧ freeSlot s = none ∧
    (advance s 1 = some s' ∧ s'.pc 1 = .idle) ∧
    step s' (0, .call root (.open 7)) = some y ∧ advance y 0 = none := by
  obtain ⟨s, hs, hp, hfull, hidle⟩ : ∃ s, Reached (table (Fin 2)) UnlocksOwn s ∧
      s.pc 1 = .choosing root tagIpcPrivate openRoom ∧ freeSlot s = none ∧ s.pc 0 = .idle :=
    ((reached_stocked (n := 255) (by decide)).weaken fun _ _ hok => hok.1).exists_of_replay
      (overbooked ++ steps 1 2) (by decide +kernel)
  obtain ⟨s', hs', hback, hfrozen⟩ := table_freezes hs hp hfull
  have hsame : s' = s.goto 1 .idle := by
    simp only [advance, hp, hfull] at hs'
    exact (Option.some.inj hs').symm
  have hidle' : s'.pc 0 = .idle := by
    rw [hsame]
    exact hidle
  have hcall : step s' (0, .call root (.open 7)) = some (s'.goto 0 (.looking root (.open 7))) :=
    if_pos hidle'
  have hpath : Path (table (Fin 2)) (fun s l => s.pc l.1 ≠ .awoken) s'
      ([] ++ [(0, .call root (.open 7))]) (s'.goto 0 (.looking root (.open 7))) := by
    refine .step .refl ?_ hcall
    show s'.pc 0 ≠ .awoken
    rw [hidle']
    decide
  exact ⟨s, s', _, hs, hp, hfull, ⟨hs', hback⟩, hcall,
    hfrozen _ _ hpath 0 (.inr ⟨root, .open 7, pc_goto_self⟩)⟩

end TagMessaging.Table
