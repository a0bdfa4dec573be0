/-
# TagMessaging.Table.Exclusion -- what the lock gives to creators and removers

`CREATE` searches and fills under `write_lock`; `REMOVE` clears and frees under `read_lock`. Both
rely on every release being made by a holder, and `AWAKE_ALL` ends with a `write_unlock` of a lock
it does not hold. As long as no creator is in its section when that happens (`UnlocksOwn`), one
call at a time is in a write section and no remover is there with it (`Locked`). Then a slot found
empty stays empty until it is filled, and a live record is in a slot or on its way to `kfree`
(`Placed`).
-/
import TagMessaging.Table.Moves
import TagMessaging.Table.Lifetime
import TagMessaging.Lib.Tally

namespace TagMessaging.Table

open TagMessaging.Model TagMessaging.Lib.Transition TagMessaging.Lib.RwLock TagMessaging.Lib.Tally

variable {τ : Type} {s s' : St τ} {t u v : τ} {p q : Pc} {a b : Addr} {tmp : Ptr}
variable {i : Fin minSysTagServices} {service : TAGService}

/-! ## Sections -/

/-- Between a granted `write_lock` and the call's own `write_unlock`. -/
def Pc.InWrite : Pc → Prop
  | .writing .. | .refused | .choosing .. | .filling .. | .filled .. | .counted _ => True
  | _ => False

/-- Between a granted `read_lock` and the `read_unlock` or the end of the call. -/
def Pc.InRead : Pc → Prop
  | .reading .. | .missed | .found .. | .checked _ | .unused _ | .loaded .. | .cleared .. | .freed _
  | .discounted _ => True
  | _ => False

instance (p : Pc) : Decidable p.InWrite := by
  rcases p <;> dsimp only [Pc.InWrite] <;> infer_instance

instance (p : Pc) : Decidable p.InRead := by
  rcases p <;> dsimp only [Pc.InRead] <;> infer_instance

/-- How many of the lock word's readers the thread is. -/
def Pc.reads (p : Pc) : Int := if p.InRead then 1 else 0

theorem reads_nonneg (p : Pc) : 0 ≤ p.reads := by
  unfold Pc.reads
  split <;> decide

theorem Pc.Outside.not_inWrite (h : p.Outside) : ¬ p.InWrite := by
  cases p <;> first | exact id | exact h.elim

theorem Pc.Outside.reads (h : p.Outside) : p.reads = 0 := by
  cases p <;> first | rfl | exact h.elim

theorem Pc.Outside.not_misplaced (h : p.Outside) : ¬ p.Misplaced := by
  cases p with
  | holding c op a => cases op <;> first | exact id | exact h.elim
  | _ => exact id

variable [Fintype τ]

/-- The lock word tells who is in a section. A reader may have left without telling it. -/
structure Locked (s : St τ) : Prop where
  one : ∀ u v, (s.pc u).InWrite → (s.pc v).InWrite → u = v
  writer : ∀ u, (s.pc u).InWrite → s.lock.writer = true ∧ s.lock.readers = 0
  readers : tally Pc.reads s.pc ≤ s.lock.readers
  held : ∀ u, ¬ (s.pc u).Misplaced

/-- No reader is inside with a writer. -/
theorem Locked.not_inRead (h : Locked s) (hu : (s.pc u).InWrite) (v : τ) : ¬ (s.pc v).InRead := by
  intro hv
  have hle : (s.pc v).reads ≤ tally Pc.reads s.pc := le_tally reads_nonneg v
  have hone : (s.pc v).reads = 1 := if_pos hv
  have hreaders := h.readers
  have hzero := (h.writer u hu).2
  omega

/-- The invariant reads the lock word and the threads. -/
theorem Locked.congr (h : Locked s) (hlock : s'.lock = s.lock) (hpc : s'.pc = s.pc) :
    Locked s' := by
  obtain ⟨h1, h2, h3, h4⟩ := h
  exact ⟨by rwa [hpc], by rwa [hpc, hlock], by rwa [hpc, hlock], by rwa [hpc]⟩

theorem Locked.addCount (h : Locked s) (d : UInt32) : Locked (s.addCount d) := h.congr rfl rfl

theorem Locked.outside {pc : τ → Pc} (h : Locked s)
    (hpc : ∀ u, pc u = s.pc u ∨ (s.pc u).Stops ∧ (pc u).Outside) : Locked { s with pc := pc } := by
  have inWrite : ∀ u, (pc u).InWrite → (s.pc u).InWrite := by
    intro u hu
    rcases hpc u with heq | ⟨_, hout⟩
    · rwa [heq] at hu
    · exact absurd hu hout.not_inWrite
  refine ⟨fun u v hu hv => h.one u v (inWrite u hu) (inWrite v hv),
    fun u hu => h.writer u (inWrite u hu), le_trans (tally_le_tally fun u => ?_) h.readers,
    fun u => ?_⟩
  · rcases hpc u with heq | ⟨_, hout⟩
    · exact le_of_eq (congrArg Pc.reads heq)
    · rw [hout.reads]
      exact reads_nonneg _
  · rcases hpc u with heq | ⟨_, hout⟩
    · simpa [heq] using h.held u
    · exact hout.not_misplaced

theorem locked_initial : Locked (initial : St τ) where
  one := fun _ _ hu => hu.elim
  writer := fun _ hu => hu.elim
  readers := le_of_eq (tally_eq_zero fun _ => rfl)
  held := fun _ => id

variable [DecidableEq τ]

/-- No creator is in its section when `AWAKE_ALL` executes its `write_unlock`. -/
def UnlocksOwn (s : St τ) (l : τ × Act) : Prop :=
  s.pc l.1 = .awoken → ∀ u, ¬ (s.pc u).InWrite

instance (s : St τ) (l : τ × Act) : Decidable (UnlocksOwn s l) :=
  inferInstanceAs (Decidable (_ → _))

/-- A thread moves within its section or out of it, without a word to the lock. -/
theorem Locked.goto (h : Locked s) (hw : q.InWrite → (s.pc t).InWrite)
    (hr : q.reads ≤ (s.pc t).reads) (hheld : ¬ q.Misplaced) :
    Locked (s.goto t q) := by
  have inWrite : ∀ u, ((s.goto t q).pc u).InWrite → (s.pc u).InWrite := by
    intro u hu
    by_cases hut : u = t
    · subst hut
      exact hw (by simpa [St.goto] using hu)
    · simpa [St.goto, hut] using hu
  refine ⟨fun u v hu hv => h.one u v (inWrite u hu) (inWrite v hv),
    fun u hu => h.writer u (inWrite u hu), ?_, forall_goto (P := (¬ ·.Misplaced)) h.held hheld⟩
  have hle := h.readers
  have hsum : tally Pc.reads (s.goto t q).pc = _ := tally_update t q
  rw [hsum]
  simp only [St.goto]
  omega

/-- A writer is let in: nobody is inside. -/
theorem Locked.writeLock (h : Locked s) (hgrant : s.lock.Grants .writeLock) (hq : q.reads = 0)
    (hheld : ¬ q.Misplaced) :
    Locked ((s.lockOp .writeLock).goto t q) := by
  have hnone : ∀ u, ¬ (s.pc u).InWrite := fun u hu => by
    simp [(h.writer u hu).1, Word.Grants] at hgrant
  have honly : ∀ u, (((s.lockOp .writeLock).goto t q).pc u).InWrite → u = t := by
    intro u hu
    by_contra hut
    exact hnone u (by simpa [St.goto, St.lockOp, hut] using hu)
  refine ⟨fun u v hu hv => (honly u hu).trans (honly v hv).symm, fun u _ => ⟨rfl, hgrant.2⟩, ?_,
    forall_goto (P := (¬ ·.Misplaced)) h.held hheld⟩
  have hle := h.readers
  have hsum : tally Pc.reads ((s.lockOp .writeLock).goto t q).pc = _ := tally_update t q
  have hnonneg := reads_nonneg (s.pc t)
  rw [hsum]
  simp only [St.goto, St.lockOp, Word.apply]
  omega

/-- The only writer leaves, or, with nobody in a write section, an `AWAKE_ALL` ends. -/
theorem Locked.writeUnlock (h : Locked s) (hnone : ∀ u, (s.pc u).InWrite → u = t)
    (hq : q.Outside ∨ ∃ a, q = .unlocked a) : Locked ((s.lockOp .writeUnlock).goto t q) := by
  have hout : ¬ q.InWrite ∧ q.reads = 0 ∧ ¬ q.Misplaced := by
    rcases hq with hq | ⟨a, rfl⟩
    · exact ⟨hq.not_inWrite, hq.reads, hq.not_misplaced⟩
    · exact ⟨id, rfl, id⟩
  have hempty : ∀ u, ¬ (((s.lockOp .writeUnlock).goto t q).pc u).InWrite := by
    intro u hu
    by_cases hut : u = t
    · subst hut
      exact hout.1 (by simpa [St.goto] using hu)
    · exact hut (hnone u (by simpa [St.goto, St.lockOp, hut] using hu))
  refine ⟨fun u _ hu => absurd hu (hempty u), fun u hu => absurd hu (hempty u), ?_,
    forall_goto (P := (¬ ·.Misplaced)) h.held hout.2.2⟩
  have hle := h.readers
  have hsum : tally Pc.reads ((s.lockOp .writeUnlock).goto t q).pc = _ := tally_update t q
  have hnonneg := reads_nonneg (s.pc t)
  have hzero := hout.2.1
  rw [hsum]
  simp only [St.goto, St.lockOp, Word.apply]
  omega

/-- A reader is let in. -/
theorem Locked.readLock (h : Locked s) (hgrant : s.lock.Grants .readLock) (hp : (s.pc t).reads = 0)
    (hq : q.reads = 1) (hw : ¬ q.InWrite) (hheld : ¬ q.Misplaced) :
    Locked ((s.lockOp .readLock).goto t q) := by
  have hnone : ∀ u, ¬ (s.pc u).InWrite := fun u hu => by
    simp [(h.writer u hu).1, Word.Grants] at hgrant
  have hempty : ∀ u, ¬ (((s.lockOp .readLock).goto t q).pc u).InWrite := by
    intro u hu
    by_cases hut : u = t
    · subst hut
      exact hw (by simpa [St.goto] using hu)
    · exact hnone u (by simpa [St.goto, St.lockOp, hut] using hu)
  refine ⟨fun u _ hu => absurd hu (hempty u), fun u hu => absurd hu (hempty u), ?_,
    forall_goto (P := (¬ ·.Misplaced)) h.held hheld⟩
  have hle := h.readers
  have hsum : tally Pc.reads ((s.lockOp .readLock).goto t q).pc = _ := tally_update t q
  rw [hsum]
  simp only [St.goto, St.lockOp, Word.apply]
  omega

/-- A reader leaves. -/
theorem Locked.readUnlock (h : Locked s) (hp : (s.pc t).InRead) (hq : q.Outside) :
    Locked ((s.lockOp .readUnlock).goto t q) := by
  have hnone : ∀ u, ¬ (s.pc u).InWrite := fun u hu => h.not_inRead hu t hp
  have hempty : ∀ u, ¬ (((s.lockOp .readUnlock).goto t q).pc u).InWrite := by
    intro u hu
    by_cases hut : u = t
    · subst hut
      exact hq.not_inWrite (by simpa [St.goto] using hu)
    · exact hnone u (by simpa [St.goto, St.lockOp, hut] using hu)
  refine ⟨fun u _ hu => absurd hu (hempty u), fun u hu => absurd hu (hempty u), ?_,
    forall_goto (P := (¬ ·.Misplaced)) h.held hq.not_misplaced⟩
  have hle := h.readers
  have hsum : tally Pc.reads ((s.lockOp .readUnlock).goto t q).pc = _ := tally_update t q
  have hone : (s.pc t).reads = 1 := if_pos hp
  have hzero := hq.reads
  rw [hsum]
  simp only [St.goto, St.lockOp, Word.apply]
  omega

theorem locked_step {l : τ × Act} (h : Locked s) (hok : UnlocksOwn s l)
    (hs : step s l = some s') : Locked s' := by
  obtain ⟨t, act⟩ := l
  have hm : Move s t s' := move_of_step (l := (t, act)) (h.held t) hs
  have only : (s.pc t).InWrite → ∀ u, (s.pc u).InWrite → u = t := fun ht u hu => h.one u t hu ht
  cases hm with
  | outside pc hpc => exact h.outside hpc
  | enter hp hcount => exact h.goto False.elim (reads_nonneg _) id
  | writeLock hp hgrant => exact h.writeLock hgrant rfl id
  | search hp | refuse hp | choose hp =>
      refine h.goto (fun _ => ?_) (reads_nonneg _) id
      rw [hp]
      trivial
  | fill hp =>
      refine Locked.goto (h.congr rfl rfl) (fun _ => ?_) (reads_nonneg _) id
      exact hp ▸ trivial
  | count hp =>
      refine (h.addCount 1).goto (fun _ => ?_) (reads_nonneg _) id
      exact hp ▸ trivial
  | unlock hp => exact h.writeUnlock (only (hp ▸ trivial)) (.inr ⟨_, rfl⟩)
  | raise hp => exact (h.addCount 1).goto False.elim (reads_nonneg _) id
  | writeUnlock hp hq =>
      refine h.writeUnlock (only ?_) (.inl hq)
      rcases hp with hp | ⟨a, hp⟩ <;> exact hp ▸ trivial
  | readLock hp hgrant => exact h.readLock hgrant (by rw [hp]; rfl) rfl id id
  | find hp hq =>
      have hread : (s.pc t).reads = 1 := by rw [hp]; rfl
      rcases hq with rfl | ⟨a, rfl⟩ <;> exact h.goto False.elim (le_of_eq hread.symm) id
  | readUnlock hp hq =>
      refine h.readUnlock ?_ hq
      rcases hp with hp | ⟨c, op, a, hp⟩ <;> exact hp ▸ trivial
  | permit hp | look hp | load hp =>
      exact h.goto False.elim (le_of_eq (by rw [hp]; rfl)) id
  | clear hp =>
      refine Locked.goto (h.congr rfl rfl) False.elim (le_of_eq ?_) id
      exact hp ▸ rfl
  | @kfree a tmp hp =>
      have hkfree : Locked (s.kfree tmp) := by cases tmp <;> exact h.congr rfl rfl
      refine hkfree.goto False.elim (le_of_eq ?_) id
      cases tmp <;> exact hp ▸ rfl
  | discount hp =>
      refine (h.addCount _).goto False.elim (le_of_eq ?_) id
      exact hp ▸ rfl
  | finish hp =>
      have hread : Locked ((s.lockOp .readUnlock).goto t .idle) :=
        h.readUnlock (hp ▸ trivial) trivial
      exact hread.congr rfl rfl
  | stray hp => exact h.writeUnlock (fun u hu => absurd hu (hok hp u)) (.inl trivial)

end TagMessaging.Table
