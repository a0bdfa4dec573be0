/-
# TagMessaging.Table.Capacity -- does the capacity test cover the allocation?

`CREATE` compares `serviceCount` with `MAX_SERVICE_NUM` before it takes the lock, and nothing
reserves the slot for it: creators that are admitted one after the other may be more than the
slots that are left. A creator finds a slot as long as each admission leaves room for all creators
that are on their way (`LeavesRoom`).
-/
import TagMessaging.Table.Placement

namespace TagMessaging.Table

open TagMessaging.Model TagMessaging.Lib.Transition TagMessaging.Lib.RwLock TagMessaging.Lib.Tally

variable {τ : Type} {s s' : St τ} {t u : τ} {p q : Pc} {a b : Addr} {tmp : Ptr}
variable {i : Fin minSysTagServices} {service : TAGService}

/-! ## Slots and creators -/

/-- How many slots are not `NULL`. -/
def occupied (s : St τ) : Int := count (fun p : Ptr => p.isSome) s.slots

/-- Past the capacity test, and not in a slot yet. -/
def Pc.OnItsWay : Pc → Prop
  | .admitted .. | .writing .. | .choosing .. | .filling .. => True
  | _ => False

instance (p : Pc) : Decidable p.OnItsWay := by
  rcases p <;> dsimp only [Pc.OnItsWay] <;> infer_instance

theorem Pc.Outside.not_onItsWay (h : p.Outside) : ¬ p.OnItsWay := by
  cases p <;> first | exact id | exact h.elim

theorem occupied_fill (service : TAGService) (hi : s.slots i = none) :
    occupied (s.fill i service) = occupied s + 1 := by
  have hupdate : count (fun p : Ptr => p.isSome) (Function.update s.slots i (some s.brk)) = _ :=
    count_update i (some s.brk)
  simpa [occupied, St.fill, hi] using hupdate

theorem occupied_clear : occupied (s.clear i) =
    occupied s - if (s.slots i).isSome then 1 else 0 := by
  have hupdate : count (fun p : Ptr => p.isSome) (Function.update s.slots i none) = _ :=
    count_update i none
  simpa [occupied, St.clear] using hupdate

theorem occupied_clear_le : occupied (s.clear i) ≤ occupied s := by
  rw [occupied_clear]
  split <;> omega

/-- A table that is not full has a free slot. -/
theorem freeSlot_of_lt (h : occupied s < minSysTagServices) : (freeSlot s).isSome := by
  have hlt : count (fun p : Ptr => p.isSome) s.slots < Fintype.card (Fin minSysTagServices) := by
    rwa [Fintype.card_fin]
  obtain ⟨i, hi⟩ := exists_not_of_count_lt hlt
  rw [freeSlot, List.find?_isSome]
  exact ⟨i, List.mem_finRange i, by simpa using hi⟩

theorem occupied_full (h : ∀ i, (s.slots i).isSome) : occupied s = minSysTagServices := by
  have hall : count (fun p : Ptr => p.isSome) s.slots = _ := count_eq_of_forall h
  rwa [Fintype.card_fin] at hall

variable [Fintype τ]

/-- A capacity test that is passed leaves a slot for the creator that passes it, after those that
are on their way. -/
def LeavesRoom (s : St τ) (l : τ × Act) : Prop :=
  match s.pc l.1 with
  | .creating .. => s.serviceCount < UInt32.ofNat minSysTagServices →
      occupied s + count Pc.OnItsWay s.pc < minSysTagServices
  | _ => True

instance (s : St τ) (l : τ × Act) : Decidable (LeavesRoom s l) := by
  unfold LeavesRoom
  generalize s.pc l.1 = p
  rcases p <;> dsimp only <;> infer_instance

/-- There is a slot for every creator on its way. -/
def Roomy (s : St τ) : Prop := occupied s + count Pc.OnItsWay s.pc ≤ minSysTagServices

theorem roomy_initial : Roomy (initial : St τ) := by
  have hslots : occupied (initial : St τ) = 0 := count_eq_zero fun _ h => by cases h
  have hpc : count Pc.OnItsWay (initial : St τ).pc = 0 := count_eq_zero fun _ => id
  rw [Roomy, hslots, hpc]
  decide

/-! ## Steps -/

theorem Roomy.outside {pc : τ → Pc} (h : Roomy s)
    (hpc : ∀ u, pc u = s.pc u ∨ (s.pc u).Stops ∧ (pc u).Outside) : Roomy { s with pc := pc } := by
  have hle : count Pc.OnItsWay pc ≤ count Pc.OnItsWay s.pc := by
    refine count_le_count fun u hu => ?_
    rcases hpc u with heq | ⟨_, hout⟩
    · rwa [heq] at hu
    · exact absurd hu hout.not_onItsWay
  exact le_trans (add_le_add (le_refl (occupied s)) hle) h

variable [DecidableEq τ]

/-- A thread moves on, and no slot fills up. -/
theorem Roomy.goto (h : Roomy s) (hslots : occupied s' ≤ occupied s) (hpc : s'.pc = s.pc)
    (hq : q.OnItsWay → (s.pc t).OnItsWay) : Roomy (s'.goto t q) := by
  have hcount : count Pc.OnItsWay (s'.goto t q).pc = _ := count_update t q
  have hind : (if q.OnItsWay then (1 : Int) else 0) ≤ if (s.pc t).OnItsWay then 1 else 0 := by
    by_cases hw : q.OnItsWay
    · rw [if_pos hw, if_pos (hq hw)]
    · rw [if_neg hw]
      exact ind_nonneg _
  rw [Roomy] at h ⊢
  rw [hcount, hpc]
  have hsame : occupied (s'.goto t q) = occupied s' := rfl
  omega

theorem Roomy.stay (h : Roomy s) (hq : q.OnItsWay → (s.pc t).OnItsWay) : Roomy (s.goto t q) :=
  h.goto (le_refl _) rfl hq

theorem Roomy.lockOp {op : LockOp} (h : Roomy s) (hq : q.OnItsWay → (s.pc t).OnItsWay) :
    Roomy ((s.lockOp op).goto t q) :=
  h.goto (le_refl _) rfl hq

theorem Roomy.addCount (h : Roomy s) (d : UInt32) (hq : ¬ q.OnItsWay) :
    Roomy ((s.addCount d).goto t q) := by
  have hslots : occupied (s.addCount d) ≤ occupied s := le_refl _
  exact h.goto hslots rfl fun hw => absurd hw hq

/-- A creator is admitted. -/
theorem Roomy.enter (h : occupied s + count Pc.OnItsWay s.pc < minSysTagServices) :
    Roomy (s.goto t q) := by
  have hcount : count Pc.OnItsWay (s.goto t q).pc = _ := count_update t q
  have hold := ind_nonneg (P := Pc.OnItsWay) (s.pc t)
  have hnew : (if q.OnItsWay then (1 : Int) else 0) ≤ 1 := by split <;> decide
  rw [Roomy, hcount]
  have hsame : occupied (s.goto t q) = occupied s := rfl
  omega

/-- A creator takes the slot there is for it. -/
theorem Roomy.fill (h : Roomy s) (hi : s.slots i = none) (hp : (s.pc t).OnItsWay)
    (hq : ¬ q.OnItsWay) : Roomy ((s.fill i service).goto t q) := by
  have hcount : count Pc.OnItsWay ((s.fill i service).goto t q).pc = _ := count_update t q
  have hfill : occupied ((s.fill i service).goto t q) = occupied s + 1 :=
    occupied_fill service hi
  have hpc : (s.fill i service).pc = s.pc := rfl
  rw [Roomy] at h ⊢
  rw [hcount, hfill, hpc, if_pos hp, if_neg hq]
  omega

theorem roomy_move {l : τ × Act} (hpl : Placed s) (h : Roomy s) (hok : LeavesRoom s l)
    (hm : Move s l.1 s') : Roomy s' := by
  cases hm with
  | outside pc hpc => exact h.outside hpc
  | enter hp hcount =>
      simp only [LeavesRoom, hp] at hok
      exact .enter (hok hcount)
  | writeLock hp hgrant => exact h.lockOp fun _ => hp ▸ trivial
  | search hp | choose hp => exact h.stay fun _ => hp ▸ trivial
  | fill hp =>
      have hi := hpl.sound l.1
      rw [hp] at hi
      exact h.fill hi (hp ▸ trivial) id
  | count hp | raise hp | discount hp => exact h.addCount _ id
  | unlock hp | readLock hp | stray hp => exact h.lockOp False.elim
  | writeUnlock hp hq | readUnlock hp hq => exact h.lockOp fun hw => absurd hw hq.not_onItsWay
  | refuse hp | permit hp | look hp | load hp => exact h.stay False.elim
  | find hp hq => rcases hq with rfl | ⟨a, rfl⟩ <;> exact h.stay False.elim
  | clear hp => exact h.goto occupied_clear_le rfl False.elim
  | @kfree a tmp hp => cases tmp <;> exact h.goto (le_refl _) rfl False.elim
  | finish hp => exact h.goto (le_refl _) rfl False.elim

/-! ## The result -/

/-- No `AWAKE_ALL` releases the lock of a creator, and every admission leaves room. -/
def Guarded (s : St τ) (l : τ × Act) : Prop := UnlocksOwn s l ∧ LeavesRoom s l

instance (s : St τ) (l : τ × Act) : Decidable (Guarded s l) := inferInstanceAs (Decidable (_ ∧ _))

/-- A creator in `new_TAG_Service` finds a slot, and a full table answers `-ETOOMANYREFS`, which is
the only way from the capacity test to the end of the call. -/
structure Covered (s : St τ) : Prop where
  slot : ∀ u c key perm, s.pc u = .choosing c key perm → (freeSlot s).isSome
  full : ∀ u c key perm, s.pc u = .creating c key perm → (∀ i, (s.slots i).isSome) →
    Guarded s (u, .advance) → step s (u, .advance) = some (s.goto u .idle)

/-- In every run in which every admission leaves room, for any number of threads and calls, no
creator gets `NULL` from `new_TAG_Service`. -/
theorem capacity_covered (h : Reached (table τ) Guarded s) : Covered s := by
  have hinv : Locked s ∧ Placed s ∧ Roomy s := by
    refine h.invariant (I := fun s => Locked s ∧ Placed s ∧ Roomy s) ?_ ?_
    · rintro _ rfl
      exact ⟨locked_initial, placed_initial, roomy_initial⟩
    · rintro s l s' ⟨hl, hp, hr⟩ hok hs
      have hm := move_of_step (hl.held _) hs
      exact ⟨locked_step hl hok.1 hs, placed_move hl hp hm, roomy_move hp hr hok.2 hm⟩
  obtain ⟨_, _, hroom⟩ := hinv
  refine ⟨fun u c key perm hu => freeSlot_of_lt ?_, fun u c key perm hu hfull hok => ?_⟩
  · have hpos : 0 < count Pc.OnItsWay s.pc := count_pos (t := u) (hu ▸ trivial)
    have hle : occupied s + count Pc.OnItsWay s.pc ≤ minSysTagServices := hroom
    omega
  · have hnot : ¬ s.serviceCount < UInt32.ofNat minSysTagServices := by
      intro hlt
      have hroom := hok.2
      simp only [LeavesRoom, hu] at hroom
      have hlt := hroom hlt
      have hnonneg : 0 ≤ count Pc.OnItsWay s.pc := count_nonneg
      rw [occupied_full hfull] at hlt
      omega
    simp [step, advance, hu, UInt32.not_lt.mp hnot]

/-! ## A run with the last slot -/

section LastSlot

omit [Fintype τ]

theorem pc_goto_self : (s.goto t p).pc t = p := Function.update_self ..

theorem goto_goto : (s.goto t p).goto t q = s.goto t q := by
  simp [St.goto]

theorem lockOp_goto (op : LockOp) : (s.goto t p).lockOp op = (s.lockOp op).goto t p := rfl

theorem addCount_goto (d : UInt32) : (s.goto t p).addCount d = (s.addCount d).goto t p := rfl

theorem fill_goto : (s.goto t p).fill i service = (s.fill i service).goto t p := rfl

theorem freeSlot_goto : freeSlot (s.goto t p) = freeSlot s := rfl

end LastSlot

/-- The next step of a thread that stands at `p`, past its capacity test. -/
theorem reached_advance (h : Reached (table τ) Guarded (s.goto t p))
    (hp : p ≠ .awoken ∧ ∀ c key perm, p ≠ .creating c key perm)
    (hs : advance (s.goto t p) t = some (s'.goto t q)) :
    Reached (table τ) Guarded (s'.goto t q) := by
  refine h.step (l := (t, .advance)) ⟨fun hpc => absurd (pc_goto_self.symm.trans hpc) hp.1, ?_⟩ hs
  unfold LeavesRoom
  split
  · rename_i c key perm hpc
    exact absurd (pc_goto_self.symm.trans hpc) (hp.2 c key perm)
  · trivial

/-- The table after a creator of a private service that met nobody. -/
def St.withPrivate (s : St τ) (i : Fin minSysTagServices) : St τ :=
  (((s.lockOp .writeLock).fill i (newService root tagIpcPrivate openRoom i)).lockOp
    .writeUnlock).addCount 1

theorem reached_withPrivate (h : Reached (table τ) Guarded s) (hidle : s.pc t = .idle)
    (hlock : s.lock = .free) (hcount : s.serviceCount < UInt32.ofNat minSysTagServices)
    (hroom : occupied s + count Pc.OnItsWay s.pc < minSysTagServices)
    (hfree : freeSlot s = some i) :
    Reached (table τ) Guarded ((s.withPrivate i).goto t .idle) := by
  have hnot : ¬ s.serviceCount ≥ UInt32.ofNat minSysTagServices := UInt32.not_le.mpr hcount
  have hcreating : Reached (table τ) Guarded (s.goto t (.creating root tagIpcPrivate openRoom)) := by
    refine h.step (l := (t, .create root tagIpcPrivate openRoom)) ⟨fun hpc => ?_, ?_⟩ (if_pos hidle)
    · rw [hidle] at hpc
      cases hpc
    · simp [LeavesRoom, hidle]
  have hadmitted : Reached (table τ) Guarded
      (s.goto t (.admitted root tagIpcPrivate openRoom)) := by
    refine hcreating.step (l := (t, .advance)) ⟨fun hpc => ?_, ?_⟩ ?_
    · cases pc_goto_self.symm.trans hpc
    · -- the creator is not on its way yet
      have hsame : count Pc.OnItsWay (s.goto t (.creating root tagIpcPrivate openRoom)).pc =
          count Pc.OnItsWay s.pc := count_update_of_iff (by rw [hidle]; exact Iff.rfl)
      simp only [LeavesRoom, pc_goto_self, hsame]
      exact fun _ => hroom
    · show advance _ t = _
      simp only [advance, pc_goto_self, goto_goto]
      rw [if_neg (by exact hnot)]
  have hwriting : Reached (table τ) Guarded
      ((s.lockOp .writeLock).goto t (.writing root tagIpcPrivate openRoom)) := by
    refine reached_advance hadmitted (by simp) ?_
    simp only [advance, pc_goto_self, St.acquire, lockOp_goto, goto_goto]
    exact if_pos (by rw [St.goto, hlock]; exact free_grants _)
  have hchoosing : Reached (table τ) Guarded
      ((s.lockOp .writeLock).goto t (.choosing root tagIpcPrivate openRoom)) := by
    refine reached_advance hwriting (by simp) ?_
    simp only [advance, pc_goto_self, if_true, goto_goto]
  have hfilling : Reached (table τ) Guarded
      ((s.lockOp .writeLock).goto t (.filling root tagIpcPrivate openRoom i)) := by
    refine reached_advance hchoosing (by simp) ?_
    have hfree' : freeSlot (s.lockOp .writeLock) = some i := hfree
    simp only [advance, pc_goto_self, freeSlot_goto, hfree', goto_goto]
  have hfilled := reached_advance (q := .filled tagIpcPrivate s.brk) hfilling (by simp) (by
    simp only [advance, pc_goto_self, goto_goto, fill_goto]
    rfl)
  have hunlocked := reached_advance (q := .unlocked s.brk) hfilled (by simp) (by
    simp only [advance, pc_goto_self, goto_goto, lockOp_goto, if_true]
    rfl)
  have hcreated := reached_advance (q := .created s.brk) hunlocked (by simp) (by
    simp only [advance, pc_goto_self, goto_goto, addCount_goto]
    rfl)
  refine reached_advance hcreated (by simp) ?_
  simp only [advance, pc_goto_self, goto_goto, St.access]
  simp [St.withPrivate, St.goto, St.addCount, St.lockOp, St.fill]

/-- The first `n` slots hold private services, and nothing is going on. -/
def stocked (n : Nat) : St (Fin 2) :=
  { (initial : St (Fin 2)) with
    slots := fun i => if i.val < n then some i.val else none
    serviceCount := UInt32.ofNat n
    services := fun a =>
      if h : a < minSysTagServices then
        if a < n then some (newService root tagIpcPrivate openRoom ⟨a, h⟩) else none
      else none
    brk := n }

theorem stocked_succ {n : Nat} (hn : n < minSysTagServices) :
    ((stocked n).withPrivate ⟨n, hn⟩).goto 0 .idle = stocked (n + 1) := by
  have hslots : Function.update (stocked n).slots ⟨n, hn⟩ (some n) = (stocked (n + 1)).slots := by
    funext i
    by_cases hi : i = ⟨n, hn⟩
    · simp [stocked, hi]
    · have hne : i.val ≠ n := fun h => hi (Fin.ext h)
      have hlt : i.val < n ↔ i.val < n + 1 := by omega
      rw [Function.update_of_ne hi]
      show (if i.val < n then some i.val else none) = if i.val < n + 1 then some i.val else none
      rw [if_congr hlt rfl rfl]
  have hservices : Function.update (stocked n).services n
      (some (newService root tagIpcPrivate openRoom ⟨n, hn⟩)) = (stocked (n + 1)).services := by
    funext a
    by_cases ha : a = n
    · subst ha
      simp [stocked, hn]
    · have hlt : a < n ↔ a < n + 1 :=
        ⟨Nat.lt_succ_of_lt, fun h => Nat.lt_of_le_of_ne (Nat.le_of_lt_succ h) ha⟩
      rw [Function.update_of_ne ha]
      unfold stocked
      by_cases hsize : a < minSysTagServices
      · simp only [dif_pos hsize]
        rw [if_congr hlt rfl rfl]
      · simp only [dif_neg hsize]
  have hcount : UInt32.ofNat n + 1 = UInt32.ofNat (n + 1) := (UInt32.ofNat_add n 1).symm
  have hpc : Function.update (fun _ : Fin 2 => Pc.idle) 0 .idle = fun _ => .idle :=
    Function.update_eq_self (f := fun _ => Pc.idle) 0
  simp only [St.withPrivate, St.goto, St.addCount, St.lockOp, St.fill, stocked, initial] at *
  rw [hslots, hservices, hcount, hpc]
  rfl

theorem freeSlot_stocked {n : Nat} (hn : n < minSysTagServices) :
    freeSlot (stocked n) = some ⟨n, hn⟩ := by
  rw [freeSlot, List.find?_eq_some_iff_getElem]
  refine ⟨by simp [stocked], n, by simpa using hn, by simp, fun j hj => ?_⟩
  simp [stocked, hj]

theorem occupied_stocked {n : Nat} (hn : n ≤ minSysTagServices) : occupied (stocked n) = n := by
  induction n with
  | zero => exact count_eq_zero fun i hi => by simp [stocked] at hi
  | succ n ih =>
      rw [← stocked_succ hn]
      have hempty : (stocked n).slots ⟨n, hn⟩ = none := by simp [stocked]
      have hfill : occupied (((stocked n).withPrivate ⟨n, hn⟩).goto 0 .idle) =
          occupied (stocked n) + 1 :=
        occupied_fill (newService root tagIpcPrivate openRoom ⟨n, hn⟩) hempty
      rw [hfill, ih (Nat.le_of_lt hn)]
      rfl

theorem reached_stocked {n : Nat} (hn : n ≤ minSysTagServices) :
    Reached (table (Fin 2)) Guarded (stocked n) := by
  induction n with
  | zero =>
      refine .start ?_
      have hservices : (fun a => if h : a < minSysTagServices then
          if a < 0 then some (newService root tagIpcPrivate openRoom ⟨a, h⟩) else none
        else none) = (initial : St (Fin 2)).services := by
        funext a
        simp [initial]
      simp only [table, System.ofStep, stocked, hservices]
      simp [initial]
  | succ n ih =>
      rw [← stocked_succ hn]
      refine reached_withPrivate (ih (Nat.le_of_lt hn)) rfl rfl ?_ ?_ (freeSlot_stocked hn)
      · simp only [stocked]
        exact UInt32.ofNat_lt_iff_lt (lt_trans hn (by decide)) (by decide) |>.mpr hn
      · have hnone : count Pc.OnItsWay (stocked n).pc = 0 := count_eq_zero fun _ => id
        rw [occupied_stocked (Nat.le_of_lt hn), hnone]
        exact_mod_cast hn

/-- Both threads pass the capacity test; thread 0 takes a slot and returns. -/
def overbooked : List (Fin 2 × Act) :=
  (0, .create root tagIpcPrivate openRoom) :: steps 0 1 ++
    (1, .create root tagIpcPrivate openRoom) :: steps 1 1 ++ steps 0 7

/-- Without the guard: a creator that passed the capacity test finds no slot; it answers `-EBADR`
with the write lock held. -/
theorem capacity_exceeded :
    (∃ s, Reached (table (Fin 2)) Always s ∧
      s.pc 1 = .choosing root tagIpcPrivate openRoom ∧ freeSlot s = none) ∧
    ∃ s, Reached (table (Fin 2)) Always s ∧
      s.pc 0 = .idle ∧ s.pc 1 = .idle ∧ s.lock.writer = true := by
  have hstocked : Reached (table (Fin 2)) Always (stocked 255) :=
    (reached_stocked (by decide)).weaken fun _ _ _ => trivial
  exact ⟨hstocked.exists_of_replay (overbooked ++ steps 1 2) (by decide +kernel),
    hstocked.exists_of_replay (overbooked ++ steps 1 3) (by decide +kernel)⟩

/-- Under the guard, at its bound: with 254 services in the table both threads are admitted before
either has its slot. -/
theorem capacity_covered_both : ∃ s, Reached (table (Fin 2)) Guarded s ∧
    (occupied s = 255 ∧ ∃ c key perm, s.pc 1 = .choosing c key perm) ∧ Covered s := by
  obtain ⟨s, hs, hslots, hp⟩ : ∃ s, Reached (table (Fin 2)) Guarded s ∧
      occupied s = 255 ∧ s.pc 1 = .choosing root tagIpcPrivate openRoom :=
    (reached_stocked (n := 254) (by decide)).exists_of_replay (overbooked ++ steps 1 2)
      (by decide +kernel)
  exact ⟨s, hs, ⟨hslots, _, _, _, hp⟩, capacity_covered hs⟩

end TagMessaging.Table
