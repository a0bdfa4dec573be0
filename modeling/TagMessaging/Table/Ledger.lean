/-
# TagMessaging.Table.Ledger -- one removal for each service, and an exact counter

Two calls of `REMOVE` may hold the read lock together and find the same service; both then load its
slot, clear it, free what they loaded and lower the counter. And a private service is in its slot
before its creator has raised the counter, so that `REMOVE` may lower it first, below zero.

A service is removed once, and the counter follows the slots, as long as no two calls of `REMOVE`
are past the permission check for one service (`OneRemover`) and a service is freed when no other
call has still to access it (`FreedLast`).
-/
import TagMessaging.Table.Capacity

namespace TagMessaging.Table

open TagMessaging.Model TagMessaging.Lib.Transition TagMessaging.Lib.RwLock TagMessaging.Lib.Tally

variable {τ : Type} {s s' : St τ} {t u v : τ} {p q : Pc} {a b : Addr} {tmp : Ptr}
variable {i : Fin minSysTagServices} {service : TAGService}

/-! ## What a thread owes -/

/-- A `REMOVE` of the service, permitted, up to its `kfree`. -/
def Pc.Removes (b : Addr) : Pc → Prop
  | .checked a | .unused a | .loaded a _ | .cleared a _ => a = b
  | _ => False

/-- `REMOVE` has loaded the service it found. -/
def Pc.Own : Pc → Prop
  | .loaded b tmp | .cleared b tmp => tmp = some b
  | _ => True

/-- The creator of the service `a` has filled its slot and not raised the counter. -/
def Pc.Uncounted (a : Addr) : Pc → Prop
  | .filled _ b | .unlocked b => b = a
  | _ => False

/-- Such a creator, of any service. -/
def Pc.OwesRaise : Pc → Prop
  | .filled .. | .unlocked _ => True
  | _ => False

/-- A `REMOVE` that has cleared its slot and not lowered the counter. -/
def Pc.OwesLower : Pc → Prop
  | .cleared .. | .freed _ => True
  | _ => False

/-- A `REMOVE` that has freed the service `b` and not returned. -/
def Pc.Finishes (b : Addr) : Pc → Prop
  | .freed a | .discounted a => a = b
  | _ => False

/-- A `REMOVE` that has taken a service out and not freed it. -/
def Pc.TakesOut : Pc → Prop
  | .cleared .. => True
  | _ => False

instance (p : Pc) : Decidable p.TakesOut := by
  rcases p <;> dsimp only [Pc.TakesOut] <;> infer_instance

instance (b : Addr) (p : Pc) : Decidable (p.Removes b) := by
  rcases p <;> dsimp only [Pc.Removes] <;> infer_instance

instance (p : Pc) : Decidable p.OwesRaise := by
  rcases p <;> dsimp only [Pc.OwesRaise] <;> infer_instance

instance (p : Pc) : Decidable p.OwesLower := by
  rcases p <;> dsimp only [Pc.OwesLower] <;> infer_instance

instance (b : Addr) (p : Pc) : Decidable (p.Finishes b) := by
  rcases p <;> dsimp only [Pc.Finishes] <;> infer_instance

theorem Pc.OwesRaise.exists_uncounted (h : p.OwesRaise) : ∃ a, p.Uncounted a := by
  cases p <;> first | exact ⟨_, rfl⟩ | exact h.elim

theorem Pc.Uncounted.eq (ha : p.Uncounted a) (hb : p.Uncounted b) : a = b := by
  cases p <;> first | exact ha.symm.trans hb | exact ha.elim

theorem Pc.Uncounted.touches (h : p.Uncounted a) : p.Touches a := by
  cases p <;> first | exact h | exact h.elim

/-- A place where a thread owes nothing and removes nothing. -/
def Pc.Clear : Pc → Prop
  | .filled .. | .unlocked _ | .checked _ | .unused _ | .loaded .. | .cleared .. | .freed _
  | .discounted _ => False
  | _ => True

/-- What that means. -/
structure Pc.Nothing (p : Pc) : Prop where
  removes : ∀ b, ¬ p.Removes b
  own : p.Own
  uncounted : ∀ a, ¬ p.Uncounted a
  raise : ¬ p.OwesRaise
  lower : ¬ p.OwesLower
  finishes : ∀ b, ¬ p.Finishes b

theorem Pc.Clear.nothing (h : p.Clear) : p.Nothing := by
  cases p <;> first
    | exact ⟨fun _ => id, trivial, fun _ => id, id, id, fun _ => id⟩
    | exact h.elim

theorem Pc.Outside.clear (h : p.Outside) : p.Clear := by
  cases p <;> trivial

/-- A thread that may stop owes nothing either. -/
theorem Pc.Stops.owes_nothing (h : p.Stops) :
    (∀ a, ¬ p.Uncounted a) ∧ ¬ p.OwesRaise ∧ ¬ p.OwesLower ∧ ∀ b, ¬ p.Finishes b := by
  cases p <;> first | exact ⟨fun _ => id, id, id, fun _ => id⟩ | exact h.elim

/-- At most one thread has the property, for each service. -/
def Unique (R : Addr → Pc → Prop) (pc : τ → Pc) : Prop :=
  ∀ u v a, R a (pc u) → R a (pc v) → u = v

theorem Unique.mono {R : Addr → Pc → Prop} {pc pc' : τ → Pc} (h : Unique R pc)
    (hpc : ∀ u a, R a (pc' u) → R a (pc u)) : Unique R pc' :=
  fun u v a hu hv => h u v a (hpc u a hu) (hpc v a hv)

/-- One thread moves: what it has now it had before, or nobody else has. -/
theorem Unique.update [DecidableEq τ] {R : Addr → Pc → Prop} {pc : τ → Pc} (h : Unique R pc)
    (hq : ∀ a, R a q → R a (pc t) ∨ ∀ u, u ≠ t → ¬ R a (pc u)) :
    Unique R (Function.update pc t q) := by
  have other : ∀ {u}, u ≠ t → ∀ a, R a (Function.update pc t q u) ↔ R a (pc u) := by
    intro u hu a
    rw [Function.update_of_ne hu]
  have self : ∀ {u}, u ≠ t → ∀ a, R a (Function.update pc t q t) → R a (pc u) → u = t := by
    intro u hu a hself hother
    rw [Function.update_self] at hself
    rcases hq a hself with hold | hnone
    · exact h u t a hother hold
    · exact absurd hother (hnone u hu)
  intro u v a hu hv
  by_cases hut : u = t
  · by_cases hvt : v = t
    · rw [hut, hvt]
    · subst hut
      exact (self hvt a hu ((other hvt a).mp hv)).symm
  · by_cases hvt : v = t
    · subst hvt
      exact self hut a hv ((other hut a).mp hu)
    · exact h u v a ((other hut a).mp hu) ((other hvt a).mp hv)

/-! ## The invariant -/

variable [Fintype τ]

/-- The invariant. -/
structure Ledger (s : St τ) : Prop where
  -- removals
  removers : Unique Pc.Removes s.pc
  own : ∀ u, (s.pc u).Own
  kept : ∀ a, (s.services a).isSome → s.freed a = 0
  fresh : ∀ a, s.brk ≤ a → s.freed a = 0
  once : ∀ a, s.freed a ≤ 1
  finished : ∀ a, (s.removals a : Int) + count (Pc.Finishes a) s.pc ≤ s.freed a
  -- the counter
  creators : Unique Pc.Uncounted s.pc
  sum : (s.serviceCount.toNat : Int) =
    occupied s - count Pc.OwesRaise s.pc + count Pc.OwesLower s.pc
  room : occupied s + count Pc.OwesLower s.pc ≤ minSysTagServices

theorem ledger_initial : Ledger (initial : St τ) where
  removers := fun _ _ _ hu => hu.elim
  own := fun _ => trivial
  kept := fun _ _ => rfl
  fresh := fun _ _ => rfl
  once := fun _ => Nat.zero_le 1
  finished := fun a => by
    have hzero : count (Pc.Finishes a) (initial : St τ).pc = 0 := count_eq_zero fun _ => id
    rw [hzero]
    exact le_refl _
  creators := fun _ _ _ hu => hu.elim
  sum := by
    have hslots : occupied (initial : St τ) = 0 := count_eq_zero fun _ h => by cases h
    have hraise : count Pc.OwesRaise (initial : St τ).pc = 0 := count_eq_zero fun _ => id
    have hlower : count Pc.OwesLower (initial : St τ).pc = 0 := count_eq_zero fun _ => id
    rw [hslots, hraise, hlower]
    rfl
  room := by
    have hslots : occupied (initial : St τ) = 0 := count_eq_zero fun _ h => by cases h
    have hlower : count Pc.OwesLower (initial : St τ).pc = 0 := count_eq_zero fun _ => id
    rw [hslots, hlower]
    decide

/-! ## Steps -/

theorem Ledger.lockOp (h : Ledger s) (op : LockOp) : Ledger (s.lockOp op) :=
  ⟨h.removers, h.own, h.kept, h.fresh, h.once, h.finished, h.creators, h.sum, h.room⟩

theorem Ledger.outside {pc : τ → Pc} (h : Ledger s)
    (hpc : ∀ u, pc u = s.pc u ∨ (s.pc u).Stops ∧ (pc u).Outside) : Ledger { s with pc := pc } := by
  have removes : ∀ u b, (pc u).Removes b → (s.pc u).Removes b := by
    intro u b hu
    rcases hpc u with heq | ⟨_, hout⟩
    · rwa [heq] at hu
    · exact absurd hu (hout.clear.nothing.removes b)
  have uncounted : ∀ u a, (pc u).Uncounted a → (s.pc u).Uncounted a := by
    intro u a hu
    rcases hpc u with heq | ⟨_, hout⟩
    · rwa [heq] at hu
    · exact absurd hu (hout.stops.owes_nothing.1 a)
  have raise : count Pc.OwesRaise pc = count Pc.OwesRaise s.pc := by
    refine count_congr fun u => ?_
    rcases hpc u with heq | ⟨hstops, hout⟩
    · rw [heq]
    · exact iff_of_false hout.stops.owes_nothing.2.1 hstops.owes_nothing.2.1
  have lower : count Pc.OwesLower pc = count Pc.OwesLower s.pc := by
    refine count_congr fun u => ?_
    rcases hpc u with heq | ⟨hstops, hout⟩
    · rw [heq]
    · exact iff_of_false hout.stops.owes_nothing.2.2.1 hstops.owes_nothing.2.2.1
  have finishes : ∀ a, count (Pc.Finishes a) pc = count (Pc.Finishes a) s.pc := by
    refine fun a => count_congr fun u => ?_
    rcases hpc u with heq | ⟨hstops, hout⟩
    · rw [heq]
    · exact iff_of_false (hout.stops.owes_nothing.2.2.2 a) (hstops.owes_nothing.2.2.2 a)
  refine ⟨h.removers.mono removes, fun u => ?_, h.kept, h.fresh, h.once, fun a => ?_,
    h.creators.mono uncounted, ?_, ?_⟩
  · rcases hpc u with heq | ⟨_, hout⟩
    · simpa [heq] using h.own u
    · exact hout.clear.nothing.own
  · simpa [finishes a] using h.finished a
  · have hsum := h.sum
    rw [← raise, ← lower] at hsum
    exact hsum
  · have hroom := h.room
    rw [← lower] at hroom
    exact hroom

/-- The counter is not 0 when a `REMOVE` lowers it: each creator that has not raised it filled a
slot that is still full, or one that somebody else has cleared. -/
theorem Ledger.pos (h : Ledger s) (hlife : Lifetimes s) (hplaced : Placed s)
    (hp : s.pc t = .freed b) : 0 < s.serviceCount.toNat := by
  have hmatch : count Pc.OwesRaise s.pc ≤
      count (fun p : Ptr => p.isSome) s.slots + count Pc.TakesOut s.pc := by
    refine count_le_add (fun u i => ∃ a, (s.pc u).Uncounted a ∧ s.slots i = some a)
      (fun u v => ∃ a, (s.pc u).Uncounted a ∧ ∃ b, s.pc v = .cleared b (some a)) ?_ ?_ ?_
    · intro u hu
      obtain ⟨a, ha⟩ := hu.exists_uncounted
      rcases hplaced.homed a (hlife.live ha.touches) with ⟨i, hi⟩ | ⟨v, c, hv⟩
      · exact .inl ⟨i, by simp [hi], a, ha, hi⟩
      · exact .inr ⟨v, hv ▸ trivial, a, ha, c, hv⟩
    · rintro u v i - - ⟨a, ha, hi⟩ ⟨c, hc, hi'⟩
      obtain rfl : a = c := Option.some.inj (hi.symm.trans hi')
      exact h.creators u v a ha hc
    · rintro u v w - - ⟨a, ha, d, hw⟩ ⟨c, hc, e, hw'⟩
      obtain ⟨_, hac⟩ := Pc.cleared.inj (hw.symm.trans hw')
      obtain rfl : a = c := Option.some.inj hac
      exact h.creators u v a ha hc
  have hmore : count Pc.TakesOut s.pc < count Pc.OwesLower s.pc := by
    refine count_lt_count (t := t) (fun u hu => ?_) (hp ▸ trivial) (by rw [hp]; exact id)
    cases hpc : s.pc u <;> rw [hpc] at hu <;> trivial
  have hsum := h.sum
  have hocc : occupied s = count (fun p : Ptr => p.isSome) s.slots := rfl
  omega

/-- The service a `REMOVE` is about to take out is in its slot. -/
theorem Ledger.slot (h : Ledger s) (hlife : Lifetimes s) (hplaced : Placed s)
    (hp : s.pc t = .unused b ∨ ∃ tmp, s.pc t = .loaded b tmp) (hi : slotOf s.services b = some i) :
    s.slots i = some b := by
  have htouches : (s.pc t).Touches b := by
    rcases hp with hp | ⟨tmp, hp⟩ <;> rw [hp]
    · rfl
    · exact .inl rfl
  have hremoves : (s.pc t).Removes b := by
    rcases hp with hp | ⟨tmp, hp⟩ <;> rw [hp] <;> rfl
  rcases hplaced.homed b (hlife.live htouches) with ⟨j, hj⟩ | ⟨u, c, hu⟩
  · obtain rfl : i = j := Option.some.inj (hi.symm.trans (hlife.slots j b hj))
    exact hj
  · -- nobody else removes it, and this thread has not cleared the slot
    have hown := h.own u
    rw [hu] at hown
    obtain rfl : b = c := Option.some.inj hown
    obtain rfl : u = t := h.removers u t b (by rw [hu]; rfl) hremoves
    rcases hp with hp | ⟨tmp, hp⟩ <;> exact Pc.noConfusion (hu.symm.trans hp)

variable [DecidableEq τ]

/-- A thread moves on within what it owes. -/
theorem Ledger.goto (h : Ledger s)
    (hremoves : ∀ b, q.Removes b → (s.pc t).Removes b ∨ ∀ u, u ≠ t → ¬ (s.pc u).Removes b)
    (hown : q.Own) (huncounted : ∀ a, q.Uncounted a → (s.pc t).Uncounted a)
    (hraise : q.OwesRaise ↔ (s.pc t).OwesRaise) (hlower : q.OwesLower ↔ (s.pc t).OwesLower)
    (hfinishes : ∀ b, q.Finishes b → (s.pc t).Finishes b) : Ledger (s.goto t q) where
  removers := h.removers.update hremoves
  own := forall_goto h.own hown
  kept := h.kept
  fresh := h.fresh
  once := h.once
  finished := fun a => by
    have hle : count (Pc.Finishes a) (s.goto t q).pc ≤ count (Pc.Finishes a) s.pc :=
      count_update_of_imp (hfinishes a)
    exact le_trans (add_le_add (le_refl _) hle) (h.finished a)
  creators := h.creators.update fun a ha => .inl (huncounted a ha)
  sum := by
    have hr : count Pc.OwesRaise (s.goto t q).pc = _ := count_update_of_iff hraise
    have hl : count Pc.OwesLower (s.goto t q).pc = _ := count_update_of_iff hlower
    rw [hr, hl]
    exact h.sum
  room := by
    have hl : count Pc.OwesLower (s.goto t q).pc = _ := count_update_of_iff hlower
    rw [hl]
    exact h.room

/-- A thread that owes nothing goes where it owes nothing. -/
theorem Ledger.stay (h : Ledger s) (hp : (s.pc t).Clear) (hq : q.Clear) : Ledger (s.goto t q) :=
  h.goto (fun b hb => absurd hb (hq.nothing.removes b)) hq.nothing.own
    (fun a ha => absurd ha (hq.nothing.uncounted a))
    (iff_of_false hq.nothing.raise hp.nothing.raise)
    (iff_of_false hq.nothing.lower hp.nothing.lower)
    fun b hb => absurd hb (hq.nothing.finishes b)

/-- A record comes, in an empty slot. -/
theorem Ledger.fill (h : Ledger s) (hlive : ∀ u a, (s.pc u).Uncounted a → (s.services a).isSome)
    (hbelow : ∀ a, (s.services a).isSome → a ≠ s.brk) (hp : (s.pc t).Clear)
    (hi : s.slots i = none) (hlower : count Pc.OwesLower s.pc = 0) {key : Int32} :
    Ledger ((s.fill i service).goto t (.filled key s.brk)) := by
  have hraise : count Pc.OwesRaise ((s.fill i service).goto t (.filled key s.brk)).pc = _ :=
    count_update t (Pc.filled key s.brk)
  have hlower' : count Pc.OwesLower ((s.fill i service).goto t (.filled key s.brk)).pc = _ :=
    count_update_of_iff (iff_of_false id hp.nothing.lower)
  have hslots : occupied ((s.fill i service).goto t (.filled key s.brk)) = occupied s + 1 :=
    occupied_fill service hi
  have hfull : occupied s < minSysTagServices := by
    have hempty : ¬ (s.slots i).isSome := by simp [hi]
    have hlt : count (fun p : Ptr => p.isSome) s.slots < _ := count_lt_card hempty
    rwa [Fintype.card_fin] at hlt
  have hpc : (s.fill i service).pc = s.pc := rfl
  refine ⟨h.removers.update fun b hb => hb.elim, forall_goto (s := s.fill i service) h.own trivial,
    fun a ha => ?_, fun a ha => ?_, h.once, fun a => ?_, h.creators.update fun a ha => .inr ?_,
    ?_, ?_⟩
  · by_cases hab : a = s.brk
    · rw [hab]
      exact h.fresh s.brk (le_refl _)
    · exact h.kept a (by simpa [St.goto, St.fill, hab] using ha)
  · exact h.fresh a (Nat.le_of_lt ha)
  · have hle : count (Pc.Finishes a) ((s.fill i service).goto t (.filled key s.brk)).pc ≤
        count (Pc.Finishes a) s.pc := count_update_of_imp False.elim
    exact le_trans (add_le_add (le_refl _) hle) (h.finished a)
  · intro u _ hu
    obtain rfl : s.brk = a := ha
    exact hbelow _ (hlive u _ hu) rfl
  · have hsum := h.sum
    have hnew : (Pc.filled key s.brk).OwesRaise := trivial
    rw [hraise, hlower', hslots, hpc, if_neg hp.nothing.raise, if_pos hnew]
    have hcount : ((s.fill i service).goto t (.filled key s.brk)).serviceCount = s.serviceCount :=
      rfl
    rw [hcount]
    omega
  · rw [hlower', hslots, hpc, hlower]
    omega

/-- A creator raises the counter. -/
theorem Ledger.raise (h : Ledger s) (hp : (s.pc t).OwesRaise) (hpl : ¬ (s.pc t).OwesLower)
    (hq : q.Clear) : Ledger ((s.addCount 1).goto t q) := by
  have hraise : count Pc.OwesRaise ((s.addCount 1).goto t q).pc = _ := count_update t q
  have hlower : count Pc.OwesLower ((s.addCount 1).goto t q).pc = _ :=
    count_update_of_iff (iff_of_false hq.nothing.lower hpl)
  have hslots : occupied ((s.addCount 1).goto t q) = occupied s := rfl
  have hpc : (s.addCount 1).pc = s.pc := rfl
  have hpos : 0 < count Pc.OwesRaise s.pc := count_pos hp
  have hsum := h.sum
  have hroom := h.room
  refine ⟨h.removers.update fun b hb => absurd hb (hq.nothing.removes b),
    forall_goto (s := s.addCount 1) h.own hq.nothing.own, h.kept, h.fresh, h.once, fun a => ?_,
    h.creators.update fun a ha => absurd ha (hq.nothing.uncounted a), ?_, ?_⟩
  · have hle : count (Pc.Finishes a) ((s.addCount 1).goto t q).pc ≤ count (Pc.Finishes a) s.pc :=
      count_update_of_imp fun hf => absurd hf (hq.nothing.finishes a)
    exact le_trans (add_le_add (le_refl _) hle) (h.finished a)
  · have hcount : ((s.addCount 1).goto t q).serviceCount.toNat = s.serviceCount.toNat + 1 := by
      have hlt : s.serviceCount.toNat + 1 < 2 ^ 32 := by
        have hsize : minSysTagServices = 256 := rfl
        omega
      simpa [St.goto, St.addCount] using Nat.mod_eq_of_lt hlt
    rw [hraise, hlower, hslots, hpc, hcount, if_pos hp, if_neg hq.nothing.raise]
    omega
  · rw [hlower, hslots, hpc]
    exact hroom

/-- `REMOVE` clears the slot in which the service is. -/
theorem Ledger.clear (h : Ledger s) (hp : s.pc t = .loaded b tmp) (hi : (s.slots i).isSome) :
    Ledger ((s.clear i).goto t (.cleared b tmp)) := by
  have hraise : count Pc.OwesRaise ((s.clear i).goto t (.cleared b tmp)).pc = _ :=
    count_update_of_iff (iff_of_false id (by rw [show (s.clear i).pc t = _ from hp]; exact id))
  have hlower : count Pc.OwesLower ((s.clear i).goto t (.cleared b tmp)).pc = _ :=
    count_update t (Pc.cleared b tmp)
  have hslots : occupied ((s.clear i).goto t (.cleared b tmp)) = occupied s - 1 := by
    have hclear : occupied (s.clear i) = _ := occupied_clear
    rw [if_pos hi] at hclear
    exact hclear
  have hpc : (s.clear i).pc = s.pc := rfl
  have hnot : ¬ (s.pc t).OwesLower := by rw [hp]; exact id
  have hnew : (Pc.cleared b tmp).OwesLower := trivial
  have hsum := h.sum
  have hroom := h.room
  refine ⟨h.removers.update fun c hc => .inl ?_, forall_goto (s := s.clear i) h.own ?_, h.kept,
    h.fresh, h.once, fun a => ?_, h.creators.update fun a ha => ha.elim, ?_, ?_⟩
  · exact hp ▸ hc
  · have hown := h.own t
    rw [hp] at hown
    exact hown
  · have hle : count (Pc.Finishes a) ((s.clear i).goto t (.cleared b tmp)).pc ≤
        count (Pc.Finishes a) s.pc := count_update_of_imp False.elim
    exact le_trans (add_le_add (le_refl _) hle) (h.finished a)
  · have hcount : ((s.clear i).goto t (.cleared b tmp)).serviceCount = s.serviceCount := rfl
    rw [hraise, hlower, hslots, hpc, hcount, if_neg hnot, if_pos hnew]
    omega
  · rw [hlower, hslots, hpc, if_neg hnot, if_pos hnew]
    omega

/-- The service goes, for the first time. -/
theorem Ledger.kfree (h : Ledger s) (hp : s.pc t = .cleared b (some b))
    (hlive : (s.services b).isSome) (hb : b < s.brk) :
    Ledger ((s.kfree (some b)).goto t (.freed b)) := by
  have hpc : (s.kfree (some b)).pc t = .cleared b (some b) := hp
  have hraise : count Pc.OwesRaise ((s.kfree (some b)).goto t (.freed b)).pc = _ :=
    count_update_of_iff (iff_of_false id (by rw [hpc]; exact id))
  have hlower : count Pc.OwesLower ((s.kfree (some b)).goto t (.freed b)).pc = _ :=
    count_update_of_iff (iff_of_true trivial (by rw [hpc]; trivial))
  -- a live service was not freed before
  have hzero := h.kept b hlive
  refine ⟨h.removers.update fun c hc => hc.elim, forall_goto (s := s.kfree (some b)) h.own trivial,
    fun a ha => ?_, fun a ha => ?_, fun a => ?_, fun a => ?_, h.creators.update fun a ha =>
    ha.elim, ?_, ?_⟩
  · have hab : a ≠ b := by
      rintro rfl
      simp [St.goto, St.kfree] at ha
    have hold := h.kept a (by simpa [St.goto, St.kfree, hab] using ha)
    simpa [St.goto, St.kfree, hab] using hold
  · have hab : a ≠ b := fun hab => absurd ha (not_le.mpr (hab ▸ hb))
    simpa [St.goto, St.kfree, hab] using h.fresh a ha
  · by_cases hab : a = b
    · subst hab
      simp [St.goto, St.kfree, hzero]
    · simpa [St.goto, St.kfree, hab] using h.once a
  · have hcount : count (Pc.Finishes a) ((s.kfree (some b)).goto t (.freed b)).pc = _ :=
      count_update t (Pc.freed b)
    have hnot : ¬ ((s.kfree (some b)).pc t).Finishes a := by rw [hpc]; exact id
    have hsame : count (Pc.Finishes a) (s.kfree (some b)).pc = count (Pc.Finishes a) s.pc := rfl
    have hremovals : ((s.kfree (some b)).goto t (.freed b)).removals a = s.removals a := rfl
    have hold := h.finished a
    rw [hcount, if_neg hnot, hsame, hremovals]
    by_cases hab : b = a
    · subst hab
      have hfreed : ((s.kfree (some b)).goto t (.freed b)).freed b = s.freed b + 1 := by
        simp [St.goto, St.kfree]
      have hin : (Pc.freed b).Finishes b := rfl
      rw [hfreed, if_pos hin]
      push_cast
      omega
    · have hfreed : ((s.kfree (some b)).goto t (.freed b)).freed a = s.freed a := by
        simp [St.goto, St.kfree, Ne.symm hab]
      have hout : ¬ (Pc.freed b).Finishes a := hab
      rw [hfreed, if_neg hout]
      omega
  · rw [hraise, hlower]
    exact h.sum
  · rw [hlower]
    exact h.room

/-- `REMOVE` lowers the counter, which is not 0. -/
theorem Ledger.lower (h : Ledger s) (hp : s.pc t = .freed b) (hpos : 0 < s.serviceCount.toNat)
    (d : UInt32) (hd : d.toNat = 2 ^ 32 - 1) : Ledger ((s.addCount d).goto t (.discounted b)) := by
  have hpc : (s.addCount d).pc t = .freed b := hp
  have hraise : count Pc.OwesRaise ((s.addCount d).goto t (.discounted b)).pc = _ :=
    count_update_of_iff (iff_of_false id (by rw [hpc]; exact id))
  have hlower : count Pc.OwesLower ((s.addCount d).goto t (.discounted b)).pc = _ :=
    count_update t (Pc.discounted b)
  have hslots : occupied ((s.addCount d).goto t (.discounted b)) = occupied s := rfl
  have hsame : (s.addCount d).pc = s.pc := rfl
  have howes : (s.pc t).OwesLower := by rw [hp]; trivial
  have hnot : ¬ (Pc.discounted b).OwesLower := id
  have hsum := h.sum
  have hroom := h.room
  refine ⟨h.removers.update fun c hc => hc.elim, forall_goto (s := s.addCount d) h.own trivial,
    h.kept, h.fresh, h.once, fun a => ?_, h.creators.update fun a ha => ha.elim, ?_, ?_⟩
  · have hle : count (Pc.Finishes a) ((s.addCount d).goto t (.discounted b)).pc ≤
        count (Pc.Finishes a) s.pc := count_update_of_imp fun hf => by rw [hpc]; exact hf
    exact le_trans (add_le_add (le_refl _) hle) (h.finished a)
  · have hcount : ((s.addCount d).goto t (.discounted b)).serviceCount.toNat =
        s.serviceCount.toNat - 1 := by
      have hlt := s.serviceCount.toNat_lt
      simp only [St.goto, St.addCount, UInt32.toNat_add, hd]
      omega
    rw [hraise, hlower, hslots, hsame, hcount, if_pos howes, if_neg hnot]
    omega
  · rw [hlower, hslots, hsame, if_pos howes, if_neg hnot]
    omega

/-- `REMOVE` returns 0. -/
theorem Ledger.finish (h : Ledger s) (hp : s.pc t = .discounted b) :
    Ledger ({ s with
      removals := Function.update s.removals b (s.removals b + 1) }.goto t .idle) := by
  have hclear : Pc.Clear .idle := Pc.Outside.clear trivial
  have hraise : count Pc.OwesRaise (Function.update s.pc t .idle) = count Pc.OwesRaise s.pc :=
    count_update_of_iff (iff_of_false id (by rw [hp]; exact id))
  have hlower : count Pc.OwesLower (Function.update s.pc t .idle) = count Pc.OwesLower s.pc :=
    count_update_of_iff (iff_of_false id (by rw [hp]; exact id))
  refine ⟨h.removers.update fun c hc => hc.elim, forall_goto h.own trivial, h.kept, h.fresh, h.once,
    fun a => ?_, h.creators.update fun a ha => ha.elim, ?_, ?_⟩
  · have hcount : count (Pc.Finishes a) (Function.update s.pc t .idle) = _ :=
      count_update t Pc.idle
    have hnot : ¬ Pc.idle.Finishes a := id
    have hold := h.finished a
    simp only [St.goto]
    rw [hcount, if_neg hnot, hp]
    by_cases hab : b = a
    · subst hab
      have hin : (Pc.discounted b).Finishes b := rfl
      rw [if_pos hin, Function.update_self]
      push_cast
      omega
    · have hout : ¬ (Pc.discounted b).Finishes a := hab
      rw [if_neg hout, Function.update_of_ne (Ne.symm hab)]
      omega
  · have hsum := h.sum
    rw [← hraise, ← hlower] at hsum
    exact hsum
  · have hroom := h.room
    rw [← hlower] at hroom
    exact hroom

/-! ## The result -/

/-- A `REMOVE` passes its permission check when no other one is past it for the same service. -/
def OneRemover (s : St τ) (l : τ × Act) : Prop :=
  match s.pc l.1 with
  | .found c (.remove _) a =>
      match s.services a with
      | none => True
      | some service =>
          validServiceOperation c service = true → ∀ u, u ≠ l.1 → ¬ (s.pc u).Removes a
  | _ => True

/-- A service is freed last, a lock released by its holder, a service removed by one thread. -/
def Orderly (s : St τ) (l : τ × Act) : Prop := FreedLast s l ∧ UnlocksOwn s l ∧ OneRemover s l

theorem ledger_move {l : τ × Act} (hlife : Lifetimes s) (hl : Locked s) (hplaced : Placed s)
    (h : Ledger s) (hok : OneRemover s l) (hm : Move s l.1 s') : Ledger s' := by
  have at_clear : ∀ {p}, s.pc l.1 = p → p.Clear → (s.pc l.1).Clear := by
    rintro p rfl hp
    exact hp
  cases hm with
  | outside pc hpc => exact h.outside hpc
  | enter hp | search hp | refuse hp | choose hp => exact h.stay (at_clear hp trivial) trivial
  | writeLock hp | stray hp | readLock hp =>
      exact (h.lockOp _).stay (at_clear hp trivial) trivial
  | fill hp =>
      -- with a writer inside, no `REMOVE` is on its way
      have hi := hplaced.sound l.1
      rw [hp] at hi
      refine h.fill (fun u a hu => hlife.live hu.touches) (fun a ha => hlife.ne_brk ha)
        (at_clear hp trivial) hi (count_eq_zero fun u hu => ?_)
      refine hl.not_inRead (u := l.1) (hp ▸ trivial) u ?_
      cases hpc : s.pc u <;> rw [hpc] at hu <;> trivial
  | count hp => exact h.raise (hp ▸ trivial) (by rw [hp]; exact id) trivial
  | raise hp => exact h.raise (hp ▸ trivial) (by rw [hp]; exact id) trivial
  | @unlock a hp =>
      have hpc : (s.lockOp .writeUnlock).pc l.1 = .filled tagIpcPrivate a := hp
      refine (h.lockOp _).goto (fun b hb => hb.elim) trivial (fun b hb => ?_) ?_ ?_
        fun b hb => hb.elim
      · rw [hpc]
        exact hb
      · exact iff_of_true trivial (by rw [hpc]; trivial)
      · exact iff_of_false id (by rw [hpc]; exact id)
  | writeUnlock hp hq =>
      refine (h.lockOp _).stay ?_ hq.clear
      rcases hp with hp | ⟨a, hp⟩ <;> exact at_clear hp trivial
  | find hp hq => rcases hq with rfl | ⟨a, rfl⟩ <;> exact h.stay (at_clear hp trivial) trivial
  | readUnlock hp hq =>
      refine (h.lockOp _).stay ?_ hq.clear
      rcases hp with hp | ⟨c, op, a, hp⟩ <;> exact at_clear hp trivial
  | @permit c tag a service hp hservice hvalid =>
      -- the guard: nobody else removes this service
      have hnothing := (at_clear hp trivial).nothing
      simp only [OneRemover, hp, hservice] at hok
      refine h.goto (fun b hb => .inr ?_) trivial (fun b hb => hb.elim)
        (iff_of_false id hnothing.raise) (iff_of_false id hnothing.lower) fun b hb => hb.elim
      obtain rfl : a = b := hb
      exact hok hvalid
  | look hp =>
      refine h.goto (fun b hb => .inl ?_) trivial (fun b hb => hb.elim) (iff_of_false id ?_)
        (iff_of_false id ?_) fun b hb => hb.elim <;> rw [hp]
      · exact hb
      · exact id
      · exact id
  | @load a service i hp hservice hindex =>
      have hi : slotOf s.services a = some i := slotOf_eq_some.mpr ⟨service, hservice, hindex⟩
      refine h.goto (fun b hb => .inl ?_) (h.slot hlife hplaced (.inl hp) hi)
        (fun b hb => hb.elim) (iff_of_false id ?_) (iff_of_false id ?_) fun b hb => hb.elim <;>
        rw [hp]
      · exact hb
      · exact id
      · exact id
  | @clear a tmp service i hp hservice hindex =>
      have hi : slotOf s.services a = some i := slotOf_eq_some.mpr ⟨service, hservice, hindex⟩
      refine h.clear hp ?_
      rw [h.slot hlife hplaced (.inr ⟨tmp, hp⟩) hi]
      rfl
  | @kfree a tmp hp =>
      -- it frees the service it has found, which is live and so was never freed
      have hown := h.own l.1
      rw [hp] at hown
      obtain rfl : tmp = some a := hown
      have hlive : (s.services a).isSome := hlife.live (t := l.1) (by rw [hp]; rfl)
      refine h.kfree hp hlive ?_
      by_contra hge
      simp [hlife.fresh a (not_lt.mp hge)] at hlive
  | discount hp => exact h.lower hp (h.pos hlife hplaced hp) (-1) rfl
  | finish hp => exact ((h.lockOp .readUnlock).finish hp : Ledger _)

/-- Every service is freed at most once and at most one `REMOVE` of it returns 0; the counter is the
number of full slots whenever no creator is between its slot and the counter and no remover between
the slot and the counter, and it is never lowered below 0. -/
structure Exact (s : St τ) : Prop where
  freedOnce : ∀ a, s.freed a ≤ 1
  removedOnce : ∀ a, s.removals a ≤ 1
  count : (∀ u, ¬ (s.pc u).OwesRaise ∧ ¬ (s.pc u).OwesLower) →
    s.serviceCount.toNat = (Finset.univ.filter fun i => (s.slots i).isSome).card
  noWrap : ∀ u b, s.pc u = .freed b → 0 < s.serviceCount.toNat

/-- In every orderly run, for any number of threads and calls, on any tags and keys. -/
theorem removed_once_count_exact (h : Reached (table τ) Orderly s) : Exact s := by
  have hinv : Lifetimes s ∧ Locked s ∧ Placed s ∧ Ledger s := by
    refine h.invariant (I := fun s => Lifetimes s ∧ Locked s ∧ Placed s ∧ Ledger s) ?_ ?_
    · rintro _ rfl
      exact ⟨lifetimes_initial, locked_initial, placed_initial, ledger_initial⟩
    · rintro s l s' ⟨hlife, hl, hplaced, hledger⟩ ⟨hlast, hown, hone⟩ hs
      have hm := move_of_step (hl.held _) hs
      exact ⟨lifetimes_step hlife hlast hs, locked_step hl hown hs, placed_move hl hplaced hm,
        ledger_move hlife hl hplaced hledger hone hm⟩
  obtain ⟨hlife, _, hplaced, hledger⟩ := hinv
  refine ⟨hledger.once, fun a => ?_, fun hnone => ?_, fun u b hu => hledger.pos hlife hplaced hu⟩
  · have hfinished := hledger.finished a
    have honce := hledger.once a
    have hnonneg : 0 ≤ count (Pc.Finishes a) s.pc := count_nonneg
    omega
  · have hraise : count Pc.OwesRaise s.pc = 0 := count_eq_zero fun u => (hnone u).1
    have hlower : count Pc.OwesLower s.pc = 0 := count_eq_zero fun u => (hnone u).2
    have hsum := hledger.sum
    rw [hraise, hlower, occupied, count_eq_card] at hsum
    omega

/-! ## Runs of two threads -/

instance (s : St (Fin 2)) (l : Fin 2 × Act) : Decidable (OneRemover s l) := by
  unfold OneRemover
  split
  · split <;> infer_instance
  · infer_instance

instance (s : St (Fin 2)) (l : Fin 2 × Act) : Decidable (Orderly s l) :=
  inferInstanceAs (Decidable (_ ∧ _))

/-- Under the guard: both threads remove a service, one after the other, while the other one is in
the table. -/
theorem removed_once_count_exact_two : ∃ s, Reached (table (Fin 2)) Orderly s ∧
    (s.removals 0 = 1 ∧ s.removals 1 = 1 ∧ s.serviceCount = 0) ∧ Exact s := by
  obtain ⟨s, hs, hp⟩ : ∃ s, Reached (table (Fin 2)) Orderly s ∧
      (s.removals 0 = 1 ∧ s.removals 1 = 1 ∧ s.serviceCount = 0) :=
    exists_reached_of_replay step initial
      (created 1 ++ (0, .create root tagIpcPrivate openRoom) :: steps 0 8 ++
        (0, .call root (.remove 0)) :: (1, .call root (.remove 1)) :: steps 0 5 ++ steps 1 5 ++
        steps 0 4 ++ steps 1 4) (by decide +kernel)
  exact ⟨s, hs, hp, removed_once_count_exact hs⟩

/-- Without it: two calls of `REMOVE` load the slot before either clears it, both free the service
and both return 0; the counter is $2^{32} - 1$ for an empty table. And a `REMOVE` that comes before
the creator of a private service has raised the counter takes it below 0. -/
theorem removed_twice :
    (∃ s, Reached (table (Fin 2)) Always s ∧ (s.pc 0 = .idle ∧ s.pc 1 = .idle) ∧
      s.freed 0 = 2 ∧ s.removals 0 = 2 ∧ s.serviceCount = 4294967295 ∧
      ∀ i, s.slots i = none) ∧
    ∃ s, Reached (table (Fin 2)) Always s ∧
      s.pc 1 = .unlocked 0 ∧ s.freed 0 = 1 ∧ s.serviceCount = 4294967295 := by
  constructor
  · exact exists_reached_of_replay step initial
      (created 1 ++ (0, .call root (.remove 0)) :: (1, .call root (.remove 0)) :: steps 0 5 ++
        steps 1 5 ++ steps 0 1 ++ steps 1 1 ++ steps 0 3 ++ steps 1 3) (by decide +kernel)
  · exact exists_reached_of_replay step initial
      ((1, .create root tagIpcPrivate openRoom) :: steps 1 6 ++
        (0, .call root (.remove 0)) :: steps 0 9) (by decide +kernel)

end TagMessaging.Table
