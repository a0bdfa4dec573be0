/-
# TagMessaging.Table.Linear -- the calls are linearizable

In an orderly run the table stands for the atomic object at every moment: each step of a thread is a
step of that thread on the object, or leaves it alone.
-/
import TagMessaging.Table.Logged

namespace TagMessaging.Table

open TagMessaging.Model TagMessaging.Lib.Transition TagMessaging.Lib.RwLock TagMessaging.Lib.Tally
open TagMessaging.Serial (Room Registry)

variable {τ : Type} [DecidableEq τ] [Fintype τ] {f : Logged τ} {s s' s₁ : St τ} {t u : τ}
variable {p q : Pc} {a b : Addr} {ask : Ask} {i : Fin minSysTagServices} {service : TAGService}
variable {c : Caller} {key perm tag : Int32} {op : Op}

/-! ## The steps of a thread -/

/-- A step inside a call that leaves the table alone. -/
theorem Logged.Follows.on (hask : f.ask t = some ask) (hp : f.table.pc t = p) (hpi : p ≠ .idle)
    (hsame : SameTable s₁ f.table) (hidle : q ≠ .idle)
    (hdecided : f.table.decided ask q = f.table.decided ask p)
    (hserves : q.Serves f.table.services ask) : f.Follows t (s₁.goto t q) := by
  refine .quiet hask (hp ▸ hpi) hsame.beside (Function.update_self ..) hidle hsame.rooms ?_ ?_
  · rw [hp, ← hdecided]
    exact decided_congr fun a _ => congrFun hsame.services a
  · show q.Serves s₁.services ask
    rwa [hsame.services]

/-- The end of a call that leaves the table alone. -/
theorem Logged.Follows.off (hask : f.ask t = some ask) (hp : f.table.pc t = p) (hpi : p ≠ .idle)
    (hsame : SameTable s₁ f.table)
    (hdecided : f.table.decided ask p = some (f.table.returned ask p)) :
    f.Follows t (s₁.goto t .idle) := by
  refine .ends hask (hp ▸ hpi) hsame.beside (Function.update_self ..) hsame.rooms ?_
  rw [hp]
  exact hdecided

/-- A creator that is turned down by the counter. -/
theorem Logged.Inv.full (h : f.Inv) (hask : f.ask t = some ask)
    (hp : f.table.pc t = .creating c key perm)
    (hcount : f.table.serviceCount ≥ UInt32.ofNat minSysTagServices) :
    f.Follows t (f.table.goto t .idle) := by
  obtain ⟨ask', hask', hserves⟩ := h.asked t (by simp [hp])
  obtain rfl := Option.some.inj (hask.symm.trans hask')
  rw [hp] at hserves
  obtain ⟨rfl, _⟩ := hserves
  refine .declined (o := .returns Errno.ETOOMANYREFS.neg) hask (by simp [hp])
    (SameTable.beside .refl) (Function.update_self ..) (SameTable.rooms .refl) (by rw [hp]; rfl)
    (by rw [hp]; rfl) fun hwaits => .full hwaits ?_
  have hlive : f.object.rooms.live = occupied f.table := live_eq h.life
  have hremoving := h.removing
  have hsum := h.ledger.sum
  have hraise : 0 ≤ count Pc.OwesRaise f.table.pc := count_nonneg
  have hge : minSysTagServices ≤ f.table.serviceCount.toNat := by
    have hnat := UInt32.le_iff_toNat_le.mp hcount
    rwa [UInt32.toNat_ofNat_of_lt' (by decide)] at hnat
  rw [hlive]
  omega

/-- A creator looks for its key. -/
theorem Logged.Inv.search_key (h : f.Inv) (hask : f.ask t = some ask)
    (hp : f.table.pc t = .writing c key perm) (hs : advance f.table t = some s') :
    f.Follows t s' := by
  obtain ⟨ask', hask', hserves⟩ := h.asked t (by simp [hp])
  obtain rfl := Option.some.inj (hask.symm.trans hask')
  rw [hp] at hserves
  simp only [advance, hp] at hs
  by_cases hprivate : key = tagIpcPrivate
  · rw [if_pos hprivate] at hs
    obtain rfl := Option.some.inj hs
    exact .on hask hp (by simp) .refl (by simp) rfl hserves
  · rw [if_neg hprivate] at hs
    obtain rfl := Option.some.inj hs
    obtain ⟨found, hfound, _⟩ := h.life.search (fun service => service.key = key)
      (List.finRange minSysTagServices)
    simp only [St.lookup, hfound]
    cases found with
    | none => exact .on hask hp (by simp) .refl (by simp) rfl hserves
    | some a =>
        obtain ⟨i, service, hi, ha, htest⟩ := search_some hfound
        have hserve : serve f.table.rooms (.create c key perm) = _ :=
          serve_refused h.life h.placed.distinct (h.room (t := t) (hp ▸ trivial)) hprivate hi ha
            (of_decide_eq_true htest)
        obtain ⟨rfl, _⟩ := hserves
        refine .takes hask (by simp [hp]) (SameTable.beside .refl) (Function.update_self ..)
          (by simp) (by rw [hp]; rfl) rfl ?_ trivial
        rw [hserve, SameTable.rooms .refl]

/-- A creator stores its record. -/
theorem Logged.Inv.fill (h : f.Inv) (hask : f.ask t = some ask)
    (hp : f.table.pc t = .filling c key perm i) :
    f.Follows t ((f.table.fill i (newService c key perm i)).goto t
      (.filled key f.table.brk)) := by
  obtain ⟨ask', hask', hserves⟩ := h.asked t (by simp [hp])
  obtain rfl := Option.some.inj (hask.symm.trans hask')
  rw [hp] at hserves
  obtain ⟨rfl, _⟩ := hserves
  have hsearched := h.placed.searched t
  rw [hp] at hsearched
  have hserve : serve f.table.rooms (.create c key perm) = _ :=
    serve_create h.life (h.chosen t c key perm i hp) hsearched
  have hbeside : Beside f.table ((f.table.fill i (newService c key perm i)).goto t
      (.filled key f.table.brk)) t := by
    refine .goto rfl fun u _ a ha => ?_
    exact Function.update_of_ne (h.life.ne_brk (h.life.live ha)) ..
  refine .takes (o := .returns i) hask (by simp [hp]) hbeside (Function.update_self ..) (by simp)
    (by rw [hp]; rfl) ?_ ?_ trivial
  · have htag : tagAt (f.table.fill i (newService c key perm i)) f.table.brk = i := by
      simp only [tagAt, St.fill, Function.update_self, Option.elim_some]
      exact Serial.tag_toInt i
    show some (Outcome.returns (tagAt (f.table.fill i (newService c key perm i)) f.table.brk)) = _
    rw [htag]
  · rw [hserve, ← rooms_fill h.life]
    rfl

/-- A search of the table by one of the other calls. -/
theorem Logged.Inv.search_table (h : f.Inv) (hask : f.ask t = some ask)
    (hp : f.table.pc t = .reading c op) (hs : advance f.table t = some s') :
    f.Follows t s' := by
  obtain ⟨ask', hask', hserves⟩ := h.asked t (by simp [hp])
  obtain rfl := Option.some.inj (hask.symm.trans hask')
  rw [hp] at hserves
  obtain ⟨rfl, hop⟩ := hserves
  simp only [advance, hp] at hs
  obtain rfl := Option.some.inj hs
  obtain ⟨found, hfound, _⟩ := h.life.search op.test (List.finRange minSysTagServices)
  simp only [St.lookup, hfound]
  cases found with
  | none =>
      have hserve := serve_missing h.life h.minted hop hfound c
      refine .takes hask (by simp [hp]) (SameTable.beside .refl) (Function.update_self ..)
        (by simp) (by rw [hp]; rfl) rfl ?_ trivial
      rw [hserve, SameTable.rooms .refl]
  | some a =>
      obtain ⟨i, service, hi, ha, htest⟩ := search_some hfound
      have hserves : (Pc.found c op a).Serves f.table.services (.call c op) :=
        ⟨rfl, hop, service, ha, htest⟩
      by_cases hremove : ∃ tag, op = .remove tag ∧ f.table.permits c a = true
      · obtain ⟨tag, rfl, hpermits⟩ := hremove
        refine .on hask hp (by simp) .refl (by simp) ?_ hserves
        exact if_pos hpermits
      · have hstays : (∀ tag, op ≠ .remove tag) ∨ f.table.permits c a = false := by
          by_cases hany : ∃ tag, op = .remove tag
          · obtain ⟨tag, rfl⟩ := hany
            exact .inr (by simpa using fun hpermits => hremove ⟨tag, rfl, hpermits⟩)
          · exact .inl fun tag htag => hany ⟨tag, htag⟩
        have hserve := serve_found h.life h.minted h.placed.distinct hop hi ha htest hstays
        have hdecided : f.table.decided (.call c op) (.found c op a) =
            some (if f.table.permits c a then op.granted (tagAt f.table a)
              else .returns Errno.EBADRQC.neg) := by
          cases op with
          | remove tag =>
              have hnot : f.table.permits c a = false := hstays.resolve_left fun h => h tag rfl
              simp [St.decided, hnot]
          | _ => rfl
        refine .takes hask (by simp [hp]) (SameTable.beside .refl) (Function.update_self ..)
          (by simp) (by rw [hp]; rfl) hdecided ?_ hserves
        rw [hserve, SameTable.rooms .refl]

/-- A `REMOVE` that finds the room in use. -/
theorem Logged.Inv.in_use (h : f.Inv) (hask : f.ask t = some ask)
    (hp : f.table.pc t = .checked a) : f.Follows t (f.table.goto t .idle) := by
  obtain ⟨ask', hask', hserves⟩ := h.asked t (by simp [hp])
  obtain rfl := Option.some.inj (hask.symm.trans hask')
  rw [hp] at hserves
  obtain ⟨c, tag, service, rfl, _, ha, htag, hvalid⟩ := hserves
  obtain ⟨i, hi⟩ := h.slot (t := t) (a := a) (by rw [hp]; rfl) (by rw [hp]; rfl) (by simp [hp])
  refine .declined (o := .returns Errno.EADDRINUSE.neg) hask (by simp [hp])
    (SameTable.beside .refl) (Function.update_self ..) (SameTable.rooms .refl) (by rw [hp]; rfl)
    (by rw [hp]; rfl) fun hwaits => ?_
  have hclosed : (asRoom service).closedTo c = false := by
    simpa [h.minted.valid ha c] using hvalid
  exact .inUse hwaits (roomOf_some h.life h.minted hi ha htag) hclosed

/-- `REMOVE` takes the room out. -/
theorem Logged.Inv.clear {tmp : Ptr} (h : f.Inv) (hask : f.ask t = some ask)
    (hp : f.table.pc t = .loaded a tmp) (hi : slotOf f.table.services a = some i) :
    f.Follows t ((f.table.clear i).goto t (.cleared a tmp)) := by
  obtain ⟨ask', hask', hserves⟩ := h.asked t (by simp [hp])
  obtain rfl := Option.some.inj (hask.symm.trans hask')
  rw [hp] at hserves
  obtain ⟨c, tag, service, rfl, hpos, ha, htag, hvalid⟩ := hserves
  have hslot : f.table.slots i = some a :=
    h.ledger.slot h.life h.placed (.inr ⟨tmp, hp⟩) hi
  have hserve := serve_remove h.life h.minted hpos hslot ha htag hvalid
  refine .takes (o := .returns 0) hask (by simp [hp]) (.goto rfl fun _ _ _ _ => rfl)
    (Function.update_self ..) (by simp) (by rw [hp]; rfl) rfl ?_ ⟨c, tag, rfl⟩
  rw [hserve, ← rooms_clear]
  rfl

/-- `REMOVE` frees the record. -/
theorem Logged.Inv.kfree {tmp : Ptr} (h : f.Inv) (hask : f.ask t = some ask)
    (hp : f.table.pc t = .cleared a tmp) (hok : FreedLast f.table (t, .advance)) :
    f.Follows t ((f.table.kfree tmp).goto t (.freed a)) := by
  obtain ⟨ask', hask', hserves⟩ := h.asked t (by simp [hp])
  obtain rfl := Option.some.inj (hask.symm.trans hask')
  rw [hp] at hserves
  have hown := h.ledger.own t
  rw [hp] at hown
  obtain rfl : tmp = some a := hown
  have hlast : ∀ u, u ≠ t → ¬ (f.table.pc u).Touches a := by simpa [FreedLast, hp] using hok
  have hbeside : Beside f.table ((f.table.kfree (some a)).goto t (.freed a)) t := by
    refine .goto rfl fun u hu b hb => Function.update_of_ne ?_ ..
    rintro rfl
    exact hlast u hu hb
  refine .quiet hask (by simp [hp]) hbeside (Function.update_self ..) (by simp) ?_
    (by rw [hp]; rfl) hserves
  exact rooms_kfree ((h.life.threads t).cleared a a hp)

/-- What an `advance` of a thread comes to. -/
theorem Logged.Inv.advance (h : f.Inv) (hok : FreedLast f.table (t, .advance))
    (hs : advance f.table t = some s') : f.Follows t s' := by
  have same : ∀ {op : LockOp}, SameTable (f.table.lockOp op) f.table := ⟨rfl, rfl, rfl⟩
  by_cases hidle : f.table.pc t = .idle
  · simp only [Table.advance, hidle] at hs
    cases hs
  obtain ⟨ask, hask, hserves⟩ := h.asked t hidle
  -- a call takes effect in the cases with their own lemma; by `.on` and `.off` its answer stays
  cases hp : f.table.pc t with simp only [Table.advance, hp] at hs hserves
  | idle | wild => cases hs
  | creating c key perm =>
      obtain rfl := Option.some.inj hs
      split
      · rename_i hcount
        exact h.full hask hp hcount
      · exact .on hask hp (by simp) .refl (by simp) rfl hserves
  | admitted c key perm =>
      obtain ⟨_, ⟨⟩⟩ := Option.ite_none_right_eq_some.mp hs
      exact .on hask hp (by simp) same (by simp) rfl hserves
  | writing c key perm =>
      refine h.search_key hask hp ?_
      simp only [Table.advance, hp]
      exact hs
  | choosing c key perm =>
      obtain ⟨i, hi⟩ := Option.isSome_iff_exists.mp (h.room (t := t) (hp ▸ trivial))
      rw [hi] at hs
      obtain rfl := Option.some.inj hs
      exact .on hask hp (by simp) .refl (by simp) rfl hserves
  | filling c key perm i =>
      obtain rfl := Option.some.inj hs
      exact h.fill hask hp
  | filled key a =>
      -- the service is in its slot: the lock and the counter are all that is left
      by_cases hprivate : key = tagIpcPrivate
      · rw [if_pos hprivate] at hs
        obtain rfl := Option.some.inj hs
        exact .on hask hp (by simp) same (by simp) rfl trivial
      · rw [if_neg hprivate] at hs
        obtain rfl := Option.some.inj hs
        exact .on hask hp (by simp) (.addCount _) (by simp) rfl trivial
  | counted a =>
      obtain rfl := Option.some.inj hs
      exact .on hask hp (by simp) same (by simp) rfl trivial
  | unlocked a =>
      obtain rfl := Option.some.inj hs
      exact .on hask hp (by simp) (.addCount _) (by simp) rfl trivial
  | refused | missed =>
      obtain rfl := Option.some.inj hs
      exact .off hask hp (by simp) same rfl
  | awoken =>
      obtain rfl := Option.some.inj hs
      exact .off hask hp (by simp) same rfl
  | discounted a =>
      obtain rfl := Option.some.inj hs
      exact .off hask hp (by simp) ⟨rfl, rfl, rfl⟩ rfl
  | looking c op =>
      obtain ⟨_, ⟨⟩⟩ := Option.ite_none_right_eq_some.mp hs
      exact .on hask hp (by simp) same (by simp) rfl hserves
  | reading c op =>
      refine h.search_table hask hp ?_
      simp only [Table.advance, hp]
      exact hs
  | freed a =>
      obtain rfl := Option.some.inj hs
      exact .on hask hp (by simp) (.addCount _) (by simp) rfl hserves
  | cleared a tmp =>
      obtain rfl := Option.some.inj hs
      exact h.kfree hask hp hok
  | loaded a tmp =>
      obtain ⟨i, hi⟩ := (h.life.threads t).live a (by rw [hp]; exact .inl rfl)
      obtain ⟨service, ha, hindex⟩ := slotOf_eq_some.mp hi
      simp only [St.accessSlot, St.access, ha, hindex] at hs
      obtain rfl := Option.some.inj hs
      exact h.clear hask hp hi
  | unused a =>
      obtain ⟨i, hi⟩ := (h.life.threads t).live a (by rw [hp]; rfl)
      obtain ⟨service, ha, hindex⟩ := slotOf_eq_some.mp hi
      simp only [St.accessSlot, St.access, ha, hindex] at hs
      obtain rfl := Option.some.inj hs
      exact .on hask hp (by simp) .refl (by simp) rfl hserves
  | checked a =>
      obtain ⟨service, ha⟩ := h.record hp rfl
      simp only [St.access, ha] at hs
      obtain rfl := Option.some.inj hs
      split
      · exact h.in_use hask hp
      · exact .on hask hp (by simp) .refl (by simp) rfl hserves
  | found c op a =>
      -- `REMOVE` checks its permission with the lock held, the other calls give the lock up first
      obtain ⟨rfl, hop, service, ha, htest⟩ := hserves
      cases op with
      | remove tag =>
          simp only [St.access, ha] at hs
          obtain rfl := Option.some.inj hs
          have hpermits : f.table.permits c a = validServiceOperation c service := by
            simp [St.permits, ha]
          cases hvalid : validServiceOperation c service with
          | true =>
              refine .on hask hp (by simp) .refl (by simp) ?_ ?_
              · simp [St.decided, hpermits, hvalid]
              · exact ⟨c, tag, service, rfl, hop, ha, of_decide_eq_true htest, hvalid⟩
          | false =>
              refine .off hask hp (by simp) .refl ?_
              simp [St.decided, St.returned, hpermits, hvalid]
      | _ =>
          obtain rfl := Option.some.inj hs
          exact .on hask hp (by simp) same (by simp) rfl trivial
  | holding c op a =>
      obtain ⟨service, ha⟩ := h.record hp rfl
      simp only [St.access, ha] at hs
      obtain rfl := Option.some.inj hs
      have hpermits : f.table.permits c a = validServiceOperation c service := by
        simp [St.permits, ha]
      cases hvalid : validServiceOperation c service with
      | true =>
          have hdecided : f.table.decided ask (.holding c op a) =
              some (op.granted (tagAt f.table a)) := by
            simp [St.decided, hpermits, hvalid]
          cases op with
          | remove tag =>
              -- no `REMOVE` comes here
              have hheld := h.locked.held t
              rw [hp] at hheld
              exact absurd trivial hheld
          | _ =>
              refine .on hask hp (by simp) .refl (by simp [Op.start]) ?_ trivial
              rw [hdecided]
              rfl
      | false =>
          refine .off hask hp (by simp) .refl ?_
          simp [St.decided, St.returned, hpermits, hvalid]
  | created a | opening a | left a =>
      obtain ⟨service, ha⟩ := h.record hp rfl
      simp only [St.access, ha] at hs
      obtain rfl := Option.some.inj hs
      exact .off hask hp (by simp) .refl rfl
  | sending level a | receiving level a | queued level a | awakened level a =>
      obtain ⟨service, ha⟩ := h.record hp rfl
      simp only [St.access, ha] at hs
      obtain rfl := Option.some.inj hs
      exact .on hask hp (by simp) .refl (by simp) rfl trivial
  | replaced level a =>
      obtain ⟨service, ha⟩ := h.record hp rfl
      simp only [St.access, ha] at hs
      obtain rfl := Option.some.inj hs
      split
      · exact .on hask hp (by simp) .refl (by simp) rfl trivial
      · exact .off hask hp (by simp) .refl rfl
  | noticed level a =>
      obtain ⟨service, ha⟩ := h.record hp rfl
      simp only [St.access, ha] at hs
      obtain rfl := Option.some.inj hs
      exact .ends hask (by simp [hp]) beside_wakeAll (Function.update_self ..) rfl (by rw [hp]; rfl)
  | waking level a =>
      obtain ⟨service, ha⟩ := h.record hp rfl
      simp only [St.access, ha] at hs
      obtain rfl := Option.some.inj hs
      refine .quiet hask (by simp [hp]) beside_wakeAll (Function.update_self ..) ?_ rfl ?_ ?_
      · unfold nextLevel
        split <;> simp
      · rw [hp]
        unfold nextLevel
        split <;> rfl
      · unfold nextLevel
        split <;> trivial

/-! ## Runs -/

/-- The call is one that comes to the table: `tag_get` and `tag_ctl` turn the others away. -/
def Act.Allowed : Act → Prop
  | .create _ _ perm => perm = openRoom ∨ perm = privateRoom
  | .call _ op => op.Allowed
  | _ => True

instance (act : Act) : Decidable act.Allowed := by
  unfold Act.Allowed
  split <;> infer_instance

/-- An orderly step, a creator that is admitted to a slot, a call that comes to the table. -/
def Regular (f : Logged τ) (l : τ × Act) : Prop :=
  Orderly f.table l ∧ LeavesRoom f.table l ∧ l.2.Allowed

/-- The slot a creator has chosen stays the first free one: nobody else is inside. -/
theorem chosen_move (hl : Locked s)
    (h : ∀ u c key perm i, s.pc u = .filling c key perm i → freeSlot s = some i)
    (hm : Move s t s') :
    ∀ u c key perm i, s'.pc u = .filling c key perm i → freeSlot s' = some i := by
  have stay : ∀ (s₁ : St τ) {q : Pc}, s₁.pc = s.pc → s₁.slots = s.slots →
      (∀ c key perm i, q = .filling c key perm i → freeSlot s = some i) →
      ∀ u c key perm i, (s₁.goto t q).pc u = .filling c key perm i →
        freeSlot (s₁.goto t q) = some i := by
    intro s₁ q hpc hslots hq u c key perm i hu
    have hfree : freeSlot (s₁.goto t q) = freeSlot s := by
      show (List.finRange minSysTagServices).find? (fun i => s₁.slots i = none) = _
      rw [hslots]
      rfl
    rw [hfree]
    by_cases hut : u = t
    · subst hut
      exact hq c key perm i (pc_goto_self.symm.trans hu)
    · refine h u c key perm i ?_
      have hold : Function.update s₁.pc t q u = .filling c key perm i := hu
      rwa [Function.update_of_ne hut, hpc] at hold
  have away : ∀ {s₁ : St τ} {q : Pc}, s₁.pc = s.pc → (∀ c key perm i, q ≠ .filling c key perm i) →
      (∀ u, u ≠ t → ¬ (s.pc u).InWrite) →
      ∀ u c key perm i, (s₁.goto t q).pc u = .filling c key perm i →
        freeSlot (s₁.goto t q) = some i := by
    intro s₁ q hpc hq hnone u c key perm i hu
    by_cases hut : u = t
    · subst hut
      exact absurd (pc_goto_self.symm.trans hu) (hq c key perm i)
    · have hold : Function.update s₁.pc t q u = .filling c key perm i := hu
      rw [Function.update_of_ne hut, hpc] at hold
      exact absurd (by rw [hold]; trivial) (hnone u hut)
  cases hm with
  | outside pc hpc =>
      intro u c key perm i hu
      refine h u c key perm i ?_
      rcases hpc u with heq | ⟨_, hout⟩
      · exact heq.symm.trans hu
      · have hu' : pc u = .filling c key perm i := hu
        rw [hu'] at hout
        exact hout.elim
  | choose hp hfree =>
      refine stay _ rfl rfl fun c key perm i hq => ?_
      obtain ⟨_, _, _, rfl⟩ := Pc.filling.inj hq
      exact hfree
  | fill hp =>
      -- the slot is full now, and no other creator is inside
      exact away rfl (by simp) fun u hu hw => hu (hl.one u t hw (hp ▸ trivial))
  | clear hp =>
      -- a slot is free again: no creator is inside beside a remover
      refine away rfl (by simp) fun u _ hw => hl.not_inRead hw t ?_
      exact hp ▸ trivial
  | writeUnlock hp hq | readUnlock hp hq =>
      refine stay _ rfl rfl fun c key perm i hfill => ?_
      rw [hfill] at hq
      exact hq.elim
  | find hp hq => rcases hq with rfl | ⟨a, rfl⟩ <;> exact stay _ rfl rfl (by simp)
  | @kfree b tmp hp => cases tmp <;> exact stay _ rfl rfl (by simp)
  | discount hp =>
      exact stay _ (SameTable.addCount (-1)).pc (SameTable.addCount (-1)).slots (by simp)
  | finish hp => exact stay { s.lockOp .readUnlock with removals := _ } rfl rfl (by simp)
  | _ => exact stay _ rfl rfl (by simp)

/-- A woken receiver joins its queue again. -/
theorem Logged.Inv.sleepAgain {level : Fin levelDeep} (h : f.Inv)
    (hp : f.table.pc t = .awakened level a) :
    (∀ u, (f.table.goto t (.queued level a)).pc u ≠ .idle → ∃ ask, f.ask u = some ask ∧
      ((f.table.goto t (.queued level a)).pc u).Serves f.table.services ask) ∧
    Logged.object { f with table := f.table.goto t (.queued level a) } = f.object := by
  obtain ⟨ask, hask, _⟩ := h.asked t (by simp [hp])
  refine ⟨fun u hu => ?_, ?_⟩
  · by_cases hut : u = t
    · subst hut
      refine ⟨ask, hask, ?_⟩
      rw [pc_goto_self]
      trivial
    · have hpc : (f.table.goto t (.queued level a)).pc u = f.table.pc u :=
        Function.update_of_ne hut ..
      rw [hpc] at hu ⊢
      exact h.asked u hu
  · have hobject : Logged.object { f with table := f.table.goto t (.queued level a) } =
        ({ f.object with rooms := (f.table.goto t (.queued level a)).rooms } : Atomic τ).turn t
          ((f.table.goto t (.queued level a)).standing (f.ask t) (f.last t)
            ((f.table.goto t (.queued level a)).pc t)) :=
      object_beside (SameTable.beside .refl) (fun _ _ => rfl) fun _ _ => rfl
    have hstand : f.object.calls t = (f.table.goto t (.queued level a)).standing
        (f.ask t) (f.last t) ((f.table.goto t (.queued level a)).pc t) := by
      show f.table.standing (f.ask t) (f.last t) (f.table.pc t) = _
      rw [pc_goto_self, hask, hp]
      rfl
    rw [hobject, SameTable.rooms .refl]
    exact Atomic.turn_self hstand

/-- A step of a thread is one of that thread on the object. -/
theorem Logged.Inv.step {f' : Logged τ} {l : τ × Act} (h : f.Inv) (hok : Regular f l)
    (hs : f.step l = some f') : f'.Inv ∧ Atomic.Step f.object l f'.object := by
  obtain ⟨t, act⟩ := l
  obtain ⟨⟨hlast, hown, hone⟩, hroom, hallowed⟩ := hok
  -- what holds of the table holds again
  have table : ∀ s', Table.step f.table (t, act) = some s' →
      Lifetimes s' ∧ Locked s' ∧ Placed s' ∧ Ledger s' ∧ Roomy s' ∧ Minted s' ∧
        ∀ u c key perm i, s'.pc u = .filling c key perm i → freeSlot s' = some i := by
    intro s' hs'
    have hm : Move f.table t s' := move_of_step (l := (t, act)) (h.locked.held t) hs'
    refine ⟨lifetimes_step h.life hlast hs', locked_step h.locked hown hs',
      placed_move h.locked h.placed hm, ledger_move h.life h.locked h.placed h.ledger hone hm,
      roomy_move h.placed h.roomy hroom hm, minted_move h.minted hm fun c key perm i hp => ?_,
      chosen_move h.locked h.chosen hm⟩
    obtain ⟨ask, _, hserves⟩ := h.asked t (by simp [hp])
    rw [hp] at hserves
    exact hserves.2
  -- the threads serve their calls
  have keeps : ∀ f' : Logged τ, Table.step f.table (t, act) = some f'.table →
      (∀ u, f'.table.pc u ≠ .idle →
        ∃ ask, f'.ask u = some ask ∧ (f'.table.pc u).Serves f'.table.services ask) → f'.Inv := by
    intro f' hs' hasked
    obtain ⟨h1, h2, h3, h4, h5, h6, h7⟩ := table f'.table hs'
    exact ⟨h1, h2, h3, h4, h5, h6, h7, hasked⟩
  -- a thread that begins a call
  have others : ∀ {q : Pc} {ask : Ask}, q.Serves f.table.services ask →
      ∀ u, (f.table.goto t q).pc u ≠ .idle →
        ∃ ask', Function.update f.ask t (some ask) u = some ask' ∧
          ((f.table.goto t q).pc u).Serves f.table.services ask' := by
    intro q ask hq u hu
    by_cases hut : u = t
    · subst hut
      refine ⟨ask, Function.update_self .., ?_⟩
      rwa [pc_goto_self]
    · have hpc : (f.table.goto t q).pc u = f.table.pc u := Function.update_of_ne hut ..
      rw [hpc] at hu ⊢
      rw [Function.update_of_ne hut]
      exact h.asked u hu
  cases act with
  | advance =>
      obtain ⟨s', hs', rfl⟩ := Option.map_eq_some_iff.mp hs
      have hfollows := h.advance hlast hs'
      refine ⟨keeps _ hs' fun u hu => ?_, hfollows.step⟩
      by_cases hut : u = t
      · subst hut
        by_cases hidle : f.table.pc u = .idle
        · simp only [Table.advance, hidle] at hs'
          cases hs'
        · obtain ⟨ask, hask, _⟩ := h.asked u hidle
          exact ⟨ask, hask, hfollows.serves hu ask hask⟩
      · have hidle : f.table.pc u ≠ .idle := by
          intro hidle
          apply hu
          show s'.pc u = .idle
          rcases hfollows.beside.pc u hut with hpc | ⟨level, b, hpc⟩
          · rw [hpc, hidle]
          · rw [hpc, hidle]
            rfl
        obtain ⟨ask, hask, hserves⟩ := h.asked u hidle
        exact ⟨ask, hask, hfollows.beside.serves hut hserves⟩
  | create c key perm =>
      obtain ⟨s', hs', rfl⟩ := Option.map_eq_some_iff.mp hs
      obtain ⟨hp, heq⟩ := Option.ite_none_right_eq_some.mp hs'
      obtain rfl := Option.some.inj heq
      refine ⟨keeps _ hs' (others ⟨rfl, hallowed⟩), ?_⟩
      show Atomic.Step f.object _ (f.begin t (.create c key perm) (.creating c key perm)).object
      rw [Logged.begin_object (by simp) rfl]
      exact .create (Logged.rests hp)
  | call c op =>
      obtain ⟨s', hs', rfl⟩ := Option.map_eq_some_iff.mp hs
      obtain ⟨hp, heq⟩ := Option.ite_none_right_eq_some.mp hs'
      obtain rfl := Option.some.inj heq
      refine ⟨keeps _ hs' (others ⟨rfl, hallowed⟩), ?_⟩
      show Atomic.Step f.object _ (f.begin t (.call c op) (.looking c op)).object
      rw [Logged.begin_object (by simp) rfl]
      exact .call (Logged.rests hp)
  | sleepAgain =>
      obtain ⟨s', hs', rfl⟩ := Option.map_eq_some_iff.mp hs
      cases hp : f.table.pc t with simp only [Table.step, hp] at hs'
      | awakened level a =>
          obtain ⟨service, ha⟩ := h.record hp rfl
          simp only [St.access, ha] at hs'
          obtain rfl := Option.some.inj hs'
          have hs'' : Table.step f.table (t, .sleepAgain) =
              some (f.table.goto t (.queued level a)) := by
            simp only [Table.step, hp, St.access, ha]
          obtain ⟨hasked, hobject⟩ := h.sleepAgain hp
          refine ⟨keeps _ hs'' hasked, ?_⟩
          rw [hobject]
          exact .pass (.inr rfl)
      | _ => cases hs'

variable {ls : List (τ × Act)}

/-- **The calls are linearizable.** For any number of threads and calls, every orderly run in which
every admitted creator has a slot goes side by side with a run of the atomic object under the same
labels. In every state of the two the rooms are those of the table, the calls that are over got what
they returned, and the calls in progress are waiting or have been served. -/
theorem table_linearizable (h : Run (logged τ) Regular ls f) :
    ∃ x, Run ((logged τ).paired (atomic τ) Logged.Shows) (fun y l => Regular y.1 l) ls (f, x) := by
  have hrun := h.simulate_paired (T := atomic τ) (P := fun f x => f.Inv ∧ x = f.object)
    (Q := Logged.Shows) ?_ ?_ ?_
  · obtain ⟨x, hpaired, _⟩ := hrun
    exact ⟨x, hpaired⟩
  · rintro f _ ⟨hinv, rfl⟩
    exact hinv.shows
  · rintro _ rfl
    exact ⟨_, rfl, Logged.inv_initial, rfl⟩
  · rintro f l f' _ ⟨hinv, rfl⟩ hok hs
    obtain ⟨hinv', hstep⟩ := hinv.step hok hs
    exact ⟨f'.object, hstep, hinv', rfl⟩

/-! ## A run of two threads -/

instance (f : Logged (Fin 2)) (l : Fin 2 × Act) : Decidable (Regular f l) :=
  inferInstanceAs (Decidable (_ ∧ _))

/-- Thread 0 is about to clear the slot when thread 1 opens the key; thread 1 asks again before
thread 0 is back. -/
def crossing : List (Fin 2 × Act) :=
  created 1 ++ (0, .call root (.remove 0)) :: steps 0 5 ++ (1, .call root (.open 7)) :: steps 1 5 ++
    steps 0 2 ++ (1, .call root (.open 7)) :: steps 1 3 ++ steps 0 2

/-- The object explains the run: thread 1 still gets the service, and then no longer. -/
theorem table_linearizable_crossing : ∃ (f : Logged (Fin 2)) (x : Atomic (Fin 2)),
    (f.table.slots 0 = none ∧ f.last 0 = some (.returns 0) ∧
      f.last 1 = some (.returns Errno.ENOMSG.neg)) ∧
    Run ((logged (Fin 2)).paired (atomic (Fin 2)) Logged.Shows) (fun y l => Regular y.1 l) crossing
      (f, x) ∧
    Run (atomic (Fin 2)) Always crossing x ∧ f.Shows x := by
  obtain ⟨f, hrun, hends⟩ : ∃ f, Run (logged (Fin 2)) Regular crossing f ∧
      (f.table.slots 0 = none ∧ f.last 0 = some (.returns 0) ∧
        f.last 1 = some (.returns Errno.ENOMSG.neg)) :=
    exists_run_of_replay Logged.step _ crossing (by decide +kernel)
  obtain ⟨x, hpaired⟩ := table_linearizable hrun
  exact ⟨f, x, hends, hpaired, hpaired.second, hpaired.related⟩

end TagMessaging.Table
