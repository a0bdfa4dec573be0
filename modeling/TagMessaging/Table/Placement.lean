/-
# TagMessaging.Table.Placement -- slots are filled once, public keys are unique

What the exclusion of `Locked` buys. A creator that read `tagServices[i]` as `NULL` finds it so when
it stores there; a live record is in a slot or on its way to `kfree`; so the search for a key, which
reads the slots, sees every live record, and what it did not find nobody brings in before the
searcher has filled its slot.
-/
import TagMessaging.Table.Exclusion

namespace TagMessaging.Table

open TagMessaging.Model TagMessaging.Lib.Transition TagMessaging.Lib.RwLock

variable {τ : Type} {s s' : St τ} {t u : τ} {p q : Pc} {a b : Addr} {tmp : Ptr}
variable {services services' : Addr → Option TAGService} {slots slots' : Fin minSysTagServices → Ptr}
variable {i : Fin minSysTagServices} {service : TAGService}

/-! ## The invariant -/

/-- What a thread that is about to fill or to clear a slot knows of it. -/
def Pc.Sound (services : Addr → Option TAGService) (slots : Fin minSysTagServices → Ptr) : Pc → Prop
  | .filling _ _ _ i => slots i = none
  | .loaded b tmp => ∀ i, slotOf services b = some i → slots i = none ∨ slots i = tmp
  | _ => True

/-- No live record has the key. -/
def KeyFree (services : Addr → Option TAGService) (key : Int32) : Prop :=
  key ≠ tagIpcPrivate → ∀ a service, services a = some service → service.key ≠ key

/-- What a creator past its search knows of its key. -/
def Pc.Searched (services : Addr → Option TAGService) : Pc → Prop
  | .choosing _ key _ | .filling _ key _ _ => KeyFree services key
  | _ => True

/-- No two live records have the same public key. -/
def KeysDistinct (services : Addr → Option TAGService) : Prop :=
  ∀ a b service service', services a = some service → services b = some service' →
    service.key = service'.key → service.key ≠ tagIpcPrivate → a = b

/-- The invariant. -/
structure Placed (s : St τ) : Prop where
  fresh : ∀ a, s.brk ≤ a → s.services a = none
  sound : ∀ u, (s.pc u).Sound s.services s.slots
  homed : ∀ a, (s.services a).isSome →
    (∃ i, s.slots i = some a) ∨ ∃ u b, s.pc u = .cleared b (some a)
  searched : ∀ u, (s.pc u).Searched s.services
  distinct : KeysDistinct s.services

theorem placed_initial : Placed (initial : St τ) where
  fresh := fun _ _ => rfl
  sound := fun _ => trivial
  homed := fun _ ha => by cases ha
  searched := fun _ => trivial
  distinct := fun _ _ _ _ ha => by cases ha

theorem Pc.Outside.sound (h : p.Outside) : p.Sound services slots := by
  cases p <;> trivial

theorem Pc.Outside.searched (h : p.Outside) : p.Searched services := by
  cases p <;> trivial

/-- A thread that is in no section knows nothing that could become wrong. -/
theorem sound_of_not_in (hw : ¬ p.InWrite) (hr : ¬ p.InRead) :
    p.Sound services slots ∧ p.Searched services := by
  cases p <;> first | exact ⟨trivial, trivial⟩ | exact absurd trivial hw | exact absurd trivial hr

/-- Fewer records and emptier slots leave a thread right. -/
theorem Pc.Sound.mono (h : p.Sound services slots)
    (hservices : ∀ a, services' a = none ∨ services' a = services a)
    (hslots : ∀ i, slots' i = none ∨ slots' i = slots i) : p.Sound services' slots' := by
  cases p with
  | filling c key perm i =>
      have hi : slots i = none := h
      rcases hslots i with hnone | heq
      · exact hnone
      · exact heq.trans hi
  | loaded b tmp =>
      intro i hi
      have hold : slotOf services b = some i := by
        rcases hservices b with hnone | heq
        · simp [slotOf, hnone] at hi
        · simpa [slotOf, heq] using hi
      rcases hslots i with hnone | heq
      · exact .inl hnone
      · rw [heq]
        exact h i hold
  | _ => trivial

theorem KeyFree.mono {key : Int32} (h : KeyFree services key)
    (hservices : ∀ a, services' a = none ∨ services' a = services a) : KeyFree services' key := by
  intro hkey a service ha
  rcases hservices a with hnone | heq
  · simp [hnone] at ha
  · exact h hkey a service (heq ▸ ha)

theorem Pc.Searched.mono (h : p.Searched services)
    (hservices : ∀ a, services' a = none ∨ services' a = services a) : p.Searched services' := by
  cases p <;> first | trivial | exact KeyFree.mono h hservices

theorem KeysDistinct.mono (h : KeysDistinct services)
    (hservices : ∀ a, services' a = none ∨ services' a = services a) : KeysDistinct services' := by
  intro a b service service' ha hb
  rcases hservices a with hnone | heq
  · simp [hnone] at ha
  rcases hservices b with hnone' | heq'
  · simp [hnone'] at hb
  exact h a b service service' (heq ▸ ha) (heq' ▸ hb)

/-- A record with a key that was free. -/
theorem KeysDistinct.update (h : KeysDistinct services) (hfree : KeyFree services service.key) :
    KeysDistinct (Function.update services a (some service)) := by
  have other : ∀ b service', b ≠ a → Function.update services a (some service) b = some service' →
      service.key ≠ tagIpcPrivate → service'.key ≠ service.key := by
    intro b service' hb hservice' hkey
    rw [Function.update_of_ne hb] at hservice'
    exact hfree hkey b service' hservice'
  intro b c sb sc hb hc hsame hkey
  by_cases hba : b = a
  · by_cases hca : c = a
    · rw [hba, hca]
    · subst hba
      obtain rfl : service = sb := by simpa using hb
      exact absurd hsame.symm (other c sc hca hc hkey)
  · by_cases hca : c = a
    · subst hca
      obtain rfl : service = sc := by simpa using hc
      exact absurd hsame (other b sb hba hb (hsame ▸ hkey))
    · rw [Function.update_of_ne hba] at hb
      rw [Function.update_of_ne hca] at hc
      exact h b c sb sc hb hc hsame hkey

/-- A search that found nothing has read every slot. -/
theorem search_none {test : TAGService → Bool} {is : List (Fin minSysTagServices)}
    (h : search s test is = some none) (hi : i ∈ is) (ha : s.slots i = some a)
    (hservice : s.services a = some service) : test service = false := by
  induction is with
  | nil => exact absurd hi (by simp)
  | cons j is ih =>
      rw [Table.search] at h
      rcases List.mem_cons.mp hi with rfl | hmem
      · simp only [ha, hservice] at h
        by_contra htest
        simp [Bool.not_eq_false _ ▸ htest] at h
      · cases hj : s.slots j with
        | none =>
            rw [hj] at h
            exact ih h hmem
        | some b =>
            rw [hj] at h
            cases hb : s.services b with
            | none => simp [hb] at h
            | some service' =>
                simp only [hb] at h
                split at h
                · simp at h
                · exact ih h hmem

theorem freeSlot_eq_none_or (h : freeSlot s = some i) : s.slots i = none := by
  simpa using List.find?_some h

/-! ## Steps -/

/-- The invariant reads the records, the slots and the threads. -/
theorem Placed.congr (h : Placed s) (hbrk : s'.brk = s.brk) (hservices : s'.services = s.services)
    (hslots : s'.slots = s.slots) (hpc : s'.pc = s.pc) : Placed s' := by
  obtain ⟨h1, h2, h3, h4, h5⟩ := h
  exact ⟨by rwa [hbrk, hservices], by rwa [hpc, hservices, hslots],
    by rwa [hservices, hslots, hpc], by rwa [hpc, hservices], by rwa [hservices]⟩

theorem Placed.lockOp (h : Placed s) (op : LockOp) : Placed (s.lockOp op) := h.congr rfl rfl rfl rfl

theorem Placed.addCount (h : Placed s) (d : UInt32) : Placed (s.addCount d) :=
  h.congr rfl rfl rfl rfl

theorem Placed.outside {pc : τ → Pc} (h : Placed s)
    (hpc : ∀ u, pc u = s.pc u ∨ (s.pc u).Stops ∧ (pc u).Outside) : Placed { s with pc := pc } := by
  refine ⟨h.fresh, fun u => ?_, fun a ha => ?_, fun u => ?_, h.distinct⟩
  · rcases hpc u with heq | ⟨_, hout⟩
    · simpa [heq] using h.sound u
    · exact hout.sound
  · rcases h.homed a ha with hslot | ⟨u, b, hu⟩
    · exact .inl hslot
    · rcases hpc u with heq | ⟨hstops, _⟩
      · exact .inr ⟨u, b, heq.trans hu⟩
      · rw [hu] at hstops
        exact hstops.elim
  · rcases hpc u with heq | ⟨_, hout⟩
    · simpa [heq] using h.searched u
    · exact hout.searched

/-- The search of a creator sees every live record. -/
theorem Placed.keyFree {key : Int32} (h : Placed s) (hr : ∀ u, ¬ (s.pc u).InRead)
    (hnone : key ≠ tagIpcPrivate → search s (fun service => service.key = key)
      (List.finRange minSysTagServices) = some none) : KeyFree s.services key := by
  intro hkey a service ha
  rcases h.homed a (by simp [ha]) with ⟨i, hi⟩ | ⟨u, b, hu⟩
  · simpa using search_none (hnone hkey) (List.mem_finRange i) hi ha
  · exact absurd (by rw [hu]; trivial) (hr u)

variable [DecidableEq τ]

/-- A thread that frees nothing moves on. -/
theorem Placed.goto (h : Placed s) (hp : ∀ b a, s.pc t ≠ .cleared b (some a))
    (hsound : q.Sound s.services s.slots) (hsearched : q.Searched s.services) :
    Placed (s.goto t q) := by
  refine ⟨h.fresh, forall_goto h.sound hsound, fun a ha => ?_, forall_goto h.searched hsearched,
    h.distinct⟩
  rcases h.homed a ha with hslot | ⟨u, b, hu⟩
  · exact .inl hslot
  · have hut : u ≠ t := by
      rintro rfl
      exact hp b a hu
    exact .inr ⟨u, b, (Function.update_of_ne hut ..).trans hu⟩

/-- The creator stores its record. It is alone, and the slot is empty. -/
theorem Placed.fill (h : Placed s) (hp : ∃ c perm, s.pc t = .filling c service.key perm i)
    (hw : ∀ u, (s.pc u).InWrite → u = t) (hr : ∀ u, ¬ (s.pc u).InRead)
    (hq : q.Sound (s.fill i service).services (s.fill i service).slots)
    (hq' : q.Searched (s.fill i service).services) : Placed ((s.fill i service).goto t q) := by
  obtain ⟨c, perm, hp⟩ := hp
  have hempty : s.slots i = none := by simpa [hp, Pc.Sound] using h.sound t
  have hfree : KeyFree s.services service.key := by simpa [hp, Pc.Searched] using h.searched t
  have others : ∀ u, u ≠ t → (s.pc u).Sound (s.fill i service).services (s.fill i service).slots ∧
      (s.pc u).Searched (s.fill i service).services :=
    fun u hu => sound_of_not_in (fun huw => hu (hw u huw)) (hr u)
  have hpc : ∀ u, u ≠ t → ((s.fill i service).goto t q).pc u = s.pc u :=
    fun u hu => Function.update_of_ne hu ..
  refine ⟨fun a ha => ?_, fun u => ?_, fun a ha => ?_, fun u => ?_, h.distinct.update hfree⟩
  · have hlt : s.brk < a := ha
    exact (Function.update_of_ne (Nat.ne_of_gt hlt) ..).trans (h.fresh a (Nat.le_of_lt hlt))
  · by_cases hu : u = t
    · simpa [St.goto, hu] using hq
    · rw [hpc u hu]
      exact (others u hu).1
  · by_cases hab : a = s.brk
    · exact .inl ⟨i, by simp [St.goto, St.fill, hab]⟩
    · have hlive : (s.services a).isSome := by simpa [St.goto, St.fill, hab] using ha
      rcases h.homed a hlive with ⟨j, hj⟩ | ⟨u, b, hu⟩
      · have hji : j ≠ i := by
          rintro rfl
          simp [hempty] at hj
        exact .inl ⟨j, by simpa [St.goto, St.fill, hji] using hj⟩
      · exact absurd (by rw [hu]; trivial) (hr u)
  · by_cases hu : u = t
    · simpa [St.goto, hu] using hq'
    · rw [hpc u hu]
      exact (others u hu).2

/-- `REMOVE` clears the slot whose record it has loaded. -/
theorem Placed.clear (h : Placed s) (hp : s.pc t = .loaded b tmp)
    (hi : slotOf s.services b = some i) : Placed ((s.clear i).goto t (.cleared b tmp)) := by
  have hslots : ∀ j, (s.clear i).slots j = none ∨ (s.clear i).slots j = s.slots j := by
    intro j
    by_cases hji : j = i
    · exact .inl (by simp [St.clear, hji])
    · exact .inr (by simp [St.clear, hji])
  refine ⟨h.fresh, forall_goto (s := s.clear i)
    (fun u => (h.sound u).mono (fun _ => .inr rfl) hslots) trivial, fun a ha => ?_,
    forall_goto (s := s.clear i) h.searched trivial, h.distinct⟩
  rcases h.homed a ha with ⟨j, hj⟩ | ⟨u, b', hu⟩
  · by_cases hji : j = i
    · subst hji
      have hsound : ∀ i, slotOf s.services b = some i → s.slots i = none ∨ s.slots i = tmp := by
        simpa [hp, Pc.Sound] using h.sound t
      rcases hsound j hi with hnone | heq
      · simp [hnone] at hj
      · exact .inr ⟨t, b, by simp [St.goto, ← heq, hj]⟩
    · exact .inl ⟨j, by simpa [St.goto, St.clear, hji] using hj⟩
  · have hut : u ≠ t := by
      rintro rfl
      simp [hp] at hu
    exact .inr ⟨u, b', by simpa [St.goto, St.clear, hut] using hu⟩

/-- The record goes that the thread had taken out. -/
theorem Placed.kfree (h : Placed s) (hp : s.pc t = .cleared b tmp) :
    Placed ((s.kfree tmp).goto t (.freed b)) := by
  cases tmp with
  | none => exact h.goto (by simp [hp]) trivial trivial
  | some a =>
      have hservices : ∀ c, Function.update s.services a none c = none ∨
          Function.update s.services a none c = s.services c := by
        intro c
        by_cases hca : c = a
        · exact .inl (by simp [hca])
        · exact .inr (by simp [hca])
      refine ⟨fun c hc => ?_, forall_goto (s := s.kfree (some a))
        (fun u => (h.sound u).mono hservices fun _ => .inr rfl) trivial, fun c hc => ?_,
        forall_goto (s := s.kfree (some a)) (fun u => (h.searched u).mono hservices) trivial,
        h.distinct.mono hservices⟩
      · rcases hservices c with hnone | heq
        · exact hnone
        · exact heq.trans (h.fresh c hc)
      · have hca : c ≠ a := by
          rintro rfl
          simp [St.goto, St.kfree] at hc
        have hlive : (s.services c).isSome := by simpa [St.goto, St.kfree, hca] using hc
        rcases h.homed c hlive with hslot | ⟨u, b', hu⟩
        · exact .inl hslot
        · have hut : u ≠ t := by
            rintro rfl
            obtain ⟨_, ⟨⟩⟩ := Pc.cleared.inj (hp.symm.trans hu)
            exact hca rfl
          exact .inr ⟨u, b', by simpa [St.goto, St.kfree, hut] using hu⟩

variable [Fintype τ]

theorem placed_move (hl : Locked s) (h : Placed s) (hm : Move s t s') : Placed s' := by
  have only : (s.pc t).InWrite → ∀ u, (s.pc u).InWrite → u = t := fun ht u hu => hl.one u t hu ht
  have quiet : ∀ {q : Pc}, (∀ b tmp, s.pc t ≠ .cleared b tmp) → q.Sound s.services s.slots →
      q.Searched s.services → Placed (s.goto t q) :=
    fun hp => h.goto fun b a => hp b (some a)
  cases hm with
  | outside pc hpc => exact h.outside hpc
  | enter hp | refuse hp | permit hp | look hp => exact quiet (by simp [hp]) trivial trivial
  | writeLock hp hgrant =>
      exact (h.lockOp _).goto (by simp [St.lockOp, hp]) trivial trivial
  | search hp hnone =>
      -- the search has seen every live service: no remover is between the slot and the `kfree`
      refine quiet (by simp [hp]) trivial (h.keyFree (hl.not_inRead (u := t) ?_) hnone)
      exact hp ▸ trivial
  | choose hp hfree =>
      have hsearched := h.searched t
      rw [hp] at hsearched
      exact quiet (by simp [hp]) (freeSlot_eq_none_or hfree) hsearched
  | fill hp =>
      -- the slot is still empty, since no other creator is inside
      have hwrite : (s.pc t).InWrite := hp ▸ trivial
      exact h.fill ⟨_, _, hp⟩ (only hwrite) (hl.not_inRead hwrite) trivial trivial
  | count hp => exact (h.addCount 1).goto (by simp [St.addCount, hp]) trivial trivial
  | unlock hp => exact (h.lockOp _).goto (by simp [St.lockOp, hp]) trivial trivial
  | raise hp => exact (h.addCount 1).goto (by simp [St.addCount, hp]) trivial trivial
  | writeUnlock hp hq =>
      refine (h.lockOp _).goto ?_ hq.sound hq.searched
      rcases hp with hp | ⟨a, hp⟩ <;> simp [St.lockOp, hp]
  | readLock hp hgrant => exact (h.lockOp _).goto (by simp [St.lockOp, hp]) trivial trivial
  | find hp hq => rcases hq with rfl | ⟨a, rfl⟩ <;> exact quiet (by simp [hp]) trivial trivial
  | readUnlock hp hq =>
      refine (h.lockOp _).goto ?_ hq.sound hq.searched
      rcases hp with hp | ⟨c, op, a, hp⟩ <;> simp [St.lockOp, hp]
  | load hp hservice hindex =>
      refine quiet (by simp [hp]) (fun j hj => .inr ?_) trivial
      obtain rfl := Option.some.inj (hj.symm.trans (slotOf_eq_some.mpr ⟨_, hservice, hindex⟩))
      rfl
  | clear hp hservice hindex => exact h.clear hp (slotOf_eq_some.mpr ⟨_, hservice, hindex⟩)
  | kfree hp => exact h.kfree hp
  | discount hp => exact (h.addCount _).goto (by simp [St.addCount, hp]) trivial trivial
  | finish hp =>
      have hlock := (h.lockOp .readUnlock).goto (t := t) (q := .idle)
        (by simp [St.lockOp, hp]) trivial trivial
      exact hlock.congr rfl rfl rfl rfl
  | stray hp => exact (h.lockOp _).goto (by simp [St.lockOp, hp]) trivial trivial

/-! ## The result -/

end TagMessaging.Table
