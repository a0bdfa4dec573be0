/-
# TagMessaging.Table.Lifetime -- who still holds a service when it is freed

Every call keeps using the pointer its search returned after it released `searchLock`, and `REMOVE`
looks at the wait queues only. A freed record is never accessed as long as each `kfree` comes when
no other call has still to access the service (`FreedLast`). The invariant behind it: the slots and
the threads hold live records only, a record in a slot carries the index of the slot, and a service
that is out of its slot, on its way to `kfree`, is in no slot at all.

Nothing here depends on the lock being respected: it holds with the stray `write_unlock` of
`AWAKE_ALL` too.
-/
import TagMessaging.Table.Steps

namespace TagMessaging.Table

open TagMessaging.Model TagMessaging.Lib.Transition TagMessaging.Lib.RwLock

variable {τ : Type} {s s' : St τ} {t : τ} {p q : Pc} {a b : Addr} {tmp : Ptr}
variable {services services' : Addr → Option TAGService} {slots slots' : Fin minSysTagServices → Ptr}
variable {i : Fin minSysTagServices}

/-! ## Records and slots -/

/-- The slot the record at `a` is for: it is live, and its tag is an index of the table. -/
def slotOf (services : Addr → Option TAGService) (a : Addr) : Option (Fin minSysTagServices) :=
  (services a).bind tagIndex

theorem tagIndex_newService (c : Caller) (key perm : Int32) (i : Fin minSysTagServices) :
    tagIndex (newService c key perm i) = some i := by
  have htag : (newService c key perm i).tag.toNat = i := toNat_ofNat_slot i
  simp [tagIndex, htag]

theorem slotOf_eq_some : slotOf services a = some i ↔
    ∃ service, services a = some service ∧ tagIndex service = some i := by
  simp [slotOf, Option.bind_eq_some_iff]

/-- What holds of each thread. What it has still to access is live; what it is about to free sits in
the slot of the service it found, or in no slot any more. -/
structure Pc.Safe (services : Addr → Option TAGService) (slots : Fin minSysTagServices → Ptr)
    (p : Pc) : Prop where
  live : ∀ a, p.Touches a → ∃ i, slotOf services a = some i
  loaded : ∀ b a, p = .loaded b (some a) → slotOf services a = slotOf services b
  cleared : ∀ b a, p = .cleared b (some a) → ∀ i, slots i ≠ some a
  tame : p ≠ .wild

/-- The invariant. -/
structure Lifetimes (s : St τ) : Prop where
  fresh : ∀ a, s.brk ≤ a → s.services a = none
  slots : ∀ i a, s.slots i = some a → slotOf s.services a = some i
  threads : ∀ u, (s.pc u).Safe s.services s.slots

/-- A thread outside the three places that are special. -/
def Pc.Plain : Pc → Prop
  | .loaded _ _ | .cleared _ _ | .wild => False
  | _ => True

theorem Pc.Safe.of_live (hp : p.Plain) (hlive : ∀ a, p.Touches a → ∃ i, slotOf services a = some i) :
    p.Safe services slots where
  live := hlive
  loaded := by
    rintro b a rfl
    exact hp.elim
  cleared := by
    rintro b a rfl
    exact hp.elim
  tame := by
    rintro rfl
    exact hp

/-- A thread goes on with what it had in its hands. -/
theorem Pc.Safe.pass (h : q.Safe services slots) (hp : p.Plain)
    (htouches : ∀ a, p.Touches a → q.Touches a) : p.Safe services slots :=
  .of_live hp fun a ha => h.live a (htouches a ha)

theorem touches_wake {level : Fin levelDeep} : (p.wake level b).Touches a ↔ p.Touches a := by
  unfold Pc.wake
  split
  · subst_vars
    exact Iff.rfl
  · exact Iff.rfl

theorem Pc.Safe.wake {level : Fin levelDeep} (h : p.Safe services slots) :
    (p.wake level b).Safe services slots := by
  by_cases hp : p = .queued level b
  · subst hp
    simpa [Pc.wake] using h.pass (p := .awakened level b) trivial fun _ ha => ha
  · simpa [Pc.wake, hp] using h

theorem plain_start (a : Addr) (op : Op) : (op.start a).Plain := by
  cases op <;> trivial

theorem touches_start {op : Op} : (op.start b).Touches a ↔ b = a := by
  cases op <;> exact Iff.rfl

theorem plain_nextLevel (level : Fin levelDeep) (a : Addr) : (nextLevel level a).Plain := by
  unfold nextLevel
  split <;> trivial

theorem touches_nextLevel {level : Fin levelDeep} (h : (nextLevel level b).Touches a) : b = a := by
  unfold nextLevel at h
  split at h
  · exact h
  · exact h.elim

/-- A thread is as safe after a change that keeps the records it has still to access, and puts
nothing it is about to free back into a slot. -/
theorem Pc.Safe.congr (h : p.Safe services slots)
    (hservices : ∀ a, p.Touches a → services' a = services a)
    (hslots : ∀ b a, p = .cleared b (some a) → (∀ i, slots i ≠ some a) → ∀ i, slots' i ≠ some a) :
    p.Safe services' slots' where
  live := fun a ha => by simpa [slotOf, hservices a ha] using h.live a ha
  loaded := by
    rintro b a rfl
    have ha : slotOf services' a = slotOf services a := by simp [slotOf, hservices a (Or.inr rfl)]
    have hb : slotOf services' b = slotOf services b := by simp [slotOf, hservices b (Or.inl rfl)]
    rw [ha, hb]
    exact h.loaded b a rfl
  cleared := fun b a hp => hslots b a hp (h.cleared b a hp)
  tame := h.tame

theorem Lifetimes.live (h : Lifetimes s) (ha : (s.pc t).Touches a) : (s.services a).isSome := by
  obtain ⟨i, hi⟩ := (h.threads t).live a ha
  obtain ⟨service, hservice, _⟩ := slotOf_eq_some.mp hi
  simp [hservice]

theorem Lifetimes.ne_brk (h : Lifetimes s) (ha : (s.services a).isSome) : a ≠ s.brk := by
  rintro rfl
  simp [h.fresh s.brk (le_refl _)] at ha

theorem Lifetimes.slot_live (h : Lifetimes s) (ha : s.slots i = some a) :
    (s.services a).isSome := by
  obtain ⟨service, hservice, _⟩ := slotOf_eq_some.mp (h.slots i a ha)
  simp [hservice]

/-- A search that reads live slots only ends, with a record of the table or with nothing. -/
theorem Lifetimes.search (h : Lifetimes s) (test : TAGService → Bool)
    (is : List (Fin minSysTagServices)) :
    ∃ p, search s test is = some p ∧ ∀ a, p = some a → ∃ i, s.slots i = some a := by
  induction is with
  | nil => exact ⟨none, rfl, by simp⟩
  | cons i is ih =>
      cases hi : s.slots i with
      | none => simpa [Table.search, hi] using ih
      | some a =>
          obtain ⟨service, hservice⟩ := Option.isSome_iff_exists.mp (h.slot_live hi)
          cases htest : test service with
          | true =>
              refine ⟨some a, by simp [Table.search, hi, hservice, htest], fun b hb => ⟨i, ?_⟩⟩
              rw [hi, hb]
          | false => simpa [Table.search, hi, hservice, htest] using ih

/-- The invariant reads the slots, the records and the threads. -/
theorem Lifetimes.congr (h : Lifetimes s) (hbrk : s'.brk = s.brk) (hslots : s'.slots = s.slots)
    (hservices : s'.services = s.services) (hpc : s'.pc = s.pc) : Lifetimes s' := by
  obtain ⟨hf, hs, ht⟩ := h
  exact ⟨by rwa [hbrk, hservices], by rwa [hslots, hservices], by rwa [hpc, hservices, hslots]⟩

theorem Lifetimes.addCount (h : Lifetimes s) (d : UInt32) : Lifetimes (s.addCount d) :=
  h.congr rfl rfl rfl rfl

/-! ## Steps -/

theorem lifetimes_initial : Lifetimes (initial : St τ) :=
  ⟨fun _ _ => rfl, fun _ _ hi => (by cases hi), fun _ => .of_live trivial fun _ ha => ha.elim⟩

theorem Lifetimes.wakeAll {level : Fin levelDeep} (h : Lifetimes s) : Lifetimes (s.wakeAll level b) :=
  ⟨h.fresh, h.slots, fun u => (h.threads u).wake⟩

/-- A new service, in a slot that may have been taken in between. -/
theorem Lifetimes.fill {service : TAGService} (h : Lifetimes s) (hindex : tagIndex service = some i) :
    Lifetimes (s.fill i service) := by
  have hsame : ∀ a, (s.services a).isSome → (s.fill i service).services a = s.services a :=
    fun a ha => Function.update_of_ne (h.ne_brk ha) ..
  refine ⟨fun a ha => ?_, fun j a hj => ?_, fun u => (h.threads u).congr ?_ ?_⟩
  · have hlt : s.brk < a := ha
    exact (Function.update_of_ne (Nat.ne_of_gt hlt) ..).trans (h.fresh a (Nat.le_of_lt hlt))
  · by_cases hji : j = i
    · subst hji
      obtain rfl : s.brk = a := by simpa [St.fill] using hj
      exact slotOf_eq_some.mpr ⟨service, Function.update_self .., hindex⟩
    · have hj : s.slots j = some a := by simpa [St.fill, hji] using hj
      rw [slotOf, hsame a (h.slot_live hj)]
      exact h.slots j a hj
  · exact fun a ha => hsame a (h.live ha)
  · intro b a hp hout j
    have ha : a ≠ s.brk := h.ne_brk (h.live (t := u) (by rw [hp]; rfl))
    by_cases hji : j = i
    · subst hji
      simpa [St.fill] using Ne.symm ha
    · simpa [St.fill, hji] using hout j

/-- A slot set to `NULL`. -/
theorem Lifetimes.clear (h : Lifetimes s) (i : Fin minSysTagServices) : Lifetimes (s.clear i) := by
  have hslots : ∀ j a, (s.clear i).slots j = some a → s.slots j = some a := by
    intro j a hj
    by_cases hji : j = i
    · simp [St.clear, hji] at hj
    · simpa [St.clear, hji] using hj
  exact ⟨h.fresh, fun j a hj => h.slots j a (hslots j a hj), fun u => (h.threads u).congr
    (fun _ _ => rfl) fun b a _ hout j hj => hout j (hslots j a hj)⟩

variable [DecidableEq τ]

theorem forall_goto {P : Pc → Prop} (h : ∀ u, P (s.pc u)) (hp : P p) :
    ∀ u, P ((s.goto t p).pc u) :=
  (Function.forall_update_iff s.pc (p := fun _ q => P q)).mpr ⟨hp, fun u _ => h u⟩

theorem Lifetimes.goto (h : Lifetimes s) (hp : p.Safe s.services s.slots) :
    Lifetimes (s.goto t p) :=
  ⟨h.fresh, h.slots, forall_goto h.threads hp⟩

/-- A step that gives up some of what the thread had in its hands, or nothing. -/
theorem Lifetimes.pass (h : Lifetimes s) (hp : p.Plain)
    (htouches : ∀ a, p.Touches a → (s.pc t).Touches a) : Lifetimes (s.goto t p) :=
  h.goto ((h.threads t).pass hp htouches)

/-- An access to a record the thread holds finds it. -/
theorem Lifetimes.access {next : TAGService → St τ} (h : Lifetimes s) (ht : (s.pc t).Touches a)
    (hnext : ∀ service, Lifetimes (next service)) : Lifetimes (s.access t a next) := by
  obtain ⟨service, hservice⟩ := Option.isSome_iff_exists.mp (h.live ht)
  simpa [St.access, hservice] using hnext service

theorem Lifetimes.accessSlot {next : Fin minSysTagServices → St τ} (h : Lifetimes s)
    (ht : (s.pc t).Touches a)
    (hnext : ∀ i, slotOf s.services a = some i → Lifetimes (next i)) :
    Lifetimes (s.accessSlot t a next) := by
  obtain ⟨i, hi⟩ := (h.threads t).live a ht
  obtain ⟨service, hservice, hindex⟩ := slotOf_eq_some.mp hi
  simpa [St.accessSlot, St.access, hservice, hindex] using hnext i hi

theorem Lifetimes.lookup {test : TAGService → Bool} {next : Ptr → Pc} (h : Lifetimes s)
    (hnone : (next none).Plain ∧ ∀ a, ¬ (next none).Touches a)
    (hsome : ∀ b, (next (some b)).Plain ∧ ∀ a, (next (some b)).Touches a → b = a) :
    Lifetimes (s.lookup t test next) := by
  obtain ⟨p, hp, hslot⟩ := h.search test (List.finRange minSysTagServices)
  simp only [St.lookup, hp]
  cases p with
  | none => exact h.goto (.of_live hnone.1 fun a ha => absurd ha (hnone.2 a))
  | some b =>
      obtain ⟨i, hi⟩ := hslot b rfl
      refine h.goto (.of_live (hsome b).1 fun a ha => ?_)
      obtain rfl := (hsome b).2 a ha
      exact ⟨i, h.slots i b hi⟩

theorem Lifetimes.acquire {op : LockOp} (h : Lifetimes s) (hp : p.Plain)
    (hnone : ∀ a, ¬ p.Touches a) (hs : s.acquire t op p = some s') : Lifetimes s' := by
  obtain ⟨_, ⟨⟩⟩ := Option.ite_none_right_eq_some.mp hs
  have hlock : Lifetimes (s.lockOp op) := h.congr rfl rfl rfl rfl
  exact hlock.pass hp fun a ha => absurd ha (hnone a)

/-- `REMOVE` loads what the slot of the service holds. -/
theorem Lifetimes.load (h : Lifetimes s) (hi : slotOf s.services b = some i) :
    Lifetimes (s.goto t (.loaded b (s.slots i))) := by
  refine h.goto ⟨?_, ?_, by simp, by simp⟩
  · rintro a (rfl | ha)
    · exact ⟨i, hi⟩
    · exact ⟨i, h.slots i a ha⟩
  · intro b' a heq
    obtain ⟨rfl, ha⟩ := Pc.loaded.inj heq
    rw [h.slots i a ha, hi]

/-- `REMOVE` takes the service it loaded out of its slot, which was its only one. -/
theorem Lifetimes.cleared (h : Lifetimes s) (hp : s.pc t = .loaded b tmp)
    (hi : slotOf s.services b = some i) : Lifetimes ((s.clear i).goto t (.cleared b tmp)) := by
  refine (h.clear i).goto ⟨?_, by simp, ?_, by simp⟩
  · intro a ha
    exact (h.threads t).live a (by rw [hp]; exact Or.inr ha)
  · rintro b' a heq j hj
    obtain ⟨rfl, rfl⟩ := Pc.cleared.inj heq
    have hloaded : slotOf s.services a = some i := by rw [(h.threads t).loaded b a hp, hi]
    by_cases hji : j = i
    · simp [St.clear, hji] at hj
    · have hj : s.slots j = some a := by simpa [St.clear, hji] using hj
      exact hji (Option.some.inj ((h.slots j a hj).symm.trans hloaded))

/-- The record goes, which nobody else has still to access. -/
theorem Lifetimes.kfree (h : Lifetimes s) (hp : s.pc t = .cleared b tmp)
    (hlast : ∀ a, tmp = some a → ∀ u, u ≠ t → ¬ (s.pc u).Touches a) :
    Lifetimes ((s.kfree tmp).goto t (.freed b)) := by
  have hgone : Lifetimes (s.goto t (.freed b)) := h.pass trivial fun _ ha => ha.elim
  cases tmp with
  | none => exact hgone
  | some a =>
      have hsame : ∀ c, c ≠ a → Function.update s.services a none c = s.services c :=
        fun c hc => Function.update_of_ne hc ..
      have hout := (h.threads t).cleared b a hp
      refine ⟨fun c hc => ?_, fun j c hj => ?_, fun u => ?_⟩
      · by_cases hca : c = a
        · simp [St.goto, St.kfree, hca]
        · exact (hsame c hca).trans (h.fresh c hc)
      · have hca : c ≠ a := by
          rintro rfl
          exact hout j hj
        exact (congrArg (Option.bind · tagIndex) (hsame c hca)).trans (h.slots j c hj)
      · refine (hgone.threads u).congr (fun c hc => hsame c ?_) fun _ _ _ hj => hj
        rintro rfl
        by_cases hut : u = t
        · subst hut
          simp [St.goto, Pc.Touches] at hc
        · exact hlast c rfl u hut (by simpa [St.goto, hut] using hc)

variable [Fintype τ]

/-- A service is freed when no other call has still to access it. -/
def FreedLast (s : St τ) : τ × Act → Prop
  | (t, .advance) =>
      match s.pc t with
      | .cleared _ (some a) => ∀ u, u ≠ t → ¬ (s.pc u).Touches a
      | _ => True
  | _ => True

theorem lifetimes_advance (h : Lifetimes s) (hok : FreedLast s (t, .advance))
    (hs : advance s t = some s') : Lifetimes s' := by
  have held : ∀ {a p}, s.pc t = p → p.Touches a → (s.pc t).Touches a := by
    rintro a p rfl ha
    exact ha
  cases hp : s.pc t with simp only [advance, hp] at hs
  | idle | wild => cases hs
  | creating c key perm =>
      obtain rfl := Option.some.inj hs
      split <;> exact h.pass trivial fun _ ha => ha.elim
  | admitted c key perm =>
      exact h.acquire (p := .writing c key perm) trivial (fun _ ha => ha) hs
  | looking c op => exact h.acquire (p := .reading c op) trivial (fun _ ha => ha) hs
  | writing c key perm =>
      split at hs <;> obtain rfl := Option.some.inj hs
      · exact h.pass trivial fun _ ha => ha.elim
      · exact h.lookup ⟨trivial, fun _ ha => ha⟩ fun b => ⟨trivial, fun _ ha => ha.elim⟩
  | refused | missed | awoken =>
      obtain rfl := Option.some.inj hs
      exact (h.congr rfl rfl rfl rfl : Lifetimes (s.lockOp _)).pass trivial fun _ ha => ha.elim
  | choosing c key perm =>
      split at hs <;> obtain rfl := Option.some.inj hs <;>
        exact h.pass trivial fun _ ha => ha.elim
  | filling c key perm i =>
      obtain rfl := Option.some.inj hs
      have hfill := h.fill (tagIndex_newService c key perm i)
      refine hfill.goto (.of_live trivial fun a ha => ⟨i, ?_⟩)
      obtain rfl : s.brk = a := ha
      exact hfill.slots i _ (Function.update_self ..)
  | filled key a =>
      split at hs <;> obtain rfl := Option.some.inj hs <;>
        refine Lifetimes.pass (h.congr rfl rfl rfl rfl) trivial fun _ ha => held hp ha
  | counted a | unlocked a =>
      obtain rfl := Option.some.inj hs
      exact Lifetimes.pass (h.congr rfl rfl rfl rfl) trivial fun _ ha => held hp ha
  | created a | opening a | left a =>
      obtain rfl := Option.some.inj hs
      exact h.access (held hp rfl) fun _ => h.pass trivial fun _ ha => ha.elim
  | reading c op =>
      obtain rfl := Option.some.inj hs
      exact h.lookup ⟨trivial, fun _ ha => ha⟩ fun b => ⟨trivial, fun _ ha => ha⟩
  | found c op a =>
      cases op with
      | remove tag =>
          obtain rfl := Option.some.inj hs
          refine h.access (held hp rfl) fun service => ?_
          split
          · exact h.pass trivial fun _ ha => held hp ha
          · exact h.pass trivial fun _ ha => ha.elim
      | «open» key | send tag level | receive tag level | awakeAll tag =>
          obtain rfl := Option.some.inj hs
          exact Lifetimes.pass (h.congr rfl rfl rfl rfl) trivial fun _ ha => held hp ha
  | holding c op a =>
      obtain rfl := Option.some.inj hs
      refine h.access (held hp rfl) fun service => ?_
      split
      · exact h.pass (plain_start a op) fun b hb => held hp (touches_start.mp hb)
      · exact h.pass trivial fun _ ha => ha.elim
  | sending level a | receiving level a | queued level a | awakened level a =>
      obtain rfl := Option.some.inj hs
      exact h.access (held hp rfl) fun _ => h.pass trivial fun _ ha => held hp ha
  | replaced level a =>
      obtain rfl := Option.some.inj hs
      refine h.access (held hp rfl) fun _ => ?_
      split
      · exact h.pass trivial fun _ ha => held hp ha
      · exact h.pass trivial fun _ ha => ha.elim
  | checked a =>
      obtain rfl := Option.some.inj hs
      refine h.access (held hp rfl) fun _ => ?_
      split
      · exact h.pass trivial fun _ ha => ha.elim
      · exact h.pass trivial fun _ ha => held hp ha
  | noticed level a =>
      obtain rfl := Option.some.inj hs
      exact h.access (held hp rfl) fun _ => h.wakeAll.pass trivial fun _ ha => ha.elim
  | waking level a =>
      obtain rfl := Option.some.inj hs
      refine h.access (held hp rfl) fun _ => h.wakeAll.pass (plain_nextLevel level a) fun b hb => ?_
      exact touches_wake.mpr (held hp (touches_nextLevel hb))
  | unused a =>
      obtain rfl := Option.some.inj hs
      exact h.accessSlot (held hp rfl) fun i hi => h.load hi
  | loaded a tmp =>
      obtain rfl := Option.some.inj hs
      exact h.accessSlot (held hp (Or.inl rfl)) fun i hi => h.cleared hp hi
  | cleared a tmp =>
      obtain rfl := Option.some.inj hs
      -- the guard: nobody else has the service in its hands
      refine h.kfree hp ?_
      rintro b rfl
      simpa [FreedLast, hp] using hok
  | freed a =>
      obtain rfl := Option.some.inj hs
      exact (h.addCount _).pass trivial fun _ ha => ha.elim
  | discounted a =>
      obtain rfl := Option.some.inj hs
      exact Lifetimes.pass (h.congr rfl rfl rfl rfl) trivial fun _ ha => ha.elim

theorem lifetimes_step {l : τ × Act} (h : Lifetimes s) (hok : FreedLast s l)
    (hs : step s l = some s') : Lifetimes s' := by
  obtain ⟨t, act⟩ := l
  cases act with
  | advance => exact lifetimes_advance h hok hs
  | create c key perm | call c op =>
      obtain ⟨_, ⟨⟩⟩ := Option.ite_none_right_eq_some.mp hs
      exact h.pass trivial fun _ ha => ha.elim
  | sleepAgain =>
      cases hp : s.pc t with simp only [step, hp] at hs
      | awakened level a =>
          obtain rfl := Option.some.inj hs
          refine h.access (t := t) (by rw [hp]; rfl) fun _ => h.pass trivial fun b hb => ?_
          rw [hp]
          exact hb
      | _ => cases hs

/-! ## The result -/

/-- No call has accessed a freed record, and no call in progress has still to access one. -/
structure NoUseAfterFree (s : St τ) : Prop where
  tame : ∀ t, s.pc t ≠ .wild
  live : ∀ t a, (s.pc t).Touches a → (s.services a).isSome

/-- In every run in which each service is freed last, for any number of threads and calls, no record
is accessed after its `kfree`; a service that was freed is in no call's hands. -/
theorem no_use_after_free (h : Reached (table τ) FreedLast s) : NoUseAfterFree s := by
  have hinv : Lifetimes s := by
    refine h.invariant ?_ fun _ _ _ hi hok hs => lifetimes_step hi hok hs
    rintro _ rfl
    exact lifetimes_initial
  exact ⟨fun t => (hinv.threads t).tame, fun _ _ ha => hinv.live ha⟩

/-! ## Runs of two threads -/

instance (s : St (Fin 2)) (l : Fin 2 × Act) : Decidable (FreedLast s l) := by
  obtain ⟨t, act⟩ := l
  rcases act <;> dsimp only [FreedLast] <;> try infer_instance
  all_goals
    generalize s.pc t = p
    rcases p <;> try (dsimp only; infer_instance)
    rename_i tmp
    rcases tmp <;> dsimp only <;> infer_instance

def level5 : Fin levelDeep := 5

def root : Caller := { tgid := 1, isRoot := true }

/-- Thread `t` takes `n` steps. -/
def steps (t : τ) (n : Nat) : List (τ × Act) := List.replicate n (t, .advance)

/-- Thread `t` creates a service with the key 7. -/
def created (t : τ) : List (τ × Act) := (t, .create root 7 openRoom) :: steps t 8

/-- Under the guard: thread 0 has received and left when thread 1 removes the service. -/
theorem no_use_after_free_receive : ∃ s, Reached (table (Fin 2)) FreedLast s ∧
    (s.pc 0 = .idle ∧ s.pc 1 = .freed 0 ∧ s.freed 0 = 1) ∧ NoUseAfterFree s := by
  obtain ⟨s, hs, hp⟩ : ∃ s, Reached (table (Fin 2)) FreedLast s ∧
      (s.pc 0 = .idle ∧ s.pc 1 = .freed 0 ∧ s.freed 0 = 1) :=
    exists_reached_of_replay step initial
      (created 1 ++ (0, .call root (.receive 0 level5)) :: steps 0 7 ++
        (1, .call root (.remove 0)) :: steps 1 7) (by decide +kernel)
  exact ⟨s, hs, hp, no_use_after_free hs⟩

/-- Without it: thread 0 has found the service and released the lock when thread 1 removes it, with
nobody in a queue yet, and returns 0; thread 0 then checks its permission in the freed record. -/
theorem use_after_free :
    (∃ s, Reached (table (Fin 2)) Always s ∧
      s.pc 0 = .holding root (.receive 0 level5) 0 ∧ s.freed 0 = 1 ∧ s.removals 0 = 1) ∧
    ∃ s, Reached (table (Fin 2)) Always s ∧ s.pc 0 = .wild := by
  constructor
  · exact exists_reached_of_replay step initial
      (created 1 ++ (0, .call root (.receive 0 level5)) :: steps 0 3 ++
        (1, .call root (.remove 0)) :: steps 1 9) (by decide +kernel)
  · exact exists_reached_of_replay step initial
      (created 1 ++ (0, .call root (.receive 0 level5)) :: steps 0 3 ++
        (1, .call root (.remove 0)) :: steps 1 9 ++ steps 0 1) (by decide +kernel)

end TagMessaging.Table
