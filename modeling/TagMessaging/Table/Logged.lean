/-
# TagMessaging.Table.Logged -- where the threads stand to the object

What holds of the log in an orderly run (`Logged.Inv`), and what it takes for a step of a thread to
be one of that thread on the object (`Logged.Follows`). What the steps of a thread do to the others
is little (`Beside`): it wakes them, and takes no record from them that they have still to access.
-/
import TagMessaging.Table.Atomic

namespace TagMessaging.Table

open TagMessaging.Model TagMessaging.Lib.Transition TagMessaging.Lib.RwLock TagMessaging.Lib.Tally
open TagMessaging.Serial (Room Registry)

variable {τ : Type} {f : Logged τ} {s s' s₁ : St τ} {t u : τ} {p q : Pc} {a b : Addr} {ask : Ask}
variable {i : Fin minSysTagServices} {service : TAGService} {c : Caller} {key perm tag : Int32}
variable {op : Op} {last : Option Outcome} {services services' : Addr → Option TAGService}

/-! ## The invariant -/

/-- What the place of a thread has to do with its call. -/
def Pc.Serves (services : Addr → Option TAGService) (ask : Ask) : Pc → Prop
  | .creating c key perm | .admitted c key perm | .writing c key perm | .choosing c key perm
  | .filling c key perm _ => ask = .create c key perm ∧ (perm = openRoom ∨ perm = privateRoom)
  | .looking c op | .reading c op => ask = .call c op ∧ op.Allowed
  | .found c op a => ask = .call c op ∧ op.Allowed ∧
      ∃ service, services a = some service ∧ op.test service = true
  | .checked a | .unused a | .loaded a _ => ∃ c tag service, ask = .call c (.remove tag) ∧ 0 ≤ tag ∧
      services a = some service ∧ service.tag = tag.toUInt32 ∧
      validServiceOperation c service = true
  | .cleared .. | .freed _ | .discounted _ => ∃ c tag, ask = .call c (.remove tag)
  | _ => True

theorem Pc.Serves.congr (h : p.Serves services ask)
    (hservices : ∀ a, p.Touches a → services' a = services a) : p.Serves services' ask := by
  cases p with
  | found c op a =>
      obtain ⟨hask, hop, service, ha, htest⟩ := h
      exact ⟨hask, hop, service, (hservices a rfl).trans ha, htest⟩
  | checked a | unused a =>
      obtain ⟨c, tag, service, hask, htag, ha, hrest⟩ := h
      exact ⟨c, tag, service, hask, htag, (hservices a rfl).trans ha, hrest⟩
  | loaded a tmp =>
      obtain ⟨c, tag, service, hask, htag, ha, hrest⟩ := h
      exact ⟨c, tag, service, hask, htag, (hservices a (.inl rfl)).trans ha, hrest⟩
  | _ => exact h

theorem Pc.Serves.wake {level : Fin levelDeep} (h : p.Serves services ask) :
    (p.wake level b).Serves services ask := by
  unfold Pc.wake
  split
  · trivial
  · exact h

/-! ## Where a thread stands -/

theorem decided_congr (h : ∀ a, p.Touches a → s'.services a = s.services a) :
    s'.decided ask p = s.decided ask p := by
  have held : ∀ a, p.Touches a → tagAt s' a = tagAt s a ∧ ∀ c, s'.permits c a = s.permits c a := by
    intro a ha
    refine ⟨by rw [tagAt, h a ha, tagAt], fun c => by rw [St.permits, h a ha, St.permits]⟩
  cases p with
  | found c op a =>
      obtain ⟨htag, hpermits⟩ := held a rfl
      cases op <;> simp only [St.decided, htag, hpermits]
  | holding c op a =>
      obtain ⟨htag, hpermits⟩ := held a rfl
      simp only [St.decided, htag, hpermits]
  | filled _ a | sending _ a | replaced _ a | noticed _ a | receiving _ a | queued _ a
  | awakened _ a | counted a | unlocked a | created a | opening a | left a =>
      simp only [St.decided, (held a rfl).1]
  | _ => rfl

theorem decided_wake {level : Fin levelDeep} :
    s.decided ask (p.wake level b) = s.decided ask p := by
  unfold Pc.wake
  split
  · rename_i hp
    subst hp
    rfl
  · rfl

theorem wake_idle {level : Fin levelDeep} : p.wake level b = .idle ↔ p = .idle := by
  unfold Pc.wake
  split
  · rename_i hp
    subst hp
    simp
  · rfl

/-- What a step of thread `t` leaves to the others. -/
structure Beside (s s' : St τ) (t : τ) : Prop where
  pc : ∀ u, u ≠ t → s'.pc u = s.pc u ∨ ∃ level b, s'.pc u = (s.pc u).wake level b
  services : ∀ u, u ≠ t → ∀ a, (s.pc u).Touches a → s'.services a = s.services a

theorem Beside.standing (h : Beside s s' t) (hu : u ≠ t) (ask : Option Ask) :
    s'.standing ask last (s'.pc u) = s.standing ask last (s.pc u) := by
  have hdecided : ∀ ask, s'.decided ask (s'.pc u) = s.decided ask (s.pc u) := by
    intro ask
    rcases h.pc u hu with hpc | ⟨level, b, hpc⟩
    · rw [hpc]
      exact decided_congr (h.services u hu)
    · rw [hpc, decided_wake]
      exact decided_congr (h.services u hu)
  have hidle : s'.pc u = .idle ↔ s.pc u = .idle := by
    rcases h.pc u hu with hpc | ⟨level, b, hpc⟩
    · rw [hpc]
    · rw [hpc, wake_idle]
  unfold St.standing
  simp only [hidle, hdecided]

theorem Beside.serves (h : Beside s s' t) (hu : u ≠ t) (hp : (s.pc u).Serves s.services ask) :
    (s'.pc u).Serves s'.services ask := by
  have hsame : (s.pc u).Serves s'.services ask := hp.congr (h.services u hu)
  rcases h.pc u hu with hpc | ⟨level, b, hpc⟩
  · rwa [hpc]
  · rw [hpc]
    exact hsame.wake

theorem standing_of_decided (hp : p ≠ .idle) :
    s.standing (some ask) last p =
      match s.decided ask p with
      | none => .waits ask
      | some o => .served ask o :=
  if_neg hp

theorem standing_idle (ask : Option Ask) : s.standing ask last .idle = .rests last := if_pos rfl

/-- A thread in no call rests, with what its last call returned. -/
theorem Logged.rests (hp : f.table.pc t = .idle) : f.object.calls t = .rests (f.last t) := by
  show f.table.standing (f.ask t) (f.last t) (f.table.pc t) = _
  rw [hp, standing_idle]

/-! ## The invariant of the log -/

section Invariant

variable [Fintype τ]

/-- The invariant of the log. -/
structure Logged.Inv (f : Logged τ) : Prop where
  life : Lifetimes f.table
  locked : Locked f.table
  placed : Placed f.table
  ledger : Ledger f.table
  roomy : Roomy f.table
  minted : Minted f.table
  chosen : ∀ u c key perm i, f.table.pc u = .filling c key perm i → freeSlot f.table = some i
  asked : ∀ u, f.table.pc u ≠ .idle →
    ∃ ask, f.ask u = some ask ∧ (f.table.pc u).Serves f.table.services ask

/-- The log before any call. -/
theorem Logged.inv_initial :
    Logged.Inv ({ table := initial, ask := fun _ => none, last := fun _ => none } : Logged τ) where
  life := lifetimes_initial
  locked := locked_initial
  placed := placed_initial
  ledger := ledger_initial
  roomy := roomy_initial
  minted := fun _ _ ha => by cases ha
  chosen := fun _ _ _ _ _ hu => by cases hu
  asked := fun _ hu => absurd rfl hu

/-- What the object has of the table: the rooms, what the calls that are over got, and which calls
are waiting or have been served. -/
structure Logged.Shows (f : Logged τ) (x : Atomic τ) : Prop where
  rooms : x.rooms = f.table.rooms
  resting : ∀ t, f.table.pc t = .idle → x.calls t = .rests (f.last t)
  calling : ∀ t, f.table.pc t ≠ .idle → ∃ ask, f.ask t = some ask ∧
    (x.calls t = .waits ask ∨ ∃ o, x.calls t = .served ask o)

theorem Logged.Inv.shows (h : f.Inv) : f.Shows f.object := by
  refine ⟨rfl, fun t hp => Logged.rests hp, fun t hp => ?_⟩
  obtain ⟨ask, hask, _⟩ := h.asked t hp
  refine ⟨ask, hask, ?_⟩
  show f.table.standing (f.ask t) (f.last t) (f.table.pc t) = _ ∨
    ∃ o, f.table.standing (f.ask t) (f.last t) (f.table.pc t) = _
  rw [hask, standing_of_decided hp]
  cases f.table.decided ask (f.table.pc t) with
  | none => exact .inl rfl
  | some o => exact .inr ⟨o, rfl⟩

/-- The record a thread holds. -/
theorem Logged.Inv.record (h : f.Inv) (hp : f.table.pc t = p) (ha : p.Touches a) :
    ∃ service, f.table.services a = some service :=
  Option.isSome_iff_exists.mp (h.life.live (t := t) (hp ▸ ha))

/-- A creator that is on its way finds a slot. -/
theorem Logged.Inv.room (h : f.Inv) (hp : (f.table.pc t).OnItsWay) : (freeSlot f.table).isSome := by
  refine freeSlot_of_lt ?_
  have hpos : 0 < count Pc.OnItsWay f.table.pc := count_pos hp
  have hle : occupied f.table + count Pc.OnItsWay f.table.pc ≤ minSysTagServices := h.roomy
  omega

/-- A `REMOVE` between its clear and the counter is one that has taken effect. -/
theorem Logged.Inv.removing (h : f.Inv) :
    count Pc.OwesLower f.table.pc ≤ count Progress.Removing f.object.calls := by
  have hle : ∀ u, (f.table.pc u).OwesLower → (f.object.calls u).Removing := by
    intro u hu
    have hne : f.table.pc u ≠ .idle := by
      intro hidle
      rw [hidle] at hu
      exact hu
    obtain ⟨ask, hask, hserves⟩ := h.asked u hne
    show (f.table.standing (f.ask u) (f.last u) (f.table.pc u)).Removing
    rw [hask, standing_of_decided hne]
    cases hp : f.table.pc u with
    | cleared a tmp | freed a =>
        rw [hp] at hserves
        obtain ⟨c, tag, rfl⟩ := hserves
        exact rfl
    | _ =>
        rw [hp] at hu
        exact hu.elim
  apply Finset.sum_le_sum
  intro u _
  show (if (f.table.pc u).OwesLower then (1 : Int) else 0) ≤
    if (f.object.calls u).Removing then 1 else 0
  by_cases hu : (f.table.pc u).OwesLower
  · rw [if_pos hu, if_pos (hle u hu)]
  · rw [if_neg hu]
    exact ind_nonneg _

/-- The service that a `REMOVE` is going to take out is in its slot. -/
theorem Logged.Inv.slot (h : f.Inv) (hremoves : (f.table.pc t).Removes a)
    (htouches : (f.table.pc t).Touches a) (hnot : ∀ tmp, f.table.pc t ≠ .cleared a tmp) :
    ∃ i, f.table.slots i = some a := by
  rcases h.placed.homed a (h.life.live htouches) with hslot | ⟨u, b, hu⟩
  · exact hslot
  · -- nobody else removes it
    have hown := h.ledger.own u
    rw [hu] at hown
    obtain rfl : a = b := Option.some.inj hown
    obtain rfl : u = t := h.ledger.removers u t a (by rw [hu]; rfl) hremoves
    exact absurd hu (hnot _)

end Invariant

/-- The same table, lock and counter aside. -/
structure SameTable (s₁ s : St τ) : Prop where
  pc : s₁.pc = s.pc
  services : s₁.services = s.services
  slots : s₁.slots = s.slots

theorem SameTable.refl : SameTable s s := ⟨rfl, rfl, rfl⟩

theorem SameTable.addCount (d : UInt32) : SameTable (s.addCount d) s := ⟨rfl, rfl, rfl⟩

variable [DecidableEq τ]

theorem SameTable.rooms (h : SameTable s₁ s) : (s₁.goto t q).rooms = s.rooms := by
  show St.rooms (s₁.goto t q) = _
  unfold St.rooms
  show (fun i => (s₁.slots i).bind fun a => (s₁.services a).map asRoom) = _
  rw [h.slots, h.services]

theorem Beside.goto (hpc : s₁.pc = s.pc)
    (hservices : ∀ u, u ≠ t → ∀ a, (s.pc u).Touches a → s₁.services a = s.services a) :
    Beside s (s₁.goto t q) t := by
  refine ⟨fun u hu => .inl ?_, hservices⟩
  show Function.update s₁.pc t q u = _
  rw [Function.update_of_ne hu, hpc]

theorem SameTable.beside (h : SameTable s₁ s) : Beside s (s₁.goto t q) t :=
  .goto h.pc fun _ _ _ _ => by rw [h.services]

theorem beside_wakeAll {level : Fin levelDeep} : Beside s ((s.wakeAll level b).goto t q) t := by
  refine ⟨fun u hu => .inr ⟨level, b, ?_⟩, fun _ _ _ _ => rfl⟩
  show Function.update (s.wakeAll level b).pc t q u = _
  rw [Function.update_of_ne hu]
  rfl

/-! ## What the steps keep -/

/-- A move that fills a slot fills it with a record as it should be. -/
theorem minted_move (h : Minted s) (hm : Move s t s')
    (hperm : ∀ c key perm i, s.pc t = .filling c key perm i →
      perm = openRoom ∨ perm = privateRoom) : Minted s' := by
  cases hm with
  | @fill c key perm i hp =>
      intro a service ha
      have hnew : Function.update s.services s.brk (some (newService c key perm i)) a =
          some service := ha
      by_cases hab : a = s.brk
      · rw [hab, Function.update_self] at hnew
        exact ⟨c, key, perm, i, (Option.some.inj hnew).symm, hperm c key perm i hp⟩
      · rw [Function.update_of_ne hab] at hnew
        exact h a service hnew
  | @kfree b tmp hp =>
      cases tmp with
      | none => exact h
      | some d =>
          intro a service ha
          have hold : Function.update s.services d none a = some service := ha
          by_cases had : a = d
          · rw [had, Function.update_self] at hold
            cases hold
          · rw [Function.update_of_ne had] at hold
            exact h a service hold
  | discount hp =>
      intro a service ha
      refine h a service ?_
      rw [← (SameTable.addCount (-1)).services]
      exact ha
  | _ => exact h

/-! ## Steps of the object -/

/-- The object after a step of thread `t`. -/
theorem object_beside {f' : Logged τ} (h : Beside f.table f'.table t)
    (hask : ∀ u, u ≠ t → f'.ask u = f.ask u) (hlast : ∀ u, u ≠ t → f'.last u = f.last u) :
    f'.object = ({ f.object with rooms := f'.table.rooms } : Atomic τ).turn t
      (f'.table.standing (f'.ask t) (f'.last t) (f'.table.pc t)) := by
  have hcalls : f'.object.calls = Function.update f.object.calls t
      (f'.table.standing (f'.ask t) (f'.last t) (f'.table.pc t)) := by
    funext u
    by_cases hu : u = t
    · subst hu
      rw [Function.update_self]
      rfl
    · rw [Function.update_of_ne hu]
      show f'.table.standing (f'.ask u) (f'.last u) (f'.table.pc u) = _
      rw [hask u hu, hlast u hu]
      exact h.standing hu _
  show (⟨f'.table.rooms, f'.object.calls⟩ : Atomic τ) = _
  rw [hcalls]
  rfl

theorem object_record (h : Beside f.table s' t) (hq : s'.pc t = q) :
    (f.record t s').object =
      ({ f.object with rooms := s'.rooms } : Atomic τ).turn t
        (s'.standing (f.ask t)
          (if q = .idle then (f.ask t).map fun ask => f.table.returned ask (f.table.pc t)
          else f.last t) q) := by
  have hlast : (f.record t s').last t =
      if q = .idle then (f.ask t).map fun ask => f.table.returned ask (f.table.pc t)
      else f.last t := by
    by_cases hidle : q = .idle <;> simp [Logged.record, hq, hidle]
  have hothers : ∀ u, u ≠ t → (f.record t s').last u = f.last u := by
    intro u hu
    show (if s'.pc t = .idle then Function.update _ _ _ else f.last) u = f.last u
    split
    · exact Function.update_of_ne hu ..
    · rfl
  have hobject : (f.record t s').object = ({ f.object with rooms := s'.rooms } : Atomic τ).turn t
      (s'.standing (f.ask t) ((f.record t s').last t) (s'.pc t)) :=
    object_beside h (fun _ _ => rfl) hothers
  rw [hobject, hlast, hq]

/-- Thread `t` is at `q`, at the beginning of a call. -/
def Logged.begin (f : Logged τ) (t : τ) (ask : Ask) (q : Pc) : Logged τ where
  table := f.table.goto t q
  ask := Function.update f.ask t (some ask)
  last := f.last

theorem Logged.begin_object (hq : q ≠ .idle)
    (hdecided : f.table.decided ask q = none) :
    (f.begin t ask q).object = f.object.turn t (.waits ask) := by
  have hstand : (f.table.goto t q).standing (some ask) (f.last t) q = .waits ask := by
    have hsame : (f.table.goto t q).decided ask q = none := hdecided
    rw [standing_of_decided hq, hsame]
  have hobject : (f.begin t ask q).object =
      ({ f.object with rooms := (f.table.goto t q).rooms } : Atomic τ).turn t
        ((f.table.goto t q).standing ((f.begin t ask q).ask t) (f.last t)
          ((f.table.goto t q).pc t)) :=
    object_beside (SameTable.beside .refl) (fun _ hu => Function.update_of_ne hu ..)
      fun _ _ => rfl
  have hask : (f.begin t ask q).ask t = some ask := Function.update_self ..
  rw [hobject, hask, pc_goto_self, hstand, SameTable.rooms .refl]
  rfl

theorem Atomic.turn_self {x : Atomic τ} {p : Progress} (h : x.calls t = p) : x.turn t p = x := by
  subst h
  show ({ x with calls := Function.update x.calls t (x.calls t) } : Atomic τ) = x
  rw [Function.update_eq_self]

variable [Fintype τ]

/-- What a step of thread `t` to `s'` comes to: on the others, on its own call, on the object. -/
structure Logged.Follows (f : Logged τ) (t : τ) (s' : St τ) : Prop where
  beside : Beside f.table s' t
  serves : s'.pc t ≠ .idle → ∀ ask, f.ask t = some ask → (s'.pc t).Serves s'.services ask
  step : Atomic.Step f.object (t, .advance) (f.record t s').object

/-- A step inside a call that the object does not see. -/
theorem Logged.Follows.quiet (hask : f.ask t = some ask) (hp : f.table.pc t ≠ .idle)
    (hbeside : Beside f.table s' t) (hq : s'.pc t = q) (hidle : q ≠ .idle)
    (hrooms : s'.rooms = f.table.rooms)
    (hdecided : s'.decided ask q = f.table.decided ask (f.table.pc t))
    (hserves : q.Serves s'.services ask) : f.Follows t s' := by
  refine ⟨hbeside, fun _ ask' hask' => ?_, ?_⟩
  · obtain rfl := Option.some.inj (hask.symm.trans hask')
    rw [hq]
    exact hserves
  · have hstand : f.object.calls t = s'.standing (f.ask t) (f.last t) q := by
      show f.table.standing (f.ask t) (f.last t) (f.table.pc t) = _
      rw [hask, standing_of_decided hp, standing_of_decided hidle, hdecided]
    rw [object_record hbeside hq, if_neg hidle, hrooms]
    show Atomic.Step f.object _ (f.object.turn t _)
    rw [Atomic.turn_self hstand]
    exact .pass (.inl rfl)

/-- The call takes effect. -/
theorem Logged.Follows.takes {o : Outcome} (hask : f.ask t = some ask) (hp : f.table.pc t ≠ .idle)
    (hbeside : Beside f.table s' t) (hq : s'.pc t = q) (hidle : q ≠ .idle)
    (hbefore : f.table.decided ask (f.table.pc t) = none) (hafter : s'.decided ask q = some o)
    (hserve : serve f.table.rooms ask = (o, s'.rooms))
    (hserves : q.Serves s'.services ask) : f.Follows t s' := by
  refine ⟨hbeside, fun _ ask' hask' => ?_, ?_⟩
  · obtain rfl := Option.some.inj (hask.symm.trans hask')
    rw [hq]
    exact hserves
  · have hwaits : f.object.calls t = .waits ask := by
      show f.table.standing (f.ask t) (f.last t) (f.table.pc t) = _
      rw [hask, standing_of_decided hp, hbefore]
    have hstep := Atomic.Step.serve hwaits
    have hserve' : serve f.object.rooms ask = (o, s'.rooms) := hserve
    rw [hserve'] at hstep
    rw [object_record hbeside hq, if_neg hidle, hask, standing_of_decided hidle, hafter]
    exact hstep

/-- The call ends. -/
theorem Logged.Follows.ends (hask : f.ask t = some ask) (hp : f.table.pc t ≠ .idle)
    (hbeside : Beside f.table s' t) (hq : s'.pc t = .idle) (hrooms : s'.rooms = f.table.rooms)
    (hdecided : f.table.decided ask (f.table.pc t) =
      some (f.table.returned ask (f.table.pc t))) : f.Follows t s' := by
  refine ⟨hbeside, fun h => absurd hq h, ?_⟩
  have hserved : f.object.calls t = .served ask (f.table.returned ask (f.table.pc t)) := by
    show f.table.standing (f.ask t) (f.last t) (f.table.pc t) = _
    rw [hask, standing_of_decided hp, hdecided]
  rw [object_record hbeside hq, if_pos rfl, standing_idle, hask, hrooms]
  exact .answer hserved

/-- The call ends without an effect. -/
theorem Logged.Follows.declined {o : Outcome} (hask : f.ask t = some ask)
    (hp : f.table.pc t ≠ .idle)
    (hbeside : Beside f.table s' t) (hq : s'.pc t = .idle) (hrooms : s'.rooms = f.table.rooms)
    (hbefore : f.table.decided ask (f.table.pc t) = none)
    (hreturned : f.table.returned ask (f.table.pc t) = o)
    (hstep : f.object.calls t = .waits ask →
      Atomic.Step f.object (t, .advance) (f.object.turn t (.rests (some o)))) : f.Follows t s' := by
  refine ⟨hbeside, fun h => absurd hq h, ?_⟩
  have hwaits : f.object.calls t = .waits ask := by
    show f.table.standing (f.ask t) (f.last t) (f.table.pc t) = _
    rw [hask, standing_of_decided hp, hbefore]
  rw [object_record hbeside hq, if_pos rfl, standing_idle, hask, hrooms, Option.map_some, hreturned]
  exact hstep hwaits

end TagMessaging.Table
