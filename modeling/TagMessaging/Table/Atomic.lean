/-
# TagMessaging.Table.Atomic -- the table as an atomic object

The calls as they look from outside: each takes effect on the registry of `Serial` in one step
between its call and its return, and returns what the registry answers there (`Atomic`). Two answers
the registry alone does not give: a creator is turned down while calls of `REMOVE` are between their
effect and their return, and a `REMOVE` finds the room in use.

`Logged` is the interleaved table with what the threads asked for and what their calls return, and
`Logged.object` the object it stands for. `CREATE` takes effect with its store in the slot, `REMOVE`
with its clear, and the calls that are turned down, and those that only look a service up, with
their search.
-/
import TagMessaging.Table.Ledger
import TagMessaging.Serial.Representation

namespace TagMessaging.Table

open TagMessaging.Model TagMessaging.Lib.Transition TagMessaging.Lib.RwLock TagMessaging.Lib.Tally
open TagMessaging.Serial (Room Registry)

/-! ## The object -/

/-- A call, as its caller makes it. -/
inductive Ask where
  | create (c : Caller) (key perm : Int32)
  | call (c : Caller) (op : Op)
  deriving DecidableEq, Repr

/-- What a call gets from the table. -/
inductive Outcome where
  | returns (ret : Int)
  /-- `tag_send` and `tag_receive` go on to the levels of the service with this tag. -/
  | admitted (tag : Int)
  deriving DecidableEq, Repr

/-- An environment with this caller. The registry reads nothing else of it. -/
def envOf (c : Caller) : Env where
  caller := c
  moduleLive := true
  notCopied := 0
  waitEnd := .woken
  notSent := []
  kmallocFails := fun _ => false
  staleService := fun _ => newService c 0 0 0
  staleElement := fun _ => { next := none, level := 0, message := none, size := 0 }

/-- `tag_send` and `tag_receive` before they come to a level. -/
def reachLevel (R : Registry) (c : Caller) (tag : Int32) : Outcome :=
  match R.roomOf tag with
  | none => .returns Errno.ENOMSG.neg
  | some (i, room) => if room.closedTo c then .returns Errno.EBADRQC.neg else .admitted i

/-- The call, executed on the registry. -/
def serve (R : Registry) : Ask → Outcome × Registry
  | .create c key perm =>
      (.returns (R.create (envOf c) key perm).1, (R.create (envOf c) key perm).2)
  | .call c (.open key) => (.returns (R.openKey (envOf c) key), R)
  | .call c (.send tag _) | .call c (.receive tag _) => (reachLevel R c tag, R)
  | .call c (.awakeAll tag) =>
      (.returns (R.ctl (envOf c) tag cmdAwakeAll).1, (R.ctl (envOf c) tag cmdAwakeAll).2)
  | .call c (.remove tag) =>
      (.returns (R.ctl (envOf c) tag cmdRemove).1, (R.ctl (envOf c) tag cmdRemove).2)

/-- Where a thread stands to the object. -/
inductive Progress where
  /-- In no call; `last` is what the last one got. -/
  | rests (last : Option Outcome)
  | waits (ask : Ask)
  /-- The call has taken effect. -/
  | served (ask : Ask) (o : Outcome)
  deriving DecidableEq, Repr

/-- A `REMOVE` that has taken effect and not returned. -/
def Progress.Removing : Progress → Prop
  | .served (.call _ (.remove _)) o => o = .returns 0
  | _ => False

instance (p : Progress) : Decidable p.Removing := by
  unfold Progress.Removing
  split <;> infer_instance

/-- The registry and the calls in progress. -/
structure Atomic (τ : Type) where
  rooms : Registry
  calls : τ → Progress

variable {τ : Type}

def Atomic.initial : Atomic τ where
  rooms := Registry.empty
  calls := fun _ => .rests none

section Steps

variable [DecidableEq τ] [Fintype τ]

/-- Thread `t` goes on to `p`. -/
def Atomic.turn (x : Atomic τ) (t : τ) (p : Progress) : Atomic τ :=
  { x with calls := Function.update x.calls t p }

/-- One step of one thread. -/
inductive Atomic.Step (x : Atomic τ) : τ × Act → Atomic τ → Prop
  | create {t : τ} {last : Option Outcome} {c : Caller} {key perm : Int32} :
      x.calls t = .rests last →
      Step x (t, .create c key perm) (x.turn t (.waits (.create c key perm)))
  | call {t : τ} {last : Option Outcome} {c : Caller} {op : Op} :
      x.calls t = .rests last → Step x (t, .call c op) (x.turn t (.waits (.call c op)))
  /-- The call takes effect. -/
  | serve {t : τ} {ask : Ask} : x.calls t = .waits ask →
      Step x (t, .advance)
        ({ x with rooms := (serve x.rooms ask).2 }.turn t (.served ask (serve x.rooms ask).1))
  /-- The table is full, or calls of `REMOVE` have still to return. -/
  | full {t : τ} {c : Caller} {key perm : Int32} : x.calls t = .waits (.create c key perm) →
      (minSysTagServices : Int) ≤ x.rooms.live + count Progress.Removing x.calls →
      Step x (t, .advance) (x.turn t (.rests (some (.returns Errno.ETOOMANYREFS.neg))))
  /-- Threads wait in the room. -/
  | inUse {t : τ} {c : Caller} {tag : Int32} {i : Fin minSysTagServices} {room : Room} :
      x.calls t = .waits (.call c (.remove tag)) → x.rooms.roomOf tag = some (i, room) →
      room.closedTo c = false →
      Step x (t, .advance) (x.turn t (.rests (some (.returns Errno.EADDRINUSE.neg))))
  | answer {t : τ} {ask : Ask} {o : Outcome} : x.calls t = .served ask o →
      Step x (t, .advance) (x.turn t (.rests (some o)))
  | pass {t : τ} {act : Act} : act = .advance ∨ act = .sleepAgain → Step x (t, act) x

/-- The object. -/
def atomic (τ : Type) [DecidableEq τ] [Fintype τ] : System (Atomic τ) (τ × Act) where
  init := fun x => x = .initial
  step := Atomic.Step

end Steps

/-! ## What the calls return -/

/-- The interleaved table, with the call each thread is in, or was in last, and what it got. -/
structure Logged (τ : Type) where
  table : St τ
  ask : τ → Option Ask
  last : τ → Option Outcome

/-- `service->tag` as an `int`. -/
def tagAt (s : St τ) (a : Addr) : Int :=
  (s.services a).elim 0 fun service => service.tag.toInt32.toInt

/-- What the calls answer where no service is found. -/
def Ask.missing : Ask → Int
  | .call _ (.remove _) => Errno.ENODATA.neg
  | _ => Errno.ENOMSG.neg

/-- What a call returns that ends at `p`. -/
def St.returned (s : St τ) (ask : Ask) : Pc → Outcome
  | .creating .. => .returns Errno.ETOOMANYREFS.neg
  | .refused => .returns Errno.EBADR.neg
  | .choosing _ key _ =>
      .returns (if key = tagIpcPrivate then Errno.EBADR.neg else Errno.EFAULT.neg)
  | .created a | .opening a => .returns (tagAt s a)
  | .missed => .returns ask.missing
  | .found .. | .holding .. => .returns Errno.EBADRQC.neg
  | .replaced _ a | .noticed _ a | .left a => .admitted (tagAt s a)
  | .checked _ => .returns Errno.EADDRINUSE.neg
  -- the ends of `AWAKE_ALL` and `REMOVE`; no call ends anywhere else
  | _ => .returns 0

variable [DecidableEq τ]

/-- The log after an `advance` of thread `t` to `s`. -/
def Logged.record (f : Logged τ) (t : τ) (s : St τ) : Logged τ where
  table := s
  ask := f.ask
  last :=
    if s.pc t = .idle then
      Function.update f.last t ((f.ask t).map fun ask => f.table.returned ask (f.table.pc t))
    else f.last

/-- One step of one thread. -/
def Logged.step [Fintype τ] (f : Logged τ) : τ × Act → Option (Logged τ)
  | (t, .create c key perm) =>
      (Table.step f.table (t, .create c key perm)).map fun s =>
        { f with table := s, ask := Function.update f.ask t (some (.create c key perm)) }
  | (t, .call c op) =>
      (Table.step f.table (t, .call c op)).map fun s =>
        { f with table := s, ask := Function.update f.ask t (some (.call c op)) }
  | (t, .advance) => (advance f.table t).map (f.record t)
  | (t, .sleepAgain) => (Table.step f.table (t, .sleepAgain)).map fun s => { f with table := s }

/-- The table and its threads, with the log. -/
def logged (τ : Type) [DecidableEq τ] [Fintype τ] : System (Logged τ) (τ × Act) :=
  System.ofStep { table := initial, ask := fun _ => none, last := fun _ => none } Logged.step

/-! ## The object the table stands for -/

omit [DecidableEq τ]

/-- The room of a record. -/
def asRoom (service : TAGService) : Room where
  key := service.key
  creator := service.uidCreator
  permission := service.perm
  message := fun _ => []

/-- The rooms in the slots. -/
def St.rooms (s : St τ) : Registry := fun i =>
  (s.slots i).bind fun a => (s.services a).map asRoom

/-- The permission check of a caller on a record. -/
def St.permits (s : St τ) (c : Caller) (a : Addr) : Bool :=
  (s.services a).any (validServiceOperation c)

/-- What a call gets that is permitted. -/
def Op.granted (tag : Int) : Op → Outcome
  | .open _ => .returns tag
  | .send .. | .receive .. => .admitted tag
  | .awakeAll _ | .remove _ => .returns 0

/-- What a call is going to return that has taken effect. -/
def St.decided (s : St τ) (ask : Ask) : Pc → Option Outcome
  | .refused => some (.returns Errno.EBADR.neg)
  | .filled _ a | .counted a | .unlocked a | .created a | .opening a =>
      some (.returns (tagAt s a))
  | .missed => some (.returns ask.missing)
  | .found c (.remove _) a =>
      if s.permits c a then none else some (.returns Errno.EBADRQC.neg)
  | .found c op a | .holding c op a =>
      some (if s.permits c a then op.granted (tagAt s a) else .returns Errno.EBADRQC.neg)
  | .sending _ a | .replaced _ a | .noticed _ a | .receiving _ a | .queued _ a | .awakened _ a
  | .left a => some (.admitted (tagAt s a))
  | .waking .. | .awoken | .cleared .. | .freed _ | .discounted _ => some (.returns 0)
  | _ => none

/-- Where a thread at `p` stands to the object. -/
def St.standing (s : St τ) (ask : Option Ask) (last : Option Outcome) (p : Pc) : Progress :=
  if p = .idle then .rests last
  else
    match ask with
    | none => .rests last
    | some ask =>
        match s.decided ask p with
        | none => .waits ask
        | some o => .served ask o

/-- The object. -/
def Logged.object (f : Logged τ) : Atomic τ where
  rooms := f.table.rooms
  calls := fun t => f.table.standing (f.ask t) (f.last t) (f.table.pc t)

/-! ## Records and rooms -/

variable {s s' : St τ} {t u : τ} {p q : Pc} {a b : Addr} {i j : Fin minSysTagServices}
variable {service : TAGService} {c : Caller} {key perm tag : Int32} {op : Op}

/-- Every record is as a creator filled it in, with one of the two permissions. -/
def Minted (s : St τ) : Prop := ∀ a service, s.services a = some service →
  ∃ c key perm i, service = newService c key perm i ∧ (perm = openRoom ∨ perm = privateRoom)

theorem find?_of_unique {n : Nat} {test : Fin n → Bool} {i : Fin n} (hi : test i = true)
    (hunique : ∀ j, test j = true → j = i) : (List.finRange n).find? test = some i := by
  cases h : (List.finRange n).find? test with
  | none => exact absurd hi (List.find?_eq_none.mp h i (List.mem_finRange i))
  | some j => rw [hunique j (List.find?_some h)]

theorem search_some {test : TAGService → Bool} {is : List (Fin minSysTagServices)}
    (h : search s test is = some (some a)) :
    ∃ i service, s.slots i = some a ∧ s.services a = some service ∧ test service = true := by
  induction is with
  | nil => simp [Table.search] at h
  | cons i is ih =>
      rw [Table.search] at h
      cases hi : s.slots i with
      | none =>
          rw [hi] at h
          exact ih h
      | some b =>
          rw [hi] at h
          cases hb : s.services b with
          | none => simp [hb] at h
          | some service =>
              simp only [hb] at h
              split at h
              · rename_i htest
                obtain rfl : b = a := by simpa using h
                exact ⟨i, service, hi, hb, htest⟩
              · exact ih h

theorem rooms_of_slot (hi : s.slots i = some a) (ha : s.services a = some service) :
    s.rooms i = some (asRoom service) := by
  simp [St.rooms, hi, ha]

theorem slot_of_rooms {room : Room} (h : s.rooms i = some room) :
    ∃ a service, s.slots i = some a ∧ s.services a = some service ∧ room = asRoom service := by
  obtain ⟨a, ha, hroom⟩ := Option.bind_eq_some_iff.mp h
  obtain ⟨service, hservice, rfl⟩ := Option.map_eq_some_iff.mp hroom
  exact ⟨a, service, ha, hservice, rfl⟩

/-- The permission check of the code is the room's own. -/
theorem Minted.valid (h : Minted s) (ha : s.services a = some service) (c : Caller) :
    validServiceOperation c service = !(asRoom service).closedTo c := by
  obtain ⟨d, key, perm, i, rfl, hperm⟩ := h a service ha
  rw [Model.validServiceOperation, Room.closedTo, asRoom]
  by_cases hcreator : d.tgid = c.tgid <;> rcases hperm with rfl | rfl <;> cases c.isRoot <;>
    simp [newService, openRoom, privateRoom, hcreator]

/-- A record tells the number of its slot. -/
theorem Minted.tagAt (h : Minted s) (ha : slotOf s.services a = some i) : tagAt s a = i := by
  obtain ⟨service, hservice, hindex⟩ := slotOf_eq_some.mp ha
  obtain ⟨d, key, perm, j, rfl, _⟩ := h a service hservice
  rw [tagIndex_newService] at hindex
  obtain rfl := Option.some.inj hindex
  rw [Table.tagAt, hservice]
  exact Serial.tag_toInt j

/-- The comparison of `searchTAG_Service_withTag` finds the slot the argument names. -/
theorem Minted.tag_iff (h : Minted s) (hlife : Lifetimes s) (hi : s.slots i = some a)
    (ha : s.services a = some service) (tag : Int32) :
    service.tag = tag.toUInt32 ↔ Registry.slotOf tag = some i := by
  obtain ⟨d, key, perm, j, rfl, _⟩ := h a service ha
  have hj : slotOf s.services a = some j :=
    slotOf_eq_some.mpr ⟨_, ha, tagIndex_newService d key perm j⟩
  obtain rfl : i = j := Option.some.inj ((hlife.slots i a hi).symm.trans hj)
  exact Serial.ofNat_eq_toUInt32_iff

theorem freeSlot_eq (h : Lifetimes s) : freeSlot s = s.rooms.freeTag := by
  refine congrArg (fun p => (List.finRange minSysTagServices).find? p) (funext fun i => ?_)
  cases hi : s.slots i with
  | none => simp [St.rooms, hi]
  | some a =>
      obtain ⟨service, hservice⟩ := Option.isSome_iff_exists.mp (h.slot_live hi)
      simp [rooms_of_slot hi hservice]

theorem live_eq (h : Lifetimes s) : s.rooms.live = occupied s := by
  have hslot : ∀ i, Registry.occupied (s.rooms i) = if (s.slots i).isSome then 1 else 0 := by
    intro i
    cases hi : s.slots i with
    | none => simp [St.rooms, hi, Registry.occupied]
    | some a =>
        obtain ⟨service, hservice⟩ := Option.isSome_iff_exists.mp (h.slot_live hi)
        simp [rooms_of_slot hi hservice, Registry.occupied]
  simp only [Registry.live, Table.occupied, count, tally, hslot]

/-! ## Searches and lookups -/

/-- No key is there that the search did not find. -/
theorem tagOfKey_none (hnone : search s (fun service => service.key = key)
    (List.finRange minSysTagServices) = some none) : s.rooms.tagOfKey key = none := by
  refine List.find?_eq_none.mpr fun i _ hi => ?_
  obtain ⟨room, hroom, hkey⟩ := (Option.any_eq_true _ _).mp hi
  obtain ⟨a, service, ha, hservice, rfl⟩ := slot_of_rooms hroom
  have hfalse := search_none hnone (List.mem_finRange i) ha hservice
  exact of_decide_eq_false hfalse (of_decide_eq_true hkey)

theorem tagOfKey_some (hlife : Lifetimes s) (hd : KeysDistinct s.services)
    (hi : s.slots i = some a) (ha : s.services a = some service) (hkey : service.key = key)
    (hpublic : key ≠ tagIpcPrivate) : s.rooms.tagOfKey key = some i := by
  refine find?_of_unique ?_ fun j hj => ?_
  · simp [rooms_of_slot hi ha, asRoom, hkey]
  · obtain ⟨room, hroom, hkey'⟩ := (Option.any_eq_true _ _).mp hj
    obtain ⟨b, service', hb, hservice', rfl⟩ := slot_of_rooms hroom
    have hsame : service'.key = key := of_decide_eq_true hkey'
    obtain rfl : b = a := hd b a service' service hservice' ha (hsame.trans hkey.symm)
      (hsame ▸ hpublic)
    exact Option.some.inj ((hlife.slots j b hb).symm.trans (hlife.slots i b hi))

theorem roomOf_none (hlife : Lifetimes s) (hm : Minted s)
    (hnone : search s (fun service => service.tag = tag.toUInt32)
      (List.finRange minSysTagServices) = some none) : s.rooms.roomOf tag = none := by
  cases hslot : Registry.slotOf tag with
  | none => simp [Registry.roomOf, hslot]
  | some i =>
      cases hroom : s.rooms i with
      | none => simp [Registry.roomOf, hslot, hroom]
      | some room =>
          obtain ⟨a, service, ha, hservice, _⟩ := slot_of_rooms hroom
          have hfalse := search_none hnone (List.mem_finRange i) ha hservice
          have htrue := (hm.tag_iff hlife ha hservice tag).mpr hslot
          exact absurd htrue (by simpa using hfalse)

theorem roomOf_some (hlife : Lifetimes s) (hm : Minted s) (hi : s.slots i = some a)
    (ha : s.services a = some service) (htag : service.tag = tag.toUInt32) :
    s.rooms.roomOf tag = some (i, asRoom service) := by
  have hslot := (hm.tag_iff hlife hi ha tag).mp htag
  simp [Registry.roomOf, hslot, rooms_of_slot hi ha]

/-! ## What the registry answers -/

/-- The calls that come to the table: the entry points turn the others away first. -/
def Op.Allowed : Op → Prop
  | .open key => key ≠ tagIpcPrivate
  | .awakeAll tag | .remove tag => 0 ≤ tag
  | _ => True

instance (op : Op) : Decidable op.Allowed := by
  unfold Op.Allowed
  split <;> infer_instance

theorem permits_eq (hm : Minted s) (ha : s.services a = some service) (c : Caller) :
    s.permits c a = !(asRoom service).closedTo c := by
  rw [St.permits, ha, Option.any_some]
  exact hm.valid ha c

/-- A call that finds no service. -/
theorem serve_missing (hlife : Lifetimes s) (hm : Minted s) (hop : op.Allowed)
    (hnone : search s op.test (List.finRange minSysTagServices) = some none) (c : Caller) :
    serve s.rooms (.call c op) = (.returns (Ask.missing (.call c op)), s.rooms) := by
  cases op with
  | «open» key =>
      have hkey : s.rooms.tagOfKey key = none := tagOfKey_none hnone
      have hpublic : key ≠ tagIpcPrivate := hop
      simp [serve, Registry.openKey, hpublic, hkey, Ask.missing]
  | send tag level | receive tag level =>
      have hroom : s.rooms.roomOf tag = none := roomOf_none hlife hm hnone
      simp [serve, reachLevel, hroom, Ask.missing]
  | awakeAll tag | remove tag =>
      have hroom : s.rooms.roomOf tag = none := roomOf_none hlife hm hnone
      have htag : ¬ tag < 0 := Int32.not_lt.mpr hop
      simp [serve, Registry.ctl, envOf, htag, hroom, Ask.missing, cmdAwakeAll, cmdRemove]

/-- A call that finds one, and takes nothing out. -/
theorem serve_found (hlife : Lifetimes s) (hm : Minted s) (hd : KeysDistinct s.services)
    (hop : op.Allowed) (hi : s.slots i = some a) (ha : s.services a = some service)
    (htest : op.test service = true) (hstays : (∀ tag, op ≠ .remove tag) ∨ s.permits c a = false) :
    serve s.rooms (.call c op) =
      (if s.permits c a then op.granted (tagAt s a) else .returns Errno.EBADRQC.neg, s.rooms) := by
  have htagAt : tagAt s a = i := hm.tagAt (hlife.slots i a hi)
  have hpermits := permits_eq hm ha c
  rw [htagAt]
  cases op with
  | «open» key =>
      have hpublic : key ≠ tagIpcPrivate := hop
      have hkey : s.rooms.tagOfKey key = some i :=
        tagOfKey_some hlife hd hi ha (of_decide_eq_true htest) hpublic
      cases hclosed : (asRoom service).closedTo c <;>
        simp [serve, Registry.openKey, hpublic, hkey, rooms_of_slot hi ha, envOf, hpermits, hclosed,
          Op.granted]
  | send tag level | receive tag level =>
      have hroom : s.rooms.roomOf tag = some (i, asRoom service) :=
        roomOf_some hlife hm hi ha (of_decide_eq_true htest)
      cases hclosed : (asRoom service).closedTo c <;>
        simp [serve, reachLevel, hroom, hpermits, hclosed, Op.granted]
  | awakeAll tag =>
      have hroom : s.rooms.roomOf tag = some (i, asRoom service) :=
        roomOf_some hlife hm hi ha (of_decide_eq_true htest)
      have htag : ¬ tag < 0 := Int32.not_lt.mpr hop
      cases hclosed : (asRoom service).closedTo c <;>
        simp [serve, Registry.ctl, envOf, htag, hroom, hpermits, hclosed, Op.granted]
  | remove tag =>
      have hroom : s.rooms.roomOf tag = some (i, asRoom service) :=
        roomOf_some hlife hm hi ha (of_decide_eq_true htest)
      have htag : ¬ tag < 0 := Int32.not_lt.mpr hop
      have hfalse : s.permits c a = false := hstays.resolve_left fun h => h tag rfl
      have hclosed : (asRoom service).closedTo c = true := by simpa [hpermits] using hfalse
      simp [serve, Registry.ctl, envOf, htag, hroom, hclosed, hfalse, cmdAwakeAll, cmdRemove]

/-- A `REMOVE` that is permitted. -/
theorem serve_remove (hlife : Lifetimes s) (hm : Minted s) (htag : 0 ≤ tag)
    (hi : s.slots i = some a) (ha : s.services a = some service)
    (htest : service.tag = tag.toUInt32) (hvalid : validServiceOperation c service = true) :
    serve s.rooms (.call c (.remove tag)) = (.returns 0, Function.update s.rooms i none) := by
  have hroom : s.rooms.roomOf tag = some (i, asRoom service) := roomOf_some hlife hm hi ha htest
  have hnot : ¬ tag < 0 := Int32.not_lt.mpr htag
  have hclosed : (asRoom service).closedTo c = false := by
    simpa [hm.valid ha c] using hvalid
  simp [serve, Registry.ctl, envOf, hnot, hroom, hclosed, cmdAwakeAll, cmdRemove]

/-- A `CREATE` that comes to a free slot. -/
theorem serve_create (hlife : Lifetimes s) (hfree : freeSlot s = some i)
    (hkey : KeyFree s.services key) :
    serve s.rooms (.create c key perm) =
      (.returns i, Function.update s.rooms i (some (asRoom (newService c key perm i)))) := by
  have hnone : key ≠ tagIpcPrivate → s.rooms.tagOfKey key = none := by
    intro hpublic
    refine List.find?_eq_none.mpr fun j _ hj => ?_
    obtain ⟨room, hroom, hsame⟩ := (Option.any_eq_true _ _).mp hj
    obtain ⟨b, service, _, hservice, rfl⟩ := slot_of_rooms hroom
    exact hkey hpublic b service hservice (of_decide_eq_true hsame)
  have htaken : ¬ (key ≠ tagIpcPrivate ∧ (s.rooms.tagOfKey key).isSome) := by
    rintro ⟨hpublic, hsome⟩
    simp [hnone hpublic] at hsome
  have hfree' : s.rooms.freeTag = some i := freeSlot_eq hlife ▸ hfree
  have hcreate : s.rooms.create (envOf c) key perm =
      ((i : Int), Function.update s.rooms i (some (asRoom (newService c key perm i)))) := by
    rw [Registry.create, hfree']
    exact if_neg htaken
  rw [serve, hcreate]

/-- A `CREATE` that finds its key in the table. -/
theorem serve_refused (hlife : Lifetimes s) (hd : KeysDistinct s.services)
    (hfree : (freeSlot s).isSome) (hpublic : key ≠ tagIpcPrivate)
    (hi : s.slots i = some a) (ha : s.services a = some service) (hkey : service.key = key) :
    serve s.rooms (.create c key perm) = (.returns Errno.EBADR.neg, s.rooms) := by
  obtain ⟨j, hj⟩ := Option.isSome_iff_exists.mp hfree
  have hfree' : s.rooms.freeTag = some j := freeSlot_eq hlife ▸ hj
  have htaken : s.rooms.tagOfKey key = some i := tagOfKey_some hlife hd hi ha hkey hpublic
  have hcreate : s.rooms.create (envOf c) key perm = (Errno.EBADR.neg, s.rooms) := by
    rw [Registry.create, hfree']
    exact if_pos ⟨hpublic, by rw [htaken]; rfl⟩
  rw [serve, hcreate]

/-! ## What the steps do to the rooms -/

theorem rooms_fill (hlife : Lifetimes s) (service : TAGService) :
    (s.fill i service).rooms = Function.update s.rooms i (some (asRoom service)) := by
  funext j
  by_cases hji : j = i
  · subst hji
    simp [St.rooms, St.fill]
  · rw [Function.update_of_ne hji]
    cases hj : s.slots j with
    | none => simp [St.rooms, St.fill, hji, hj]
    | some a =>
        have ha : a ≠ s.brk := hlife.ne_brk (hlife.slot_live hj)
        simp [St.rooms, St.fill, hji, hj, ha]

theorem rooms_clear : (s.clear i).rooms = Function.update s.rooms i none := by
  funext j
  by_cases hji : j = i
  · subst hji
    simp [St.rooms, St.clear]
  · simp [St.rooms, St.clear, hji]

theorem rooms_kfree (hout : ∀ i, s.slots i ≠ some a) : (s.kfree (some a)).rooms = s.rooms := by
  funext j
  cases hj : s.slots j with
  | none => simp [St.rooms, St.kfree, hj]
  | some b =>
      have hba : b ≠ a := by
        rintro rfl
        exact hout j hj
      simp [St.rooms, St.kfree, hj, hba]

end TagMessaging.Table
