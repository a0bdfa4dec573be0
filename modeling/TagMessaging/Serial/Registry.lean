/-
# TagMessaging.Serial.Registry -- what the four calls are for

The module as its users see it: a partial map from tags to rooms, where a room has a key, a
creator, a permission and one message for each level. `Registry.step` says, for each call, what it
answers and which room it changes. There is no memory here, no counter and no list; that the code
computes these answers is `Serial.Refinement`.
-/
import TagMessaging.Model.Calls
import TagMessaging.Lib.Tally

namespace TagMessaging.Serial

open TagMessaging.Lib.Tally TagMessaging.Model

/-- A live service: who made it, who may use it, and the last message of each level. -/
structure Room where
  key : Int32
  creator : Int32
  permission : Int32
  message : Fin levelDeep → List UInt8

/-- The rooms by tag. -/
abbrev Registry := Fin minSysTagServices → Option Room

/-- A private room is closed to all but its creator and root. -/
def Room.closedTo (room : Room) (caller : Caller) : Bool :=
  !caller.isRoot && decide (room.permission = privateRoom) && decide (room.creator ≠ caller.tgid)

namespace Registry

/-- 1 for a tag in use. -/
def occupied (room : Option Room) : Int := if room.isSome then 1 else 0

/-- How many rooms are live. -/
def live (R : Registry) : Int := tally occupied R

/-- The smallest free tag. -/
def freeTag (R : Registry) : Option (Fin minSysTagServices) :=
  (List.finRange minSysTagServices).find? fun i => (R i).isNone

/-- The tag of a live key, the smallest if there are several. -/
def tagOfKey (R : Registry) (key : Int32) : Option (Fin minSysTagServices) :=
  (List.finRange minSysTagServices).find? fun i => (R i).any fun room => room.key = key

/-- The tag an argument names, if it is in range. -/
def slotOf (tag : Int32) : Option (Fin minSysTagServices) :=
  if h : 0 ≤ tag.toInt ∧ tag.toInt < minSysTagServices then
    some (indexOf tag.toInt h)
  else none

/-- The live room an argument names, with its tag. -/
def roomOf (R : Registry) (tag : Int32) : Option (Fin minSysTagServices × Room) :=
  (slotOf tag).bind fun i => (R i).map fun room => (i, room)

/-! ## The calls -/

variable (R : Registry) (env : Env)

/-- Create a room at the smallest free tag. -/
def create (key permission : Int32) : Int × Registry :=
  match R.freeTag with
  | none => (Errno.ETOOMANYREFS.neg, R)
  | some i =>
    if key ≠ tagIpcPrivate ∧ (R.tagOfKey key).isSome then (Errno.EBADR.neg, R)
    else
      (i, Function.update R i (some
        { key := key, creator := env.caller.tgid, permission := permission,
          message := fun _ => [] }))

/-- Ask for the tag of a public key. -/
def openKey (key : Int32) : Int :=
  if key = tagIpcPrivate then Errno.EBADSLT.neg
  else
    match (R.tagOfKey key).bind fun i => (R i).map fun room => (i, room) with
    | none => Errno.ENOMSG.neg
    | some (i, room) => if room.closedTo env.caller then Errno.EBADRQC.neg else i

/-- `tag_get`: the permission is looked at first, then the key, then the command. -/
def get (key command permission : Int32) : Int × Registry :=
  if !env.moduleLive then (Errno.ENOSYS.neg, R)
  else if permission ≠ openRoom ∧ permission ≠ privateRoom then (Errno.EBADRQC.neg, R)
  else if key = 0 then (Errno.EILSEQ.neg, R)
  else if command = cmdCreate then R.create env key permission
  else if command = cmdOpen then (R.openKey env key, R)
  else (Errno.EILSEQ.neg, R)

/-- The room with another message at one level. -/
def put (i : Fin minSysTagServices) (room : Room) (j : Fin levelDeep) (bytes : List UInt8) :
    Registry :=
  Function.update R i (some { room with message := Function.update room.message j bytes })

/-- `tag_send`. -/
def send (tag level : Int32) (buffer : Option (Nat → UInt8)) (size : Nat) : Int × Registry :=
  if !env.moduleLive then (Errno.ENOSYS.neg, R)
  else
    match buffer with
    | none => (Errno.EXFULL.neg, R)
    | some user =>
      if size > maxMessageSize then (Errno.EXFULL.neg, R)
      else if min env.notCopied size ≠ 0 then (Errno.ENODATA.neg, R)
      else
        match R.roomOf tag with
        | none => (Errno.ENOMSG.neg, R)
        | some (i, room) =>
          if room.closedTo env.caller then (Errno.EBADRQC.neg, R)
          else if level.toInt ≥ levelDeep then (Errno.EBADSLT.neg, R)
          else if h : 0 ≤ level.toInt ∧ level.toInt < levelDeep then
            (0, R.put i room (indexOf level.toInt h) ((List.range size).map user))
          else (Errno.EBADMSG.neg, R)

/-- `tag_receive`, whose answer is the message of the level once the wait is over. For a negative
level nothing is promised. -/
def receive (tag level : Int32) (bufferNull : Bool) (size : Nat) : Answer :=
  if !env.moduleLive then .ofRet Errno.ENOSYS.neg
  else if size > maxMessageSize ∨ bufferNull then .ofRet Errno.EXFULL.neg
  else
    match R.roomOf tag with
    | none => .ofRet Errno.ENOMSG.neg
    | some (_, room) =>
      if room.closedTo env.caller then .ofRet Errno.EBADRQC.neg
      else if h : 0 ≤ level.toInt ∧ level.toInt < levelDeep then
        match env.waitEnd with
        | .signal => .ofRet Errno.EUCLEAN.neg
        | .woken =>
          let bytes := (room.message (indexOf level.toInt h)).take size
          { ret := bytes.length, bytes := bytes }
      else .ofRet Errno.EBADSLT.neg

/-- `tag_ctl`. -/
def ctl (tag command : Int32) : Int × Registry :=
  if !env.moduleLive then (Errno.ENOSYS.neg, R)
  else if tag < 0 then (Errno.ENOSR.neg, R)
  else if command = cmdAwakeAll then
    match R.roomOf tag with
    | none => (Errno.ENOMSG.neg, R)
    | some (_, room) => if room.closedTo env.caller then (Errno.EBADRQC.neg, R) else (0, R)
  else if command = cmdRemove then
    match R.roomOf tag with
    | none => (Errno.ENODATA.neg, R)
    | some (i, room) =>
      if room.closedTo env.caller then (Errno.EBADRQC.neg, R)
      else (0, Function.update R i none)
  else (Errno.EILSEQ.neg, R)

/-- One call on the registry. -/
def step : Call → Answer × Registry
  | .tagGet key command permission =>
      let r := R.get env key command permission
      (.ofRet r.1, r.2)
  | .tagSend tag level buffer size =>
      let r := R.send env tag level buffer size
      (.ofRet r.1, r.2)
  | .tagReceive tag level bufferNull size => (R.receive env tag level bufferNull size, R)
  | .tagCtl tag command =>
      let r := R.ctl env tag command
      (.ofRet r.1, r.2)

/-! ## What every registry satisfies -/

/-- The registry before any call. -/
def empty : Registry := fun _ => none

/-- Permissions are the two there are, no key is 0, and a public key is live once. -/
structure Sound (R : Registry) : Prop where
  permission : ∀ i room, R i = some room →
    room.permission = openRoom ∨ room.permission = privateRoom
  key : ∀ i room, R i = some room → room.key ≠ 0
  unique : ∀ i j room room', R i = some room → R j = some room' → room.key = room'.key →
    room.key ≠ tagIpcPrivate → i = j

variable {R : Registry} {env : Env} {i : Fin minSysTagServices} {room room' : Room}

theorem empty_sound : Sound empty where
  permission := by simp [empty]
  key := by simp [empty]
  unique := by simp [empty]

theorem empty_live : live empty = 0 := tally_eq_zero fun _ => rfl

/-- Taking a room out keeps a registry sound. -/
theorem Sound.remove (h : R.Sound) (i : Fin minSysTagServices) :
    Sound (Function.update R i none) := by
  have hsub : ∀ j room, Function.update R i none j = some room → R j = some room := by
    intro j room hj
    by_cases hji : j = i
    · simp [hji] at hj
    · simpa [hji] using hj
  exact ⟨fun j r hj => h.permission j r (hsub j r hj), fun j r hj => h.key j r (hsub j r hj),
    fun j k r r' hj hk => h.unique j k r r' (hsub j r hj) (hsub k r' hk)⟩

/-- A room may be rewritten as long as its key and permission stay. -/
theorem Sound.rewrite (h : R.Sound) (hi : R i = some room) (hkey : room'.key = room.key)
    (hperm : room'.permission = room.permission) : Sound (Function.update R i (some room')) := by
  have hsub : ∀ j r, Function.update R i (some room') j = some r →
      ∃ r₀, R j = some r₀ ∧ r.key = r₀.key ∧ r.permission = r₀.permission := by
    intro j r hj
    by_cases hji : j = i
    · subst hji
      obtain rfl : room' = r := by simpa using hj
      exact ⟨room, hi, hkey, hperm⟩
    · exact ⟨r, by simpa [hji] using hj, rfl, rfl⟩
  refine ⟨fun j r hj => ?_, fun j r hj => ?_, fun j k r r' hj hk heq hpub => ?_⟩
  · obtain ⟨r₀, hr₀, _, hp⟩ := hsub j r hj
    exact hp ▸ h.permission j r₀ hr₀
  · obtain ⟨r₀, hr₀, hk, _⟩ := hsub j r hj
    exact hk ▸ h.key j r₀ hr₀
  · obtain ⟨r₀, hr₀, hk₀, _⟩ := hsub j r hj
    obtain ⟨r₁, hr₁, hk₁, _⟩ := hsub k r' hk
    exact h.unique j k r₀ r₁ hr₀ hr₁ (hk₀ ▸ hk₁ ▸ heq) (hk₀ ▸ hpub)

/-- A new room keeps a registry sound when its key is private or not live. -/
theorem Sound.add (h : R.Sound)
    (hperm : room.permission = openRoom ∨ room.permission = privateRoom) (hkey : room.key ≠ 0)
    (hnew : room.key ≠ tagIpcPrivate → ∀ j r, R j = some r → r.key ≠ room.key) :
    Sound (Function.update R i (some room)) := by
  refine ⟨fun j r hj => ?_, fun j r hj => ?_, fun j k r r' hj hk heq hpub => ?_⟩
  · by_cases hji : j = i
    · obtain rfl : room = r := by simpa [hji] using hj
      exact hperm
    · exact h.permission j r (by simpa [hji] using hj)
  · by_cases hji : j = i
    · obtain rfl : room = r := by simpa [hji] using hj
      exact hkey
    · exact h.key j r (by simpa [hji] using hj)
  · by_cases hji : j = i <;> by_cases hki : k = i
    · exact hji.trans hki.symm
    · obtain rfl : room = r := by simpa [hji] using hj
      exact absurd heq.symm (hnew hpub k r' (by simpa [hki] using hk))
    · obtain rfl : room = r' := by simpa [hki] using hk
      exact absurd heq (hnew (heq ▸ hpub) j r (by simpa [hji] using hj))
    · exact h.unique j k r r' (by simpa [hji] using hj) (by simpa [hki] using hk) heq hpub

theorem roomOf_eq_some {tag : Int32} (h : R.roomOf tag = some (i, room)) :
    slotOf tag = some i ∧ R i = some room := by
  obtain ⟨k, hk, hroom⟩ := Option.bind_eq_some_iff.mp h
  obtain ⟨room', hroom', heq⟩ := Option.map_eq_some_iff.mp hroom
  obtain ⟨rfl, rfl⟩ := Prod.mk.inj heq
  exact ⟨hk, hroom'⟩

/-! ## Counting -/

theorem live_update (i : Fin minSysTagServices) (room : Option Room) :
    live (Function.update R i room) = R.live - occupied (R i) + occupied room :=
  tally_update i room

theorem occupied_le (room : Option Room) : occupied room ≤ 1 := by
  cases room <;> simp [occupied]

theorem occupied_nonneg (room : Option Room) : 0 ≤ occupied room := by
  cases room <;> simp [occupied]

theorem live_le : R.live ≤ minSysTagServices := by
  have h : ∑ i, occupied (R i) ≤ ∑ _ : Fin minSysTagServices, (1 : Int) :=
    Finset.sum_le_sum fun i _ => occupied_le (R i)
  simpa [live, tally] using h

theorem live_nonneg : 0 ≤ R.live := tally_nonneg occupied_nonneg

theorem freeTag_eq_none_iff : R.freeTag = none ↔ ∀ i, (R i).isSome := by
  simp [freeTag, Option.isSome_iff_ne_none]

/-- There is a free tag exactly as long as not all rooms are live. -/
theorem freeTag_eq_none_iff_live : R.freeTag = none ↔ R.live = minSysTagServices := by
  rw [freeTag_eq_none_iff]
  constructor
  · intro h
    have hall : ∀ i, occupied (R i) = 1 := fun i => if_pos (h i)
    simp [live, tally, hall]
  · intro h i
    by_contra hi
    have hzero : occupied (R i) = 0 := if_neg hi
    -- taking up the free tag would make one room more than there are tags
    have hmore := live_le (R := Function.update R i (some ⟨0, 0, 0, fun _ => []⟩))
    rw [live_update, hzero, h] at hmore
    simp [occupied] at hmore

theorem freeTag_isNone (h : R.freeTag = some i) : R i = none := by
  simpa using List.find?_some h

end Registry

end TagMessaging.Serial
