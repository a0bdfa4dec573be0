/-
# TagMessaging.Model.Service -- the services of `TAG_Messagin_help.c`

The checks on the arguments, the permission check, the two linear searches of the table and the
creation of a service in the first free slot.
-/
import TagMessaging.Model.RcuList

namespace TagMessaging.Model

open TagMessaging.Lib.Effect

/-- `permAmmisible`: 0 for the two permissions there are. -/
def permAmmisible (perm : Int32) : Int32 :=
  if perm = openRoom ∨ perm = privateRoom then 0 else -1

/-- `keyAmmissible`. -/
def keyAmmissible (key : Int32) : Int32 :=
  if key = 0 then -1 else 0

/-- `validServiceOperation`, on the caller and the record's fields. -/
def validServiceOperation (caller : Caller) (service : TAGService) : Bool :=
  if caller.isRoot then true
  else if service.perm = openRoom then true
  else if service.perm = privateRoom then decide (service.uidCreator = caller.tgid)
  else false

/-- `for (i = 0; i < min_sys_TAG_Services; i++) if (tagServices[i] != NULL) if (…) return
tagServices[i];`, with the test a parameter. -/
def findService (test : TAGService → Bool) : List (Fin minSysTagServices) → Kernel Ptr
  | [] => pure none
  | i :: is => do
      let p ← loadSlot i
      match p with
      | none => findService test is
      | some a => do
          let service ← loadService (some a)
          if test service then pure (some a) else findService test is

/-- `searchTAG_Service_withKey`. -/
def searchTAGServiceWithKey (key : Int32) : Kernel Ptr :=
  findService (fun service => service.key = key) (List.finRange minSysTagServices)

/-- `searchTAG_Service_withTag`: the comparison converts the tag asked for to `unsigned int`. -/
def searchTAGServiceWithTag (tag : Int32) : Kernel Ptr :=
  findService (fun service => service.tag = tag.toUInt32) (List.finRange minSysTagServices)

/-- `for (j = 0; j < levelDeep; j++) list_insert(l, j, "", 0);`. The string literal is never read,
its size being 0, and stands here as `NULL`. -/
def insertLevels (l : Addr) : List (Fin levelDeep) → Kernel Unit
  | [] => pure ()
  | j :: js => do
      let _ ← rcuListInsert l (Int32.ofNat j) none 0
      insertLevels l js

/-- The body of the loop of `new_TAG_Service` for the first slot that is `NULL`. -/
def fillSlot (i : Fin minSysTagServices) (key uidCreator perm : Int32) : Kernel Ptr := do
  let p ← kmallocService
  storeSlot i p
  storeService p fun service =>
    { service with key := key, tag := UInt32.ofNat i, uidCreator := uidCreator, perm := perm }
  match p with
  | none => pure none
  | some l => do
      rcuListInit l
      insertLevels l (List.finRange levelDeep)
      pure (some l)

/-- `new_TAG_Service`, over the slots still to look at. -/
def newTAGServiceFrom (key uidCreator perm : Int32) : List (Fin minSysTagServices) → Kernel Ptr
  | [] => pure none
  | i :: is => do
      let p ← loadSlot i
      match p with
      | none => fillSlot i key uidCreator perm
      | some _ => newTAGServiceFrom key uidCreator perm is

/-- `new_TAG_Service`. -/
def newTAGService (key uidCreator perm : Int32) : Kernel Ptr :=
  newTAGServiceFrom key uidCreator perm (List.finRange minSysTagServices)

theorem toNat_ofNat_slot (i : Fin minSysTagServices) : (UInt32.ofNat i).toNat = i := by
  have hi : i.val < 256 := i.isLt
  refine UInt32.toNat_ofNat_of_lt' ?_
  rw [UInt32.size]
  omega

end TagMessaging.Model
