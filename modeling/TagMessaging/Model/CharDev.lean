/-
# TagMessaging.Model.CharDev -- the copy loops and the file operations of the status device

The loop around `copy_to_user` in `tag_receive` and in `dev_read`, and the operations of
`charDev.c` on an open file. `size_t` is `UInt64`, `loff_t` and `ssize_t` are `Int64`, and the
arithmetic on them is the wrapping one of the source.

A call that copies in a loop is given the number of iterations it may take, and `none` stands for a
call that is still in its loop then.
-/
import TagMessaging.Model.Status

namespace TagMessaging.Model

/-! ## The copy loop -/

/-- `offset`, what has been stored in the caller's buffer, and the requests made so far, each with
the offset it starts at and the bytes it asks for. -/
structure CopyState (α : Type) where
  offset : UInt64
  user : Nat → Option α
  requests : List (UInt64 × UInt64)

/-- The number of bytes `copy_to_user` leaves uncopied, of the number asked, when it can store
`writable` of them. -/
def copyToUserRet (writable asked : UInt64) : UInt64 :=
  if writable < asked then asked - writable else 0

variable {α : Type}

/-- `not_send = copy_to_user(buffer + offset, src + offset, len - offset);
offset += (len - offset) - not_send;` -/
def copyBody (src : Nat → α) (len writable : UInt64) (c : CopyState α) : CopyState α :=
  let notSend := copyToUserRet writable (len - c.offset)
  let sent := (len - c.offset) - notSend
  { offset := c.offset + sent
    user := fun i =>
      if c.offset.toNat ≤ i ∧ i < c.offset.toNat + sent.toNat then some (src i) else c.user i
    requests := c.requests ++ [(c.offset, len - c.offset)] }

/-- `while (len - offset > 0)`, for at most so many iterations. What `copy_to_user` can store at
each of them is a parameter: every rule, also one that looks back at the copies made before, gives
such a sequence. -/
def copyLoop (src : Nat → α) (len : UInt64) (writable : Nat → UInt64) : Nat → CopyState α
  | 0 => { offset := 0, user := fun _ => none, requests := [] }
  | k + 1 =>
      let c := copyLoop src len writable k
      if len - c.offset > 0 then copyBody src len (writable k) c else c

/-- What a call returns, and what it has stored in the caller's buffer. -/
structure CopyAnswer (α : Type) where
  ret : Int64
  user : Nat → Option α

/-- `bSize = min(size, e->size);` -/
def receiveLen (size eSize : UInt64) : UInt64 := if size < eSize then size else eSize

/-- The loop of `tag_receive`. -/
def receiveLoop (message : Nat → UInt8) (size eSize : UInt64) (writable : Nat → UInt64) (k : Nat) :
    CopyState UInt8 :=
  copyLoop message (receiveLen size eSize) writable k

/-- The end of `tag_receive`, from the element found on. -/
def receiveCopy (message : Nat → UInt8) (size eSize : UInt64) (writable : Nat → UInt64) (k : Nat) :
    Option (CopyAnswer UInt8) :=
  let bSize := receiveLen size eSize
  let c := receiveLoop message size eSize writable k
  if bSize - c.offset > 0 then none else some { ret := bSize.toInt64, user := c.user }

/-! ## The file operations -/

/-- `scanModuleStatus`: a snapshot. -/
structure ScanModuleStatus where
  message : Nat → Char
  size : Int64

/-- `getModuleStatus`, which is all `dev_open` does. -/
def getModuleStatus (m : Mem) (kzallocFails vzallocFails : Bool) :
    Except Fault ScanModuleStatus :=
  if kzallocFails then .error .nullPointer
  else do
    let t ← scanService m vzallocFails statusSizeMax
    match t.text with
    | none => .error .nullPointer
    | some text => pure { message := text, size := Int64.ofNat t.writeLen }

/-- `if (*f_pos + len > dev->size) len = dev->size - *f_pos;`: the comparison is unsigned, the
difference is signed. -/
def clampedLen (dev : ScanModuleStatus) (fPos : Int64) (len : UInt64) : UInt64 :=
  if fPos.toUInt64 + len > dev.size.toUInt64 then (dev.size - fPos).toUInt64 else len

/-- What a read copies from: `dev->message + *f_pos`. The position is never negative. -/
def readSource (dev : ScanModuleStatus) (fPos : Int64) : Nat → Char :=
  fun i => dev.message (fPos.toInt.toNat + i)

/-- The loop of `dev_read`. -/
def devReadLoop (dev : ScanModuleStatus) (fPos : Int64) (len : UInt64) (writable : Nat → UInt64)
    (k : Nat) : CopyState Char :=
  copyLoop (readSource dev fPos) (clampedLen dev fPos len) writable k

/-- `dev_read`: the answer, and the new `*f_pos`. -/
def devRead (dev : ScanModuleStatus) (fPos : Int64) (len : UInt64) (writable : Nat → UInt64)
    (k : Nat) : Option (CopyAnswer Char × Int64) :=
  if fPos ≥ dev.size then some ({ ret := 0, user := fun _ => none }, fPos)
  else
    let len' := clampedLen dev fPos len
    let c := devReadLoop dev fPos len writable k
    if len' - c.offset > 0 then none
    else some ({ ret := len'.toInt64, user := c.user }, (fPos.toUInt64 + len').toInt64)

end TagMessaging.Model
