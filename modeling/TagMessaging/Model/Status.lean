/-
# TagMessaging.Model.Status -- the status device

`scan_Service` of `TAG_Messagin_help.c`, which prints the table into a fresh buffer, and the file
operations of `charDev.c`, which take such a snapshot at open and hand it out in pieces.

The buffer is a character for each offset from `text` on, so that a store behind the bytes asked of
`vzalloc` shows as an offset and not as a fault; which offsets are stored to is recorded. `size_t`
and `loff_t` wrap where the source computes with them.
-/
import TagMessaging.Model.Kernel
import TagMessaging.Lib.Numeral

namespace TagMessaging.Model

open TagMessaging.Lib.Numeral (numeral)

/-- Size of a snapshot before the scan (`STATUS_SIZE_MAX`). -/
def statusSizeMax : Nat := 20 * 4096

/-- `a - b` in `size_t`. -/
def sizeSub (a b : Nat) : Nat := (a + 2 ^ 64 - b) % 2 ^ 64

/-- The terminating character. -/
def nul : Char := Char.ofNat 0

/-! ## Formatted output -/

/-- The characters of a format, each `%d` being the numeral of the next argument. -/
def formatted : List Char → List Int → List Char
  | '%' :: 'd' :: format, arg :: args => numeral arg ++ formatted format args
  | c :: format, args => c :: formatted format args
  | [], _ => []

/-- What `scnprintf(p, n, …)` stores from `p` on; it returns the number of characters without the
terminating one. -/
def scnprintf (n : Nat) (cs : List Char) : List Char :=
  if n = 0 then [] else cs.take (n - 1) ++ [nul]

/-- The return value. -/
def scnprintfRet (n : Nat) (cs : List Char) : Nat := (cs.take (n - 1)).length

/-! ## `scan_Service` -/

/-- `scan_Service` on its way. -/
structure Scan where
  /-- The bytes asked of `vzalloc`. -/
  allocated : Nat
  /-- `text`, with what stands at each offset from it. -/
  text : Option (Nat → Char)
  writeLen : Nat
  /-- The offsets stored to. -/
  stored : List Nat
  /-- `writeLen` at each `scnprintf`. -/
  printedAt : List Nat

/-- `vzalloc(size)`. -/
def vzallocText (fails : Bool) (size : Nat) : Option (Nat → Char) :=
  if size = 0 ∨ fails then none else some fun _ => nul

/-- Characters stored one after the other from an offset on. -/
def storeChars (text : Nat → Char) (offset : Nat) (cs : List Char) : Nat → Char :=
  fun i => if i < offset then text i else cs.getD (i - offset) (text i)

/-- Stores through `text`, which may be `NULL`. -/
def Scan.store (cs : List Char) (t : Scan) : Except Fault Scan :=
  match t.text with
  | none => if cs = [] then .ok t else .error .nullPointer
  | some text =>
      .ok { t with
        text := some (storeChars text t.writeLen cs)
        stored := t.stored ++ List.range' t.writeLen cs.length }

/-- `writeLen += scnprintf(text + writeLen, *len - writeLen, format, args);` -/
def Scan.print (len : Nat) (format : String) (args : List Int) (t : Scan) : Except Fault Scan := do
  let n := sizeSub len t.writeLen
  let cs := formatted format.toList args
  let t' ← { t with printedAt := t.printedAt ++ [t.writeLen] }.store (scnprintf n cs)
  pure { t' with writeLen := t.writeLen + scnprintfRet n cs }

/-- The body of the inner loop. The tag is an `unsigned int` printed with `%d`. -/
def Scan.printLevel (len : Nat) (s : TAGService) (level : Fin levelDeep) (t : Scan) :
    Except Fault Scan := do
  let t ← t.print len "Tag descriptor: %d;" [s.tag.toInt32.toInt]
  let t ← t.print len "Tag Creator: %d;" [s.uidCreator.toInt]
  let t ← t.print len "TAG ID: %d; KEY: %d; Level: %d, Waiters: %d"
    [s.tag.toInt32.toInt, s.key.toInt, level.val, s.levels.waiters level]
  t.print len "\n" []

/-- `for (level = 0; level < levelDeep; level++)`. -/
def Scan.printLevels (len : Nat) (s : TAGService) : List (Fin levelDeep) → Scan → Except Fault Scan
  | [], t => pure t
  | level :: levels, t => do
      let t ← t.printLevel len s level
      Scan.printLevels len s levels t

/-- The record a slot leads to. -/
def derefService (m : Mem) (a : Addr) : Except Fault TAGService :=
  match m.services a with
  | none => .error (.dangling a)
  | some s => .ok s

/-- `for (i = 0; i < min_sys_TAG_Services; i++)`. -/
def Scan.printSlots (m : Mem) (len : Nat) :
    List (Fin minSysTagServices) → Scan → Except Fault Scan
  | [], t => pure t
  | i :: is, t =>
      match m.tagServices i with
      | none => Scan.printSlots m len is t
      | some a => do
          let s ← derefService m a
          let t ← Scan.printLevels len s (List.finRange levelDeep) t
          let t ← t.print len "\n" []
          Scan.printSlots m len is t

/-- `scan_Service`: the value of `text`, with `writeLen` being what is left in `*len`. -/
def scanService (m : Mem) (vzallocFails : Bool) (len : Nat) : Except Fault Scan := do
  let size := sizeSub len 1
  let t : Scan :=
    { allocated := size, text := vzallocText vzallocFails size, writeLen := 0, stored := [],
      printedAt := [] }
  let t ← Scan.printSlots m len (List.finRange minSysTagServices) t
  let t ← t.store [nul]
  pure { t with writeLen := t.writeLen + 1 }

end TagMessaging.Model
