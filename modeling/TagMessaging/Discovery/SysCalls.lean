/-
# TagMessaging.Discovery.SysCalls -- the system call table: search, installation, removal

The functions of `sysCall_Discovery.c` and the load and unload routines of `main.c`. The module looks
for the table by a pattern: seven entries that it knows to hold `sys_ni_syscall`. It then installs
its calls in the first free entries and puts `sys_ni_syscall` back when it is unloaded.

Boundary of the model.

* Memory is a map from the addresses of 64-bit words to words; every access is to an address that is
  a multiple of 8 away from a page. The module's own variables are fields of `Sys` and not part of
  that memory.
* `sys_vtpmo`, the walk of the page tables, is a parameter and may answer anything.
* An index outside `free_entries` stops the routine: the answer is `none`.
* The writes to `cr0`, `devkoInit`, `devkoExit` and `printk` do not touch the table and are left
  out, and so are two variables that are stored and never read.
-/
import Mathlib

namespace TagMessaging.Discovery

/-! ## Constants -/

def addressMask : UInt64 := 0xfffffffffffff000
def start : UInt64 := 0xffffffff00000000
def maxAddr : UInt64 := 0xfffffffffff00000
def firstNiSyscall : Nat := 134
def secondNiSyscall : Nat := 174
def thirdNiSyscall : Nat := 182
def fourthNiSyscall : Nat := 183
def fifthNiSyscall : Nat := 214
def sixthNiSyscall : Nat := 215
def seventhNiSyscall : Nat := 236
def entriesToExplore : Nat := 256
def pageSize : UInt64 := 4096

/-- `MAX_FREE` of the C file, which overrides the 15 of the header. -/
def maxFree : Nat := 10

/-- `NO_MAP`. -/
def noMap : Int32 := -1

/-- `-ENOMEM`. -/
def negEnomem : Int := -12

/-- The number of pages from `START` up to `MAX_ADDR`. -/
def pageCount : Nat := 1048320

theorem start_add_pages : start + pageSize * UInt64.ofNat pageCount = maxAddr := by decide

/-- The words of memory. -/
abbrev Words := UInt64 → UInt64

/-- `&addr[i]`. -/
def entryAddr (addr : UInt64) (i : Nat) : UInt64 := addr + 8 * UInt64.ofNat i

/-! ## The search -/

/-- `good_area`. -/
def goodArea (mem : Words) (addr : UInt64) : Bool :=
  (List.range' 1 (firstNiSyscall - 1)).all fun i =>
    mem (entryAddr addr i) != mem (entryAddr addr firstNiSyscall)

/-- The test of `validate_page` on one candidate. -/
def isTable (mem : Words) (addr : UInt64) : Bool :=
  let first := mem (entryAddr addr firstNiSyscall)
  first &&& 0x3 == 0 && first != 0x0 && decide (first > 0xffffffff00000000) &&
    first == mem (entryAddr addr secondNiSyscall) && first == mem (entryAddr addr thirdNiSyscall) &&
    first == mem (entryAddr addr fourthNiSyscall) && first == mem (entryAddr addr fifthNiSyscall) &&
    first == mem (entryAddr addr sixthNiSyscall) &&
    first == mem (entryAddr addr seventhNiSyscall) && goodArea mem addr

/-- The loop of `validate_page`, over the words of the page still to look at. -/
def validateFrom (mem : Words) (vtpmo : UInt64 → Int32) (page : UInt64) : List Nat → Option UInt64
  | [] => none
  | i :: is =>
      let newPage := entryAddr (entryAddr page i) seventhNiSyscall
      if page + pageSize = newPage &&& addressMask ∧ vtpmo newPage = noMap then none
      else if isTable mem (entryAddr page i) then some (entryAddr page i)
      else validateFrom mem vtpmo page is

/-- `validate_page`: the address it accepts. -/
def validatePage (mem : Words) (vtpmo : UInt64 → Int32) (page : UInt64) : Option UInt64 :=
  validateFrom mem vtpmo page (List.range 512)

/-- The loop of `syscall_table_finder`, over the `n` pages from `k` on. -/
def findFrom (mem : Words) (vtpmo : UInt64 → Int32) : Nat → UInt64 → Option UInt64
  | 0, _ => none
  | n + 1, k =>
      if vtpmo k ≠ noMap ∧ (validatePage mem vtpmo k).isSome then validatePage mem vtpmo k
      else findFrom mem vtpmo n (k + pageSize)

/-- `syscall_table_finder`. -/
def syscallTableFinder (mem : Words) (vtpmo : UInt64 → Int32) : Option UInt64 :=
  findFrom mem vtpmo pageCount start

/-! ## Free entries -/

/-- The variables of the module, the words of memory and the addresses it stored to. -/
structure Sys where
  mem : Words
  stores : List UInt64
  hackedNiSyscall : UInt64
  hackedSyscallTbl : UInt64
  freeEntries : Fin maxFree → Nat
  nextFree : Nat
  sysCallNum : Fin 4 → Int
  /-- Whether `tagServices` points to the table of services. -/
  tagServices : Bool

/-- The module just after it was brought into memory. -/
def boot (mem : Words) : Sys where
  mem := mem
  stores := []
  hackedNiSyscall := 0
  hackedSyscallTbl := 0
  freeEntries := fun _ => 0
  nextFree := 0
  sysCallNum := fun _ => 0
  tagServices := false

/-- The loop of `foundFree_entries`, over the entries still to explore: `j` of them were found. -/
def exploreFrom (isFree : Nat → Bool) (bound : Int) :
    List Nat → Nat → (Fin maxFree → Nat) → Option (Nat × (Fin maxFree → Nat))
  | [], j, free => some (j, free)
  | i :: is, j, free =>
      if isFree i then
        if h : j < maxFree then
          let free := Function.update free ⟨j, h⟩ i
          if (j + 1 : Nat) ≥ bound then some (j + 1, free)
          else exploreFrom isFree bound is (j + 1) free
        else none
      else exploreFrom isFree bound is j free

/-- `foundFree_entries`. -/
def foundFreeEntries (vtpmo : UInt64 → Int32) (num : Int) (s : Sys) : Option (Int × Sys) :=
  let s := match syscallTableFinder s.mem vtpmo with
    | some addr =>
        { s with
          hackedNiSyscall := s.mem (entryAddr addr firstNiSyscall)
          hackedSyscallTbl := addr }
    | none => s
  if s.hackedSyscallTbl = 0 then some (-1, s)
  else do
    let (j, free) ← exploreFrom
      (fun i => s.mem (entryAddr s.hackedSyscallTbl i) == s.hackedNiSyscall)
      (min (maxFree : Int) num) (List.range entriesToExplore) 0 s.freeEntries
    some (j, { s with freeEntries := free })

/-! ## Installation and removal -/

/-- `hacked_syscall_tbl[i] = value;` -/
def Sys.storeEntry (s : Sys) (i : Nat) (value : UInt64) : Sys :=
  { s with
    mem := Function.update s.mem (entryAddr s.hackedSyscallTbl i) value
    stores := s.stores ++ [entryAddr s.hackedSyscallTbl i] }

/-- `free_entries[n]`. -/
def Sys.freeEntry (s : Sys) (n : Nat) : Option Nat :=
  if h : n < maxFree then some (s.freeEntries ⟨n, h⟩) else none

/-- `add_syscall`. -/
def addSyscall (sysPtr : UInt64) (s : Sys) : Option (Int × Sys) :=
  if s.nextFree < maxFree then do
    let i ← s.freeEntry s.nextFree
    let s := { s.storeEntry i sysPtr with nextFree := s.nextFree + 1 }
    let r : Nat ← s.freeEntry (s.nextFree - 1)
    some ((r : Int), s)
  else some (-1, s)

/-- The loop of `removeAllSyscall`, with `nextFree` at `n`. -/
def removeFrom : Nat → Sys → Option Sys
  | 0, s => some { s with nextFree := 0 }
  | n + 1, s => do
      let i ← s.freeEntry n
      removeFrom n { s.storeEntry i s.hackedNiSyscall with nextFree := n }

/-- `removeAllSyscall`. -/
def removeAllSyscall (s : Sys) : Option Sys := removeFrom s.nextFree s

/-! ## Load and unload -/

/-- `initService`: the answer is 0 whether or not `kmalloc` gave a table. -/
def initService (kmallocFails : Bool) (s : Sys) : Int × Sys :=
  (0, { s with tagServices := !kmallocFails })

/-- `exposeNewSyscall(sysPtr, num)`: 0, or what the macro makes the load routine return. -/
def exposeNewSyscall (sysPtr : UInt64) (num : Fin 4) (s : Sys) : Option (Int × Sys) := do
  let (r, s) ← addSyscall sysPtr s
  let s := { s with sysCallNum := Function.update s.sysCallNum num r }
  some (if r = -1 then negEnomem else 0, s)

/-- A sequence of `exposeNewSyscall`, which ends at the first that fails. -/
def exposeAll (sysPtr : Fin 4 → UInt64) : List (Fin 4) → Sys → Option (Int × Sys)
  | [], s => some (0, s)
  | num :: nums, s => do
      let (error, s) ← exposeNewSyscall (sysPtr num) num s
      if error ≠ 0 then some (error, s) else exposeAll sysPtr nums s

/-- `init_module_Default`. The pointers are those of `tag_get`, `tag_send`, `tag_receive` and
`tag_ctl`, in this order. -/
def initModuleDefault (vtpmo : UInt64 → Int32) (kmallocFails : Bool) (sysPtr : Fin 4 → UInt64)
    (s : Sys) : Option (Int × Sys) := do
  let (freeFound, s) ← foundFreeEntries vtpmo 4 s
  if freeFound > 0 then
    let (error, s) := initService kmallocFails s
    if error ≠ 0 then some (error, s) else exposeAll sysPtr [0, 1, 2, 3] s
  else some (0, s)

/-- `cleanup_module_Default`. -/
def cleanupModuleDefault (s : Sys) : Option Sys := do
  let s ← removeAllSyscall s
  some { s with tagServices := false }

end TagMessaging.Discovery
