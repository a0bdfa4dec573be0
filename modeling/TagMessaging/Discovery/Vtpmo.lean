/-
# TagMessaging.Discovery.Vtpmo -- the walk of the page tables

`sys_vtpmo` of `vtpmo.c` against the paging of the processor. Physical memory is a map from the
addresses of 64-bit words to words; the kernel maps all of it, so that `__va` of a physical address
reads the word there.

The processor's own walk (`leafOf`) has four levels and three sizes of pages. The routine knows two
of the sizes: it takes the entry of a 1 GiB page for the address of a further table. Its mask keeps
the bits 52 to 62 of an entry, which the processor ignores.
-/
import TagMessaging.Discovery.SysCalls

namespace TagMessaging.Discovery

/-! ## The routine -/

/-- `VALID` of `vtpmo.c`. -/
def validBit : UInt64 := 0x1
def lhMapping : UInt64 := 0x80
def ptAddressMask : UInt64 := 0x7ffffffffffff000

/-- `PML4`, `PDP`, `PDE` and `PTE`: the index into a table, with the number of bits to shift out. -/
def tableIndex (shift : UInt64) (vaddr : UInt64) : Nat := ((vaddr >>> shift) &&& 0x1ff).toNat

/-- `frame_number = frame_addr >> 12`, where the frame number is an `int`. -/
def frameNumber (entry : UInt64) : Int32 := ((entry &&& ptAddressMask) >>> 12).toUInt32.toInt32

/-- `sys_vtpmo`. -/
def sysVtpmo (phys : Words) (cr3 vaddr : UInt64) : Int32 :=
  let pml4 := cr3 &&& addressMask
  let pgd := phys (entryAddr pml4 (tableIndex 39 vaddr))
  if pgd &&& validBit = 0 then noMap
  else
    let pdp := pgd &&& ptAddressMask
    let pud := phys (entryAddr pdp (tableIndex 30 vaddr))
    if pud &&& validBit = 0 then noMap
    else
      let pde := pud &&& ptAddressMask
      let pmd := phys (entryAddr pde (tableIndex 21 vaddr))
      if pmd &&& validBit = 0 then noMap
      else if pmd &&& lhMapping ≠ 0 then frameNumber pmd
      else
        let pte := phys (entryAddr (pmd &&& ptAddressMask) (tableIndex 12 vaddr))
        if pte &&& validBit = 0 then noMap else frameNumber pte

/-! ## The paging of the processor -/

/-- The bits of an entry that hold the address of a table or of a frame. -/
def frameMask : UInt64 := 0x000ffffffffff000

/-- The entry that maps an address, by the size of its page. -/
inductive Leaf where
  | page1G (entry : UInt64)
  | page2M (entry : UInt64)
  | page4K (entry : UInt64)
  deriving DecidableEq, Repr

/-- The physical address: the frame from the entry, the offset in it from the virtual address. -/
def Leaf.addr (vaddr : UInt64) : Leaf → UInt64
  | .page1G e => (e &&& 0x000fffffc0000000) ||| (vaddr &&& 0x3fffffff)
  | .page2M e => (e &&& 0x000fffffffe00000) ||| (vaddr &&& 0x1fffff)
  | .page4K e => (e &&& frameMask) ||| (vaddr &&& 0xfff)

/-- The entries the processor reads for an address, level by level. -/
def pml4Entry (phys : Words) (cr3 vaddr : UInt64) : UInt64 :=
  phys (entryAddr (cr3 &&& frameMask) (tableIndex 39 vaddr))

def pdptEntry (phys : Words) (cr3 vaddr : UInt64) : UInt64 :=
  phys (entryAddr (pml4Entry phys cr3 vaddr &&& frameMask) (tableIndex 30 vaddr))

def pdEntry (phys : Words) (cr3 vaddr : UInt64) : UInt64 :=
  phys (entryAddr (pdptEntry phys cr3 vaddr &&& frameMask) (tableIndex 21 vaddr))

def ptEntry (phys : Words) (cr3 vaddr : UInt64) : UInt64 :=
  phys (entryAddr (pdEntry phys cr3 vaddr &&& frameMask) (tableIndex 12 vaddr))

/-- The walk of the processor. -/
def leafOf (phys : Words) (cr3 vaddr : UInt64) : Option Leaf :=
  if pml4Entry phys cr3 vaddr &&& validBit = 0 then none
  else if pdptEntry phys cr3 vaddr &&& validBit = 0 then none
  else if pdptEntry phys cr3 vaddr &&& lhMapping ≠ 0 then
    some (.page1G (pdptEntry phys cr3 vaddr))
  else if pdEntry phys cr3 vaddr &&& validBit = 0 then none
  else if pdEntry phys cr3 vaddr &&& lhMapping ≠ 0 then some (.page2M (pdEntry phys cr3 vaddr))
  else if ptEntry phys cr3 vaddr &&& validBit = 0 then none
  else some (.page4K (ptEntry phys cr3 vaddr))

/-- The physical address of a virtual one, where it is mapped. -/
def translate (phys : Words) (cr3 vaddr : UInt64) : Option UInt64 :=
  (leafOf phys cr3 vaddr).map (Leaf.addr vaddr)

/-- The register and the upper entries on the way to an address have nothing in the bits that the
processor ignores and the masks of the routine keep. -/
structure Plain (phys : Words) (cr3 vaddr : UInt64) : Prop where
  root : cr3 &&& addressMask = cr3 &&& frameMask
  pml4 : pml4Entry phys cr3 vaddr &&& ptAddressMask = pml4Entry phys cr3 vaddr &&& frameMask
  pdpt : pdptEntry phys cr3 vaddr &&& ptAddressMask = pdptEntry phys cr3 vaddr &&& frameMask
  pd : pdEntry phys cr3 vaddr &&& ptAddressMask = pdEntry phys cr3 vaddr &&& frameMask

variable {phys : Words} {cr3 v w : UInt64} {leaf : Leaf}

/-! ## The routine reads the entries of the processor -/

theorem Plain.sysVtpmo_eq (h : Plain phys cr3 v) : sysVtpmo phys cr3 v =
    if pml4Entry phys cr3 v &&& validBit = 0 then noMap
    else if pdptEntry phys cr3 v &&& validBit = 0 then noMap
    else if pdEntry phys cr3 v &&& validBit = 0 then noMap
    else if pdEntry phys cr3 v &&& lhMapping ≠ 0 then frameNumber (pdEntry phys cr3 v)
    else if ptEntry phys cr3 v &&& validBit = 0 then noMap
    else frameNumber (ptEntry phys cr3 v) := by
  have hpml4 : phys (entryAddr (cr3 &&& addressMask) (tableIndex 39 v)) =
      pml4Entry phys cr3 v := by
    rw [h.root]
    rfl
  have hpdpt : phys (entryAddr (pml4Entry phys cr3 v &&& ptAddressMask) (tableIndex 30 v)) =
      pdptEntry phys cr3 v := by
    rw [h.pml4]
    rfl
  have hpd : phys (entryAddr (pdptEntry phys cr3 v &&& ptAddressMask) (tableIndex 21 v)) =
      pdEntry phys cr3 v := by
    rw [h.pdpt]
    rfl
  have hpt : phys (entryAddr (pdEntry phys cr3 v &&& ptAddressMask) (tableIndex 12 v)) =
      ptEntry phys cr3 v := by
    rw [h.pd]
    rfl
  simp only [sysVtpmo, hpml4, hpdpt, hpd, hpt]

/-- What the routine answers for an address, by the entry that maps it. It looks behind the entry of
a 1 GiB page as if a table were there. -/
theorem Plain.sysVtpmo_of_leaf (h : Plain phys cr3 v) :
    match leafOf phys cr3 v with
    | none => sysVtpmo phys cr3 v = noMap
    | some (.page1G _) => True
    | some (.page2M e) => sysVtpmo phys cr3 v = frameNumber e
    | some (.page4K e) => sysVtpmo phys cr3 v = frameNumber e := by
  rw [h.sysVtpmo_eq]
  unfold leafOf
  split_ifs <;> trivial

/-- An answer other than `NO_MAP` is given for mapped addresses only. -/
theorem Plain.isSome_of_sysVtpmo (h : Plain phys cr3 v) (hmap : sysVtpmo phys cr3 v ≠ noMap) :
    (leafOf phys cr3 v).isSome := by
  have hleaf := h.sysVtpmo_of_leaf
  cases hv : leafOf phys cr3 v with
  | none =>
    rw [hv] at hleaf
    exact absurd hleaf hmap
  | some leaf => rfl

/-! ## Frame numbers -/

/-- A bit of the frame number of a 4 KiB page: the bits that the processor ignores are cut off with
the upper half. -/
theorem frameNumber_page4K (e vaddr : UInt64) :
    frameNumber e = ((Leaf.page4K e).addr vaddr >>> 12).toUInt32.toInt32 := by
  have hmask : ∀ i : Fin 32, ptAddressMask.toBitVec.getLsbD (12 + i) = true ∧
      frameMask.toBitVec.getLsbD (12 + i) = true ∧
      (0xfff : UInt64).toBitVec.getLsbD (12 + i) = false := by
    decide
  refine congrArg UInt32.toInt32 (UInt32.toBitVec_inj.mp (BitVec.eq_of_getLsbD_eq fun i hi => ?_))
  obtain ⟨hpt, hframe, hoff⟩ := hmask ⟨i, hi⟩
  simp at hpt hframe hoff
  simp [Leaf.addr, hpt, hframe, hoff]

/-- **When the oracle answers `NO_MAP`.** Where the walk meets no 1 GiB page: exactly for an address
that is not mapped, or whose frame number ends in 32 ones. A 4 KiB page is answered by the number of
its frame, a 2 MiB page by that of its entry; and whatever the pages, an address that is answered by
a frame number is mapped. -/
theorem oracle_exact (h : Plain phys cr3 v) :
    ((∀ e, leafOf phys cr3 v ≠ some (.page1G e)) → (sysVtpmo phys cr3 v = noMap ↔
      translate phys cr3 v = none ∨ ∃ e, (leafOf phys cr3 v = some (.page2M e) ∨
        leafOf phys cr3 v = some (.page4K e)) ∧ frameNumber e = -1)) ∧
    (∀ e a, leafOf phys cr3 v = some (.page4K e) → translate phys cr3 v = some a →
      sysVtpmo phys cr3 v = (a >>> 12).toUInt32.toInt32) ∧
    (∀ e, leafOf phys cr3 v = some (.page2M e) → sysVtpmo phys cr3 v = frameNumber e) ∧
    (sysVtpmo phys cr3 v ≠ noMap → (translate phys cr3 v).isSome) := by
  have hleaf := h.sysVtpmo_of_leaf
  refine ⟨fun hsmall => ?_, fun e a he ha => ?_, fun e he => ?_, fun hmap => ?_⟩
  · unfold translate
    cases hv : leafOf phys cr3 v with
    | none =>
      rw [hv] at hleaf
      simp [hleaf]
    | some leaf =>
      rw [hv] at hleaf
      cases leaf with
      | page1G e => exact absurd hv (hsmall e)
      | page2M e =>
        have hans : sysVtpmo phys cr3 v = frameNumber e := hleaf
        simp [hans, noMap]
      | page4K e =>
        have hans : sysVtpmo phys cr3 v = frameNumber e := hleaf
        simp [hans, noMap]
  · rw [he] at hleaf
    have hans : sysVtpmo phys cr3 v = frameNumber e := hleaf
    obtain rfl : (Leaf.page4K e).addr v = a := by simpa [translate, he] using ha
    rw [hans, frameNumber_page4K e v]
  · rw [he] at hleaf
    exact hleaf
  · simpa [translate] using h.isSome_of_sysVtpmo hmap

/-- Four tables, one after the other from the address 0x1000 on, that map the pages 0 and 1 at the
frames 7 and 8. -/
def fourTables : Words := fun a =>
  if a = 0x1000 then 0x2001
  else if a = 0x2000 then 0x3001
  else if a = 0x3000 then 0x4001
  else if a = 0x4000 then 0x7001
  else if a = 0x4008 then 0x8001
  else 0

theorem fourTables_plain : Plain fourTables 0x1000 0x1234 :=
  ⟨by decide, by decide, by decide, by decide⟩

theorem oracle_exact_fourTables :
    sysVtpmo fourTables 0x1000 0x1234 = 8 ∧ translate fourTables 0x1000 0x1234 = some 0x8234 := by
  have hleaf : leafOf fourTables 0x1000 0x1234 = some (.page4K 0x8001) := by decide
  have haddr : translate fourTables 0x1000 0x1234 = some 0x8234 := by decide
  exact ⟨(oracle_exact fourTables_plain).2.1 0x8001 0x8234 hleaf haddr, haddr⟩

/-- A page of 1 GiB is mapped, and the routine looks for a table in it. -/
example : leafOf (fun a => if a = 0x1000 then 0x2001 else if a = 0x2000 then 0x40000081 else 0)
      0x1000 0 = some (.page1G 0x40000081) ∧
    sysVtpmo (fun a => if a = 0x1000 then 0x2001 else if a = 0x2000 then 0x40000081 else 0)
      0x1000 0 = noMap := by
  decide

end TagMessaging.Discovery
