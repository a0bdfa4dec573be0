/-
# TagMessaging.Discovery.Finder -- which table is found

`syscall_table_finder` takes the first candidate of the first page that has one, and `validate_page`
gives a page up at the first candidate whose last entry is in a page without a frame. Nothing is
missed by that: what is found is the lowest address in the range of the search that shows the
pattern and has a frame under its first and its last entry (`finder_least`).
-/
import TagMessaging.Discovery.Mapped
import TagMessaging.Lib.FirstMatch

namespace TagMessaging.Discovery

open TagMessaging.Lib.FirstMatch

variable {mem phys : Words} {vtpmo : UInt64 → Int32} {cr3 addr page k v w : UInt64}
variable {i j n : Nat} {is : List Nat}

/-! ## Candidates -/

/-- An address at which the routine accepts a table. -/
structure Candidate (mem : Words) (vtpmo : UInt64 → Int32) (addr : UInt64) : Prop where
  aligned : addr.toNat % 8 = 0
  first : vtpmo addr ≠ noMap
  last : vtpmo (entryAddr addr seventhNiSyscall) ≠ noMap
  table : isTable mem addr = true

/-- The oracle tells pages apart, and not the addresses in them. -/
def ByPage (vtpmo : UInt64 → Int32) : Prop :=
  ∀ v w, v &&& addressMask = w &&& addressMask → vtpmo v = vtpmo w

theorem byPage_sysVtpmo (phys : Words) (cr3 : UInt64) : ByPage (sysVtpmo phys cr3) := by
  intro v w hpage
  have h39 : tableIndex 39 v = tableIndex 39 w := tableIndex_page 39 (by decide) (by decide) hpage
  have h30 : tableIndex 30 v = tableIndex 30 w := tableIndex_page 30 (by decide) (by decide) hpage
  have h21 : tableIndex 21 v = tableIndex 21 w := tableIndex_page 21 (by decide) (by decide) hpage
  have h12 : tableIndex 12 v = tableIndex 12 w := tableIndex_page 12 (by decide) (by decide) hpage
  rw [sysVtpmo, sysVtpmo, h39, h30, h21, h12]

/-- The test of a candidate of a page that has a frame. -/
def passes (mem : Words) (vtpmo : UInt64 → Int32) (page : UInt64) (i : Nat) : Bool :=
  isTable mem (entryAddr page i) &&
    vtpmo (entryAddr (entryAddr page i) seventhNiSyscall) != noMap

theorem passes_iff (hv : ByPage vtpmo) (hpage : PageAt page) (hmap : vtpmo page ≠ noMap)
    (hi : i < 512) :
    passes mem vtpmo page i = true ↔ Candidate mem vtpmo (entryAddr page i) := by
  have hfirst : vtpmo (entryAddr page i) = vtpmo page := hv _ _ (hpage.same_page hi)
  have haligned := hpage.aligned
  have hentry := hpage.toNat_entry (i := i) (by omega)
  rw [passes, Bool.and_eq_true, bne_iff_ne]
  constructor
  · rintro ⟨htable, hlast⟩
    refine ⟨by omega, ?_, hlast, htable⟩
    rw [hfirst]
    exact hmap
  · intro h
    exact ⟨h.table, h.last⟩

/-! ## One page -/

/-- The loop finds the first candidate: where it gives up, no later one has a frame under its last
entry. -/
theorem validateFrom_find? (hv : ByPage vtpmo) (hpage : PageAt page) (hmap : vtpmo page ≠ noMap)
    (hsorted : is.Pairwise (· < ·)) (his : ∀ i ∈ is, i < 512) :
    validateFrom mem vtpmo page is =
      (is.find? (passes mem vtpmo page)).map (entryAddr page) := by
  have h7 : seventhNiSyscall = 236 := rfl
  induction is with
  | nil => rfl
  | cons i is ih =>
    have hi : i < 512 := his i List.mem_cons_self
    have hend : entryAddr (entryAddr page i) seventhNiSyscall =
        entryAddr page (i + seventhNiSyscall) := hpage.entry_entry (by omega)
    have ih := ih hsorted.of_cons fun j hj => his j (List.mem_cons_of_mem i hj)
    rw [validateFrom]
    by_cases hstop : page + pageSize =
        entryAddr (entryAddr page i) seventhNiSyscall &&& addressMask ∧
        vtpmo (entryAddr (entryAddr page i) seventhNiSyscall) = noMap
    · rw [if_pos hstop]
      obtain ⟨hnext, hnone⟩ := hstop
      have hcross : 512 ≤ i + seventhNiSyscall := by
        by_contra hlt
        rw [hend] at hnext
        exact hpage.not_next_page (not_le.mp hlt) hnext
      have hlater : ∀ j ∈ i :: is, ¬ passes mem vtpmo page j = true := by
        intro j hj hpass
        have hj512 := his j hj
        have hle : i ≤ j := by
          rcases List.mem_cons.mp hj with rfl | hj
          · exact Nat.le_refl _
          · exact Nat.le_of_lt (List.rel_of_pairwise_cons hsorted hj)
        have hj' : entryAddr (entryAddr page j) seventhNiSyscall =
            entryAddr page (j + seventhNiSyscall) := hpage.entry_entry (by omega)
        have hsame : vtpmo (entryAddr (entryAddr page j) seventhNiSyscall) = noMap := by
          rw [← hnone]
          apply hv
          rw [← hnext, hj']
          exact (hpage.next_page (by omega) (by omega)).symm
        exact ((passes_iff hv hpage hmap hj512).mp hpass).last hsame
      rw [List.find?_eq_none.mpr hlater]
      rfl
    · rw [if_neg hstop]
      -- the last entry has a frame: in this page, or by the test that was passed
      have hlast : vtpmo (entryAddr (entryAddr page i) seventhNiSyscall) ≠ noMap := by
        by_cases hcross : 512 ≤ i + seventhNiSyscall
        · intro hnone
          apply hstop
          refine ⟨?_, hnone⟩
          rw [hend]
          exact hpage.next_page hcross (by omega)
        · rw [hend, hv _ _ (hpage.same_page (not_le.mp hcross))]
          exact hmap
      cases htable : isTable mem (entryAddr page i) with
      | true =>
        have hpass : passes mem vtpmo page i = true := by simp [passes, htable, hlast]
        rw [List.find?_cons_of_pos hpass]
        rfl
      | false =>
        have hpass : ¬ passes mem vtpmo page i = true := by simp [passes, htable]
        rw [List.find?_cons_of_neg hpass, ← ih]
        rfl

/-- The candidates in the `n` pages from `k` on. -/
def candidates (mem : Words) (vtpmo : UInt64 → Int32) (k : UInt64) (n : Nat) : Set UInt64 :=
  {a | k.toNat ≤ a.toNat ∧ a.toNat < k.toNat + 4096 * n ∧ Candidate mem vtpmo a}

/-- A word of a page is one of its 512 entries. -/
theorem PageAt.exists_entry (hpage : PageAt page) (hlo : page.toNat ≤ v.toNat)
    (hhi : v.toNat < page.toNat + 4096) (h8 : v.toNat % 8 = 0) :
    ∃ i, i < 512 ∧ v = entryAddr page i := by
  have haligned := hpage.aligned
  refine ⟨(v.toNat - page.toNat) / 8, by omega, ?_⟩
  apply UInt64.toNat_inj.mp
  rw [hpage.toNat_entry (by omega)]
  omega

theorem validatePage_some (hv : ByPage vtpmo) (hpage : PageAt page) (hmap : vtpmo page ≠ noMap)
    (h : validatePage mem vtpmo page = some addr) :
    IsLeast (candidates mem vtpmo page 1) addr := by
  rw [validatePage, validateFrom_find? hv hpage hmap List.pairwise_lt_range
    (fun i hi => List.mem_range.mp hi)] at h
  obtain ⟨i, hfind, rfl⟩ := Option.map_eq_some_iff.mp h
  obtain ⟨⟨hrange, hpass⟩, hleast⟩ := isLeast_of_find? List.pairwise_lt_range hfind
  have hi : i < 512 := List.mem_range.mp hrange
  have hentry := hpage.toNat_entry (i := i) (by omega)
  refine ⟨⟨by omega, by omega, (passes_iff hv hpage hmap hi).mp hpass⟩, ?_⟩
  rintro b ⟨hlo, hhi, hb⟩
  obtain ⟨j, hj, rfl⟩ := hpage.exists_entry hlo (by omega) hb.aligned
  have hij : i ≤ j := hleast ⟨List.mem_range.mpr hj, (passes_iff hv hpage hmap hj).mpr hb⟩
  have hentry' := hpage.toNat_entry (i := j) (by omega)
  rw [UInt64.le_iff_toNat_le]
  omega

theorem validatePage_none (hv : ByPage vtpmo) (hpage : PageAt page) (hmap : vtpmo page ≠ noMap)
    (h : validatePage mem vtpmo page = none) : candidates mem vtpmo page 1 = ∅ := by
  rw [validatePage, validateFrom_find? hv hpage hmap List.pairwise_lt_range
    (fun i hi => List.mem_range.mp hi), Option.map_eq_none_iff, List.find?_eq_none] at h
  apply Set.eq_empty_of_forall_notMem
  rintro b ⟨hlo, hhi, hb⟩
  obtain ⟨j, hj, rfl⟩ := hpage.exists_entry hlo (by omega) hb.aligned
  exact h j (List.mem_range.mpr hj) ((passes_iff hv hpage hmap hj).mpr hb)

/-! ## All pages -/

/-- A page without a frame has no candidate. -/
theorem candidates_unmapped (hv : ByPage vtpmo) (hpage : PageAt page)
    (hnone : vtpmo page = noMap) : candidates mem vtpmo page 1 = ∅ := by
  apply Set.eq_empty_of_forall_notMem
  rintro b ⟨hlo, hhi, hb⟩
  obtain ⟨j, hj, rfl⟩ := hpage.exists_entry hlo (by omega) hb.aligned
  apply hb.first
  rw [hv _ _ (hpage.same_page hj)]
  exact hnone

/-- The candidates of the first page, and those of the others. -/
theorem candidates_succ (hpage : PageAt k) :
    candidates mem vtpmo k (n + 1) =
      candidates mem vtpmo k 1 ∪ candidates mem vtpmo (k + pageSize) n := by
  have hnext := hpage.toNat_next
  have hsum : k.toNat + 4096 * (n + 1) = k.toNat + 4096 + 4096 * n := by
    rw [Nat.add_assoc, Nat.add_comm 4096, ← Nat.mul_succ]
  ext a
  simp only [candidates, Set.mem_union, Set.mem_ofPred_eq, hnext, hsum, Nat.mul_one]
  constructor
  · rintro ⟨hlo, hhi, ha⟩
    by_cases hfirst : a.toNat < k.toNat + 4096
    · exact .inl ⟨hlo, hfirst, ha⟩
    · exact .inr ⟨not_lt.mp hfirst, hhi, ha⟩
  · rintro (⟨hlo, hhi, ha⟩ | ⟨hlo, hhi, ha⟩)
    · exact ⟨hlo, Nat.lt_of_lt_of_le hhi (Nat.le_add_right _ _), ha⟩
    · exact ⟨Nat.le_trans (Nat.le_add_right _ _) hlo, hhi, ha⟩

/-- The search over `n` pages. -/
theorem findFrom_least (mem : Words) (n : Nat) (k : UInt64) (hv : ByPage vtpmo)
    (haligned : k.toNat % 4096 = 0) (hroom : k.toNat + 4096 * n + 4096 < 2 ^ 64) :
    (findFrom mem vtpmo n k = none ∧ candidates mem vtpmo k n = ∅) ∨
      ∃ addr, findFrom mem vtpmo n k = some addr ∧ IsLeast (candidates mem vtpmo k n) addr := by
  induction n generalizing k with
  | zero =>
    refine .inl ⟨rfl, Set.eq_empty_of_forall_notMem ?_⟩
    rintro b ⟨hlo, hhi, _⟩
    exact absurd hlo (not_le.mpr hhi)
  | succ n ih =>
    have hroom' : k.toNat + 4096 + 4096 * n + 4096 < 2 ^ 64 := by
      rw [Nat.add_assoc k.toNat, Nat.add_comm 4096, ← Nat.mul_succ]
      exact hroom
    have hpage : PageAt k := by
      refine ⟨haligned, Nat.lt_of_le_of_lt (Nat.add_le_add_right ?_ 4096) hroom'⟩
      exact Nat.le_add_right (k.toNat + 4096) (4096 * n)
    have hnext := hpage.toNat_next
    rw [findFrom]
    by_cases hhit : vtpmo k ≠ noMap ∧ (validatePage mem vtpmo k).isSome
    · rw [if_pos hhit]
      obtain ⟨hmap, hsome⟩ := hhit
      obtain ⟨addr, haddr⟩ := Option.isSome_iff_exists.mp hsome
      have hleast := validatePage_some hv hpage hmap haddr
      refine .inr ⟨addr, haddr, ?_⟩
      rw [candidates_succ hpage]
      -- every candidate of a later page is above the one that was found
      refine isLeast_of_block hleast (fun b hb => ?_) Set.subset_union_left
      rcases hb with hb | hb
      · exact .inl hb
      · right
        have hhi : addr.toNat < k.toNat + 4096 := hleast.1.2.1
        have hlo : (k + pageSize).toNat ≤ b.toNat := hb.1
        rw [hnext] at hlo
        exact UInt64.le_iff_toNat_le.mpr (Nat.le_of_lt (Nat.lt_of_lt_of_le hhi hlo))
    · rw [if_neg hhit]
      have hempty : candidates mem vtpmo k 1 = ∅ := by
        by_cases hmap : vtpmo k = noMap
        · exact candidates_unmapped hv hpage hmap
        · refine validatePage_none hv hpage hmap ?_
          rw [← Option.not_isSome_iff_eq_none]
          exact fun hsome => hhit ⟨hmap, hsome⟩
      rw [candidates_succ hpage, hempty, Set.empty_union]
      refine ih _ ?_ ?_
      · rw [hnext, Nat.add_mod_right]
        exact haligned
      · rw [hnext]
        exact hroom'

/-- **The search finds the first table.** With the walk of the page tables as its oracle, on any
page tables and any memory, the search ends at the lowest address of its range that shows the
pattern of a table and whose first and last entries the walk has a frame for, and finds nothing
exactly where there is no such address. -/
theorem finder_least (mem phys : Words) (cr3 : UInt64) :
    (∀ addr, syscallTableFinder mem (sysVtpmo phys cr3) = some addr ↔
      IsLeast {a | start ≤ a ∧ a < maxAddr ∧ Candidate mem (sysVtpmo phys cr3) a} addr) ∧
    (syscallTableFinder mem (sysVtpmo phys cr3) = none ↔
      ∀ a, start ≤ a → a < maxAddr → ¬ Candidate mem (sysVtpmo phys cr3) a) := by
  have hstart : start.toNat = 18446744069414584320 := rfl
  have hmax : maxAddr.toNat = 18446744073708503040 := rfl
  have hset : {a | start ≤ a ∧ a < maxAddr ∧ Candidate mem (sysVtpmo phys cr3) a} =
      candidates mem (sysVtpmo phys cr3) start pageCount := by
    ext a
    simp only [candidates, Set.mem_ofPred_eq, UInt64.le_iff_toNat_le, UInt64.lt_iff_toNat_lt,
      hstart, hmax, pageCount]
  have hnone : (∀ a, start ≤ a → a < maxAddr → ¬ Candidate mem (sysVtpmo phys cr3) a) ↔
      candidates mem (sysVtpmo phys cr3) start pageCount = ∅ := by
    rw [← hset, Set.eq_empty_iff_forall_notMem]
    constructor
    · rintro h a ⟨hlo, hhi, ha⟩
      exact h a hlo hhi ha
    · intro h a hlo hhi ha
      exact h a ⟨hlo, hhi, ha⟩
  have hroom : start.toNat + 4096 * pageCount + 4096 < 2 ^ 64 := by
    rw [hstart, pageCount]
    omega
  have hsearch := findFrom_least mem pageCount start (byPage_sysVtpmo phys cr3) (by decide) hroom
  rw [hnone, hset, syscallTableFinder]
  -- nothing is found exactly where there is no candidate
  rcases hsearch with ⟨hfind, hempty⟩ | ⟨found, hfind, hleast⟩
  · rw [hfind, hempty]
    refine ⟨fun addr => ?_, by simp⟩
    constructor
    · intro h
      cases h
    · intro h
      exact absurd h.1 (Set.notMem_empty addr)
  · rw [hfind]
    refine ⟨fun addr => ?_, ?_⟩
    · constructor
      · intro h
        obtain rfl := Option.some.inj h
        exact hleast
      · intro h
        exact congrArg some (UInt64.le_antisymm (hleast.2 h.1) (h.2 hleast.1))
    · constructor
      · intro h
        cases h
      · intro h
        rw [h] at hleast
        exact absurd hleast.1 (Set.notMem_empty found)

end TagMessaging.Discovery
