/-
# TagMessaging.Discovery.Mapped -- the search reads no page that is not mapped

The search for the table walks over a million pages of kernel addresses and reads words of them; a
word of a page that is not mapped would stop the machine. Here memory is a partial map, and reading
outside it is a fault. A candidate reaches at most into the next page, which the routine asks about
before it reads there; the exploration of the table ends at its fourth free entry, before the
entries that the pattern never looked at. So the search never faults, and answers as on a total
memory.
-/
import TagMessaging.Discovery.Vtpmo
import TagMessaging.Discovery.Restore

namespace TagMessaging.Discovery

/-! ## The search on a partial memory -/

/-- The words of memory that are mapped. -/
abbrev Mapped := UInt64 → Option UInt64

/-- `good_area`; `none` is a fault. -/
def goodAreaIn (mem : Mapped) (addr : UInt64) : Option Bool :=
  (List.range' 1 (firstNiSyscall - 1)).allM fun i => do
    let x ← mem (entryAddr addr i)
    let first ← mem (entryAddr addr firstNiSyscall)
    pure (x != first)

/-- The test of `validate_page`, which stops at the first comparison that fails. -/
def isTableIn (mem : Mapped) (addr : UInt64) : Option Bool := do
  let first ← mem (entryAddr addr firstNiSyscall)
  if first &&& 0x3 == 0 && first != 0x0 && decide (first > 0xffffffff00000000) then do
    let same ← [secondNiSyscall, thirdNiSyscall, fourthNiSyscall, fifthNiSyscall, sixthNiSyscall,
      seventhNiSyscall].allM fun i => do
        let x ← mem (entryAddr addr i)
        pure (first == x)
    if same then goodAreaIn mem addr else pure false
  else pure false

/-- The loop of `validate_page`. -/
def validateFromIn (mem : Mapped) (vtpmo : UInt64 → Int32) (page : UInt64) :
    List Nat → Option (Option UInt64)
  | [] => some none
  | i :: is => do
      let newPage := entryAddr (entryAddr page i) seventhNiSyscall
      if page + pageSize = newPage &&& addressMask ∧ vtpmo newPage = noMap then some none
      else
        let table ← isTableIn mem (entryAddr page i)
        if table then some (some (entryAddr page i)) else validateFromIn mem vtpmo page is

/-- The loop of `syscall_table_finder`. -/
def findFromIn (mem : Mapped) (vtpmo : UInt64 → Int32) : Nat → UInt64 → Option (Option UInt64)
  | 0, _ => some none
  | n + 1, k =>
      if vtpmo k ≠ noMap then do
        match ← validateFromIn mem vtpmo k (List.range 512) with
        | some addr => some (some addr)
        | none => findFromIn mem vtpmo n (k + pageSize)
      else findFromIn mem vtpmo n (k + pageSize)

/-- The loop of `foundFree_entries`. -/
def exploreFromIn (isFree : Nat → Option Bool) (bound : Int) :
    List Nat → Nat → (Fin maxFree → Nat) → Option (Option (Nat × (Fin maxFree → Nat)))
  | [], j, free => some (some (j, free))
  | i :: is, j, free => do
      let here ← isFree i
      if here then
        if h : j < maxFree then
          let free := Function.update free ⟨j, h⟩ i
          if (j + 1 : Nat) ≥ bound then some (some (j + 1, free))
          else exploreFromIn isFree bound is (j + 1) free
        else some none
      else exploreFromIn isFree bound is j free

/-- `foundFree_entries`. -/
def foundFreeEntriesIn (mem : Mapped) (vtpmo : UInt64 → Int32) (num : Int) (s : Sys) :
    Option (Option (Int × Sys)) := do
  let found ← findFromIn mem vtpmo pageCount start
  let s ← match found with
    | some addr => do
        let ni ← mem (entryAddr addr firstNiSyscall)
        pure { s with hackedNiSyscall := ni, hackedSyscallTbl := addr }
    | none => pure s
  if s.hackedSyscallTbl = 0 then some (some (-1, s))
  else do
    let r ← exploreFromIn
      (fun i => do
        let x ← mem (entryAddr s.hackedSyscallTbl i)
        pure (x == s.hackedNiSyscall))
      (min (maxFree : Int) num) (List.range entriesToExplore) 0 s.freeEntries
    some (r.map fun (j, free) => ((j : Int), { s with freeEntries := free }))

/-! ## Pages -/

variable {part : Mapped} {mem : Words} {vtpmo : UInt64 → Int32} {addr page v w : UInt64}
variable {is pre post : List Nat} {free : Fin maxFree → Nat} {b i j k n : Nat}

theorem toNat_entryAddr (h : addr.toNat + 8 * i < 2 ^ 64) :
    (entryAddr addr i).toNat = addr.toNat + 8 * i := by
  have h8 : UInt64.toNat 8 = 8 := rfl
  simp only [entryAddr, UInt64.toNat_add, UInt64.toNat_mul, UInt64.toNat_ofNat', h8]
  omega

theorem and_addressMask (v : UInt64) : v &&& addressMask = (v >>> 12) <<< 12 := by
  have hmask : ∀ i : Fin 64, addressMask.toBitVec.getLsbD i = decide (12 ≤ i.val) := by decide
  refine UInt64.toBitVec_inj.mp (BitVec.eq_of_getLsbD_eq fun i hi => ?_)
  have hbit : addressMask.toBitVec[i] = decide (12 ≤ i) := by
    rw [BitVec.getElem_eq_testBit_toNat]
    exact hmask ⟨i, hi⟩
  by_cases hlow : i < 12
  · have hle : ¬ 12 ≤ i := by omega
    simp [hi, hbit, hlow, hle]
  · have hsum : 12 + (i - 12) = i := by omega
    simp [hi, hbit, hlow, hsum, not_lt.mp hlow]

/-- The page of an address. -/
theorem toNat_page (v : UInt64) : (v &&& addressMask).toNat = v.toNat / 4096 * 4096 := by
  have hlt := v.toNat_lt
  rw [and_addressMask]
  simp only [UInt64.toNat_shiftLeft, UInt64.toNat_shiftRight, UInt64.reduceToNat, Nat.reduceMod,
    Nat.shiftRight_eq_div_pow, Nat.shiftLeft_eq, Nat.reducePow]
  omega

theorem page_eq_iff : v &&& addressMask = w &&& addressMask ↔ v.toNat / 4096 = w.toNat / 4096 := by
  rw [← UInt64.toNat_inj, toNat_page, toNat_page]
  omega

/-- A page of the search: at a multiple of its size, with a whole page behind it. -/
structure PageAt (page : UInt64) : Prop where
  aligned : page.toNat % 4096 = 0
  room : page.toNat + 8192 < 2 ^ 64

theorem PageAt.toNat_entry (h : PageAt page) (hi : i < 1024) :
    (entryAddr page i).toNat = page.toNat + 8 * i := by
  have hroom := h.room
  exact toNat_entryAddr (by omega)

theorem PageAt.entry_entry (h : PageAt page) (hi : i + k < 1024) :
    entryAddr (entryAddr page i) k = entryAddr page (i + k) := by
  have hroom := h.room
  have hi' := h.toNat_entry (i := i) (by omega)
  have hik := h.toNat_entry hi
  refine UInt64.toNat_inj.mp ?_
  rw [hik, toNat_entryAddr (by omega), hi']
  omega

theorem PageAt.toNat_next (h : PageAt page) : (page + pageSize).toNat = page.toNat + 4096 := by
  have hroom := h.room
  have hsize : pageSize.toNat = 4096 := rfl
  rw [UInt64.toNat_add, hsize]
  omega

/-- A word in the first half of the two pages is in the page, one in the second in the next. -/
theorem PageAt.same_page (h : PageAt page) (hi : i < 512) :
    entryAddr page i &&& addressMask = page &&& addressMask := by
  have haligned := h.aligned
  have hentry := h.toNat_entry (i := i) (by omega)
  rw [page_eq_iff]
  omega

theorem PageAt.next_page (h : PageAt page) (hi : 512 ≤ i) (hk : i < 1024) :
    page + pageSize = entryAddr page i &&& addressMask := by
  have haligned := h.aligned
  have hentry := h.toNat_entry hk
  have hnext := h.toNat_next
  refine UInt64.toNat_inj.mp ?_
  rw [toNat_page]
  omega

theorem PageAt.not_next_page (h : PageAt page) (hi : i < 512) :
    page + pageSize ≠ entryAddr page i &&& addressMask := by
  intro heq
  have haligned := h.aligned
  have hentry := h.toNat_entry (i := i) (by omega)
  have hnext := h.toNat_next
  have hnat := congrArg UInt64.toNat heq
  rw [toNat_page] at hnat
  omega

/-! ## Reading what is mapped -/

/-- The total memory extends the partial one. -/
def Extends (part : Mapped) (mem : Words) : Prop := ∀ a x, part a = some x → mem a = x

/-- Where the oracle does not answer `NO_MAP`, the whole page is mapped. -/
def OracleSound (part : Mapped) (vtpmo : UInt64 → Int32) : Prop :=
  ∀ v a, vtpmo v ≠ noMap → a &&& addressMask = v &&& addressMask → (part a).isSome

/-- The entries the pattern looks at are mapped. -/
def Readable (part : Mapped) (addr : UInt64) : Prop :=
  ∀ i ≤ seventhNiSyscall, (part (entryAddr addr i)).isSome

theorem Extends.read (h : Extends part mem) (ha : (part v).isSome) : part v = some (mem v) := by
  obtain ⟨x, hx⟩ := Option.isSome_iff_exists.mp ha
  rw [hx, h v x hx]

theorem allM_eq_all {α : Type} {p : α → Option Bool} {q : α → Bool} {xs : List α}
    (h : ∀ x ∈ xs, p x = some (q x)) : xs.allM p = some (xs.all q) := by
  induction xs with
  | nil => rfl
  | cons x xs ih =>
    have hrest := ih fun y hy => h y (List.mem_cons_of_mem x hy)
    rw [List.allM, h x List.mem_cons_self]
    cases hq : q x with
    | false => simp [hq]
    | true => simpa [hq] using hrest

theorem goodAreaIn_eq (hmem : Extends part mem) (h : Readable part addr) :
    goodAreaIn part addr = some (goodArea mem addr) := by
  refine allM_eq_all fun i hi => ?_
  have hle : i ≤ seventhNiSyscall := by
    simp only [firstNiSyscall, List.mem_range'_1] at hi
    simp only [seventhNiSyscall]
    omega
  rw [hmem.read (h i hle), hmem.read (h firstNiSyscall (by decide))]
  rfl

theorem isTableIn_eq (hmem : Extends part mem) (h : Readable part addr) :
    isTableIn part addr = some (isTable mem addr) := by
  have hsame : ∀ first, [secondNiSyscall, thirdNiSyscall, fourthNiSyscall, fifthNiSyscall,
      sixthNiSyscall, seventhNiSyscall].allM (fun i => do
        let x ← part (entryAddr addr i)
        pure (first == x)) = some ([secondNiSyscall, thirdNiSyscall, fourthNiSyscall,
      fifthNiSyscall, sixthNiSyscall, seventhNiSyscall].all fun i =>
        first == mem (entryAddr addr i)) := by
    intro first
    refine allM_eq_all fun i hi => ?_
    have hle : i ≤ seventhNiSyscall := by
      revert i
      decide
    rw [hmem.read (h i hle)]
    rfl
  unfold isTableIn isTable
  rw [hmem.read (h firstNiSyscall (by decide))]
  simp only [Option.bind_eq_bind, Option.bind_some] at hsame ⊢
  simp only [hsame, Option.bind_some, goodAreaIn_eq hmem h]
  split
  · next htest =>
    simp only [htest, Bool.true_and, List.all_cons, List.all_nil, Bool.and_true, Bool.and_assoc]
    split
    · next hall =>
      simp only [Bool.and_eq_true] at hall
      simp [hall]
    · next hall =>
      simp only [Bool.not_eq_true] at hall
      cases goodArea mem addr with
      | false => simp only [Bool.and_false, Option.pure_def]
      | true => simp only [Bool.and_true, hall, Option.pure_def]
  · next htest =>
    simp only [Bool.not_eq_true] at htest
    simp [htest]

/-! ## The search -/

/-- A candidate whose last entry is in the page, or whose next page was asked about. -/
theorem readable_candidate (hv : OracleSound part vtpmo) (hpage : PageAt page)
    (hmap : vtpmo page ≠ noMap) (hi : i < 512)
    (hnext : ¬ (page + pageSize = entryAddr (entryAddr page i) seventhNiSyscall &&& addressMask ∧
      vtpmo (entryAddr (entryAddr page i) seventhNiSyscall) = noMap)) :
    Readable part (entryAddr page i) := by
  intro k hk
  have hk' : k ≤ 236 := hk
  have hlast : seventhNiSyscall = 236 := rfl
  rw [hpage.entry_entry (by omega)]
  rw [hpage.entry_entry (by omega)] at hnext
  by_cases hin : i + k < 512
  · exact hv page _ hmap (hpage.same_page hin)
  · -- the word is in the next page, and so is the last entry of the candidate
    have heq := hpage.next_page (i := i + seventhNiSyscall) (by omega) (by omega)
    have hasked : vtpmo (entryAddr page (i + seventhNiSyscall)) ≠ noMap := fun hno =>
      hnext ⟨heq, hno⟩
    refine hv _ _ hasked ?_
    rw [← heq, ← hpage.next_page (i := i + k) (by omega) (by omega)]

theorem validateFromIn_eq (hmem : Extends part mem) (hv : OracleSound part vtpmo)
    (hpage : PageAt page) (hmap : vtpmo page ≠ noMap) (his : ∀ i ∈ is, i < 512) :
    validateFromIn part vtpmo page is = some (validateFrom mem vtpmo page is) ∧
      ∀ tbl, validateFrom mem vtpmo page is = some tbl → Readable part tbl := by
  induction is with
  | nil => exact ⟨rfl, fun _ h => by cases h⟩
  | cons i is ih =>
    have hi := his i List.mem_cons_self
    have ih' := ih fun j hj => his j (List.mem_cons_of_mem i hj)
    unfold validateFromIn validateFrom
    by_cases hnext : page + pageSize = entryAddr (entryAddr page i) seventhNiSyscall &&& addressMask ∧
        vtpmo (entryAddr (entryAddr page i) seventhNiSyscall) = noMap
    · rw [if_pos hnext, if_pos hnext]
      exact ⟨rfl, fun _ h => by cases h⟩
    · have hread := readable_candidate hv hpage hmap hi hnext
      rw [if_neg hnext, if_neg hnext, isTableIn_eq hmem hread]
      simp only [Option.bind_eq_bind, Option.bind_some]
      by_cases htable : isTable mem (entryAddr page i) = true
      · rw [if_pos htable, if_pos htable]
        refine ⟨rfl, fun tbl h => ?_⟩
        obtain rfl := Option.some.inj h
        exact hread
      · rw [if_neg htable, if_neg htable]
        exact ih'

theorem findFromIn_eq (hmem : Extends part mem) (hv : OracleSound part vtpmo)
    (haligned : page.toNat % 4096 = 0) (hroom : page.toNat + 4096 * n + 4096 < 2 ^ 64) :
    findFromIn part vtpmo n page = some (findFrom mem vtpmo n page) ∧
      ∀ tbl, findFrom mem vtpmo n page = some tbl → Readable part tbl := by
  induction n generalizing page with
  | zero => exact ⟨rfl, fun _ h => by cases h⟩
  | succ n ih =>
    have hroom' : page.toNat + 4096 + 4096 * n + 4096 < 2 ^ 64 := by
      rw [Nat.add_assoc page.toNat, Nat.add_comm 4096, ← Nat.mul_succ]
      exact hroom
    have hpage : PageAt page := by
      refine ⟨haligned, Nat.lt_of_le_of_lt (Nat.add_le_add_right ?_ 4096) hroom'⟩
      exact Nat.le_add_right (page.toNat + 4096) (4096 * n)
    have hnext := hpage.toNat_next
    have ih' := @ih (page + pageSize) (by rw [hnext, Nat.add_mod_right]; exact haligned)
      (by rw [hnext]; exact hroom')
    unfold findFromIn findFrom validatePage
    by_cases hmap : vtpmo page ≠ noMap
    · obtain ⟨hval, hread⟩ := validateFromIn_eq hmem hv hpage hmap
        fun i hi => List.mem_range.mp hi
      rw [if_pos hmap, hval]
      cases hfound : validateFrom mem vtpmo page (List.range 512) with
      | none => simpa [hmap] using ih'
      | some tbl =>
        refine ⟨by simp [hmap], fun t ht => hread t ?_⟩
        rw [hfound]
        simpa [hmap] using ht
    · rw [if_neg hmap, if_neg fun h => hmap h.1]
      exact ih'

/-! ## The exploration -/

/-- An exploration that finds as many free entries as it is asked for in the first entries does not
look at the others. -/
theorem exploreFromIn_eq {isFreeIn : Nat → Option Bool} {isFree : Nat → Bool}
    (hpre : ∀ i ∈ pre, isFreeIn i = some (isFree i)) (hj : j < b)
    (hcount : b ≤ j + (pre.filter isFree).length) :
    exploreFromIn isFreeIn b (pre ++ post) j free =
      some (exploreFrom isFree b (pre ++ post) j free) := by
  induction pre generalizing j free with
  | nil =>
    simp at hcount
    omega
  | cons i pre ih =>
    have hrest : ∀ i ∈ pre, isFreeIn i = some (isFree i) := fun k hk =>
      hpre k (List.mem_cons_of_mem i hk)
    rw [List.cons_append, exploreFromIn, exploreFrom, hpre i List.mem_cons_self]
    simp only [Option.bind_eq_bind, Option.bind_some]
    cases hfree : isFree i with
    | false =>
      rw [if_neg (by simp), if_neg (by simp)]
      exact ih hrest hj (by simpa [hfree] using hcount)
    | true =>
      rw [if_pos rfl, if_pos rfl]
      by_cases hmax : j < maxFree
      · rw [dif_pos hmax, dif_pos hmax]
        by_cases hlast : ((j + 1 : Nat) : Int) ≥ b
        · rw [if_pos hlast, if_pos hlast]
        · rw [if_neg hlast, if_neg hlast]
          have hcount' : b ≤ j + ((pre.filter isFree).length + 1) := by
            simpa [hfree] using hcount
          exact ih hrest (by omega) (by omega)
      · rw [dif_neg hmax, dif_neg hmax]

/-- Four of the first 184 entries of a table are free. -/
theorem four_free (htable : isTable mem addr = true) :
    4 ≤ 0 + ((List.range 184).filter fun i =>
      mem (entryAddr addr i) == mem (entryAddr addr firstNiSyscall)).length := by
  have hsub : [firstNiSyscall, secondNiSyscall, thirdNiSyscall, fourthNiSyscall].Sublist
      ((List.range 184).filter fun i =>
        mem (entryAddr addr i) == mem (entryAddr addr firstNiSyscall)) := by
    rw [← List.filter_eq_self.mpr fun i hi => beq_iff_eq.mpr (isTable_first htable i hi)]
    exact List.Sublist.filter _ (by decide)
  simpa using hsub.length_le

/-- The exploration of a table whose first entries are mapped. -/
theorem explore_readable (free : Fin maxFree → Nat) (hmem : Extends part mem)
    (hread : Readable part addr) (htable : isTable mem addr = true) :
    exploreFromIn (fun i => do
        let x ← part (entryAddr addr i)
        pure (x == mem (entryAddr addr firstNiSyscall)))
      (min (maxFree : Int) 4) (List.range entriesToExplore) 0 free =
    some (exploreFrom (fun i => mem (entryAddr addr i) == mem (entryAddr addr firstNiSyscall))
      (min (maxFree : Int) 4) (List.range entriesToExplore) 0 free) := by
  have hsplit : List.range entriesToExplore = List.range 184 ++ List.range' 184 72 := by
    decide +kernel
  have hbound : min (maxFree : Int) 4 = ((4 : Nat) : Int) := rfl
  rw [hsplit, hbound]
  refine exploreFromIn_eq (fun i hi => ?_) (by decide) (four_free htable)
  have hlt : i < 184 := List.mem_range.mp hi
  rw [hmem.read (hread i (by simp only [seventhNiSyscall]; omega))]
  rfl

/-- With an oracle that answers `NO_MAP` for every page that is not mapped, the search and the
exploration read mapped words only, and find what they would find on a total memory. -/
theorem foundFreeEntriesIn_eq (hmem : Extends part mem) (hv : OracleSound part vtpmo) :
    foundFreeEntriesIn part vtpmo 4 (boot mem) = some (foundFreeEntries vtpmo 4 (boot mem)) ∧
      ∀ tbl, syscallTableFinder mem vtpmo = some tbl → Readable part tbl := by
  obtain ⟨hfind, hread⟩ : findFromIn part vtpmo pageCount start =
        some (findFrom mem vtpmo pageCount start) ∧
      ∀ tbl, findFrom mem vtpmo pageCount start = some tbl → Readable part tbl :=
    findFromIn_eq hmem hv (by decide) (by decide +kernel)
  refine ⟨?_, hread⟩
  unfold foundFreeEntriesIn
  rw [hfind]
  cases hfound : findFrom mem vtpmo pageCount start with
  | none =>
    have hnone : foundFreeEntries vtpmo 4 (boot mem) = some (-1, boot mem) := by
      have hfinder : syscallTableFinder (boot mem).mem vtpmo = none := hfound
      simp only [foundFreeEntries, hfinder]
      rfl
    rw [hnone]
    rfl
  | some tbl =>
    obtain ⟨htable, hne⟩ := syscallTableFinder_some hfound
    have htbl := hread tbl hfound
    have hni := hmem.read (htbl firstNiSyscall (by decide))
    have hexplore := explore_readable (fun _ => 0) hmem htbl htable
    have hfinder : syscallTableFinder (boot mem).mem vtpmo = some tbl := hfound
    simp only [foundFreeEntries, hfinder, Option.bind_eq_bind, Option.bind_some, hni,
      Option.pure_def] at hexplore ⊢
    rw [if_neg hne, if_neg hne]
    show (exploreFromIn _ _ _ 0 fun _ => 0).bind _ =
      some ((exploreFrom (fun i => mem (entryAddr tbl i) == mem (entryAddr tbl firstNiSyscall)) _ _ 0
        fun _ => 0).bind _)
    rw [hexplore, Option.bind_some]
    cases exploreFrom (fun i => mem (entryAddr tbl i) == mem (entryAddr tbl firstNiSyscall))
        (min (maxFree : Int) 4) (List.range entriesToExplore) 0 fun _ => 0 with
    | none => rfl
    | some r => rfl

/-! ## The stores -/

/-- The four entries found are among those that the pattern names, or before them. -/
theorem explore_early (htable : isTable mem addr = true)
    (hrun : exploreFrom (fun i => mem (entryAddr addr i) == mem (entryAddr addr firstNiSyscall)) 4
      (List.range entriesToExplore) 0 (fun _ => 0) = some (4, free)) (m : Fin 4) :
    free (m.castLE (by decide)) < 184 := by
  set isFree := fun i => mem (entryAddr addr i) == mem (entryAddr addr firstNiSyscall) with hfree
  obtain ⟨hits, free', hhits, hrun', _, hnew⟩ :=
    exploreFrom_eq isFree (List.range entriesToExplore) (fun _ => 0) (b := 4) (j := 0) (by decide)
      (by decide)
  have hsplit : List.range entriesToExplore = List.range 184 ++ List.range' 184 72 := by
    decide +kernel
  have hpair := Option.some.inj (hrun'.symm.trans hrun)
  have hlen : hits.length = 4 := by simpa using congrArg Prod.fst hpair
  obtain rfl : free' = free := congrArg Prod.snd hpair
  rw [hsplit, List.filter_append, List.take_append_of_le_length] at hhits
  · obtain ⟨h, hm⟩ := hnew m (by rw [hlen]; exact m.isLt)
    have hin := List.mem_of_getElem? hm
    rw [hhits] at hin
    have hcast : (⟨0 + m, h⟩ : Fin maxFree) = m.castLE (by decide) := Fin.ext (Nat.zero_add _)
    rw [← hcast]
    exact List.mem_range.mp (List.mem_filter.mp (List.mem_of_mem_take hin)).1
  · have hfour : 4 ≤ 0 + ((List.range 184).filter isFree).length := four_free htable
    omega

/-- What the removal stores to. -/
theorem removeFrom_stores {s s' : Sys} (h : removeFrom n s = some s') :
    ∀ a ∈ s'.stores, a ∈ s.stores ∨
      ∃ m : Fin maxFree, m.val < n ∧ a = entryAddr s.hackedSyscallTbl (s.freeEntries m) := by
  induction n generalizing s with
  | zero =>
    intro a ha
    obtain rfl := Option.some.inj h
    exact .inl ha
  | succ n ih =>
    intro a ha
    rw [removeFrom, Sys.freeEntry] at h
    split at h
    · next hn =>
      rcases ih h a ha with hold | ⟨m, hm, rfl⟩
      · rcases List.mem_append.mp hold with hold | hnew
        · exact .inl hold
        · exact .inr ⟨⟨n, hn⟩, Nat.lt_succ_self n, List.mem_singleton.mp hnew⟩
      · exact .inr ⟨m, Nat.lt_succ_of_lt hm, rfl⟩
    · cases h

/-- The free entries that loading the module finds. -/
theorem foundFreeEntries_early {s : Sys} (htbl : syscallTableFinder mem vtpmo = some addr)
    (h : foundFreeEntries vtpmo 4 (boot mem) = some (4, s)) (m : Fin 4) :
    s.hackedSyscallTbl = addr ∧ s.freeEntries (m.castLE (by decide)) < 184 := by
  obtain ⟨htable, hne⟩ := syscallTableFinder_some htbl
  have hfinder : syscallTableFinder (boot mem).mem vtpmo = some addr := htbl
  rw [foundFreeEntries] at h
  simp only [hfinder] at h
  rw [if_neg hne] at h
  obtain ⟨⟨j, free⟩, hrun, hpair⟩ := Option.bind_eq_some_iff.mp h
  have hpair' := Option.some.inj hpair
  have hj : ((j : Nat) : Int) = 4 := congrArg Prod.fst hpair'
  obtain rfl : j = 4 := by exact_mod_cast hj
  obtain rfl := congrArg Prod.snd hpair'
  exact ⟨rfl, explore_early htable hrun m⟩

/-- The addresses that loading and unloading the module store to are among the first entries of the
table that was found. -/
theorem stores_early {kmallocFails : Bool} {sysPtr : Fin 4 → UInt64} {error : Int} {s s' : Sys}
    (hload : initModuleDefault vtpmo kmallocFails sysPtr (boot mem) = some (error, s))
    (hunload : cleanupModuleDefault s = some s') {a : UInt64} (ha : a ∈ s'.stores) :
    ∃ tbl, syscallTableFinder mem vtpmo = some tbl ∧ ∃ i < 184, a = entryAddr tbl i := by
  obtain ⟨s₃, hremove, hout⟩ := Option.bind_eq_some_iff.mp hunload
  obtain rfl := Option.some.inj hout
  cases htbl : syscallTableFinder mem vtpmo with
  | none =>
    have hfound : foundFreeEntries vtpmo 4 (boot mem) = some (-1, boot mem) := by
      rw [foundFreeEntries]
      simp only [boot, htbl]
      rfl
    rw [initModuleDefault, hfound] at hload
    obtain rfl : boot mem = s := congrArg Prod.snd (Option.some.inj hload)
    obtain rfl := Option.some.inj hremove
    cases ha
  | some tbl =>
    obtain ⟨s₁, hfound, _, hstores, hnext, _, _, hplace, _⟩ := foundFreeEntries_table htbl
    have hearly := foundFreeEntries_early htbl hfound
    set s₂ := (initService kmallocFails s₁).2 with hs₂
    obtain ⟨s₄, hexpose, hin⟩ : ∃ s, exposeAll sysPtr [0, 1, 2, 3] s₂ = some (0, s) ∧
        Installed sysPtr s₂ s 4 := exposeAll_installed hnext hplace
    rw [initModuleDefault, hfound] at hload
    obtain rfl : s₄ = s := congrArg Prod.snd (Option.some.inj (hexpose.symm.trans hload))
    refine ⟨tbl, rfl, ?_⟩
    have hat : ∀ m : Fin 4, ∃ i < 184, s₁.place m = entryAddr tbl i := fun m =>
      ⟨_, (hearly m).2, by rw [Sys.place, (hearly m).1]⟩
    rcases removeFrom_stores hremove a ha with hold | ⟨m, hm, rfl⟩
    · rw [hin.stores] at hold
      rcases List.mem_append.mp hold with hbefore | hnew
      · have hnone : a ∈ s₁.stores := hbefore
        rw [hstores] at hnone
        cases hnone
      · obtain ⟨m, _, rfl⟩ := List.mem_map.mp hnew
        exact hat m
    · rw [hin.nextFree] at hm
      rw [hin.table, hin.free]
      exact hat ⟨m, hm⟩

/-! ## The page tables as the oracle -/

/-- The words that the processor reads at virtual addresses. -/
def kernelWords (phys : Words) (cr3 : UInt64) : Mapped := fun v => (translate phys cr3 v).map phys

theorem tableIndex_eq (k : Nat) (hk : k < 64) (v : UInt64) :
    tableIndex (UInt64.ofNat k) v = v.toNat / 2 ^ k % 512 := by
  have hlt : k % 64 = k := Nat.mod_eq_of_lt hk
  have hk' : (UInt64.ofNat k).toNat = k := by
    rw [UInt64.toNat_ofNat']
    omega
  rw [tableIndex, UInt64.toNat_and, UInt64.toNat_shiftRight, hk', hlt, Nat.shiftRight_eq_div_pow]
  exact Nat.and_two_pow_sub_one_eq_mod (n := 9) _

/-- The addresses of a page have the same index into every table. -/
theorem tableIndex_page (k : Nat) (hlo : 12 ≤ k) (hhi : k < 64)
    (hpage : v &&& addressMask = w &&& addressMask) :
    tableIndex (UInt64.ofNat k) v = tableIndex (UInt64.ofNat k) w := by
  have hsplit : 2 ^ k = 4096 * 2 ^ (k - 12) := by
    rw [← Nat.pow_add 2 12, Nat.add_sub_cancel' hlo]
  have hnat := page_eq_iff.mp hpage
  rw [tableIndex_eq k hhi, tableIndex_eq k hhi, hsplit, ← Nat.div_div_eq_div_mul,
    ← Nat.div_div_eq_div_mul, hnat]

theorem leafOf_page (phys : Words) (cr3 : UInt64)
    (hpage : v &&& addressMask = w &&& addressMask) : leafOf phys cr3 v = leafOf phys cr3 w := by
  have h39 : tableIndex 39 v = tableIndex 39 w := tableIndex_page 39 (by decide) (by decide) hpage
  have h30 : tableIndex 30 v = tableIndex 30 w := tableIndex_page 30 (by decide) (by decide) hpage
  have h21 : tableIndex 21 v = tableIndex 21 w := tableIndex_page 21 (by decide) (by decide) hpage
  have h12 : tableIndex 12 v = tableIndex 12 w := tableIndex_page 12 (by decide) (by decide) hpage
  have hpml4 : pml4Entry phys cr3 v = pml4Entry phys cr3 w := by rw [pml4Entry, h39, pml4Entry]
  have hpdpt : pdptEntry phys cr3 v = pdptEntry phys cr3 w := by
    rw [pdptEntry, hpml4, h30, pdptEntry]
  have hpd : pdEntry phys cr3 v = pdEntry phys cr3 w := by rw [pdEntry, hpdpt, h21, pdEntry]
  have hpt : ptEntry phys cr3 v = ptEntry phys cr3 w := by rw [ptEntry, hpd, h12, ptEntry]
  rw [leafOf, hpml4, hpdpt, hpd, hpt, leafOf]

/-- The routine does not answer a frame number for a page without a frame. -/
theorem oracleSound_sysVtpmo {phys : Words} {cr3 : UInt64} (hplain : ∀ v, Plain phys cr3 v) :
    OracleSound (kernelWords phys cr3) (sysVtpmo phys cr3) := by
  intro v a hmap hpage
  have hleaf := (hplain v).isSome_of_sysVtpmo hmap
  rw [← leafOf_page phys cr3 hpage] at hleaf
  simpa [kernelWords, translate] using hleaf

/-- **Loading and unloading the module faults on no page.** On page tables whose upper entries have
none of the bits that the processor ignores, the search for the table and the exploration of its
entries read mapped words only and find what they find on any memory that extends the mapped one.
The entries that the load and the unload routine store to are mapped, too. -/
theorem module_faults_nowhere {phys : Words} {cr3 : UInt64} (hplain : ∀ v, Plain phys cr3 v)
    (hmem : Extends (kernelWords phys cr3) mem) :
    foundFreeEntriesIn (kernelWords phys cr3) (sysVtpmo phys cr3) 4 (boot mem) =
        some (foundFreeEntries (sysVtpmo phys cr3) 4 (boot mem)) ∧
      ∀ kmallocFails sysPtr error s s',
        initModuleDefault (sysVtpmo phys cr3) kmallocFails sysPtr (boot mem) = some (error, s) →
        cleanupModuleDefault s = some s' →
        ∀ a ∈ s'.stores, (kernelWords phys cr3 a).isSome := by
  obtain ⟨hrun, hread⟩ := foundFreeEntriesIn_eq hmem (oracleSound_sysVtpmo hplain)
  refine ⟨hrun, ?_⟩
  intro kmallocFails sysPtr error s s' hload hunload a ha
  obtain ⟨tbl, htbl, i, hi, rfl⟩ := stores_early hload hunload ha
  exact hread tbl htbl i (Nat.le_of_lt (Nat.lt_trans hi (by decide)))

/-- Page tables that map the first page of the search and no other, and a table of calls there. -/
def onePage : Words := fun a =>
  if a = 0x1ff8 then 0x2001
  else if a = 0x2fe0 then 0x3001
  else if a = 0x3000 then 0x4001
  else if a = 0x4000 then 0x5001
  else if a ∈ [134, 174, 182, 183, 214, 215, 236].map (entryAddr 0x5000) then 0xffffffff81000000
  else 0

theorem tableIndex_lt (shift v : UInt64) : tableIndex shift v < 512 := by
  have hle : tableIndex shift v ≤ 511 := by
    rw [tableIndex, UInt64.toNat_and]
    exact Nat.and_le_right
  omega

/-- The tables, each with the one entry in it; there is none at the address 0. -/
def onePageTables : List (UInt64 × UInt64) :=
  [(0, 0), (0x1000, 0x2001), (0x2000, 0x3001), (0x3000, 0x4001)]

theorem onePage_entry {base e : UInt64} (h : (base, e) ∈ onePageTables) (shift v : UInt64) :
    onePage (entryAddr base (tableIndex shift v)) = 0 ∨
      onePage (entryAddr base (tableIndex shift v)) = e := by
  have hall : (onePageTables.all fun table => (List.range 512).all fun i =>
      onePage (entryAddr table.1 i) == 0 || onePage (entryAddr table.1 i) == table.2) = true := by
    decide +kernel
  have hentry := List.all_eq_true.mp (List.all_eq_true.mp hall _ h) _
    (List.mem_range.mpr (tableIndex_lt shift v))
  simpa using hentry

theorem onePage_next {e here next : UInt64} (shift : UInt64) (v : UInt64)
    (h : (here &&& frameMask, next) ∈ onePageTables) (he : e = 0 ∨ e = here) :
    onePage (entryAddr (e &&& frameMask) (tableIndex shift v)) = 0 ∨
      onePage (entryAddr (e &&& frameMask) (tableIndex shift v)) = next := by
  rcases he with rfl | rfl
  · have hmem : ((0 : UInt64) &&& frameMask, (0 : UInt64)) ∈ onePageTables := by decide
    have hzero := onePage_entry hmem shift v
    rw [or_self] at hzero
    exact .inl hzero
  · exact onePage_entry h shift v

theorem onePage_plain (v : UInt64) : Plain onePage 0x1000 v := by
  have hroot : (0x1000 &&& frameMask, 0x2001) ∈ onePageTables := by decide
  have hthird : (0x2001 &&& frameMask, 0x3001) ∈ onePageTables := by decide
  have hfourth : (0x3001 &&& frameMask, 0x4001) ∈ onePageTables := by decide
  have hpml4 : pml4Entry onePage 0x1000 v = 0 ∨ pml4Entry onePage 0x1000 v = 0x2001 := by
    rw [pml4Entry]
    exact onePage_next 39 v hroot (.inr rfl)
  have hpdpt : pdptEntry onePage 0x1000 v = 0 ∨ pdptEntry onePage 0x1000 v = 0x3001 := by
    rw [pdptEntry]
    exact onePage_next 30 v hthird hpml4
  have hpd : pdEntry onePage 0x1000 v = 0 ∨ pdEntry onePage 0x1000 v = 0x4001 := by
    rw [pdEntry]
    exact onePage_next 21 v hfourth hpdpt
  refine ⟨by decide, ?_, ?_, ?_⟩
  · rcases hpml4 with h | h <;> simp only [h] <;> decide
  · rcases hpdpt with h | h <;> simp only [h] <;> decide
  · rcases hpd with h | h <;> simp only [h] <;> decide

/-- The mapped words, and zero elsewhere. -/
theorem extends_getD (part : Mapped) : Extends part fun a => (part a).getD 0 := by
  intro a x h
  simp only [h, Option.getD_some]

theorem module_faults_nowhere_onePage :
    (foundFreeEntriesIn (kernelWords onePage 0x1000) (sysVtpmo onePage 0x1000) 4
      (boot fun a => (kernelWords onePage 0x1000 a).getD 0)).isSome ∧
    syscallTableFinder (fun a => (kernelWords onePage 0x1000 a).getD 0) (sysVtpmo onePage 0x1000) =
      some start ∧
    sysVtpmo onePage 0x1000 (start + pageSize) = noMap := by
  refine ⟨?_, by decide +kernel, by decide +kernel⟩
  rw [(module_faults_nowhere onePage_plain (extends_getD _)).1]
  rfl

end TagMessaging.Discovery
