/-
# TagMessaging.Discovery.Restore -- loading and unloading leaves the system call table as it was

`add_syscall` bounds itself by the length of `free_entries` and not by the number of entries that
were found. It stays on free entries because the pattern of `validate_page` names four entries below
184 that hold `sys_ni_syscall`, so that `foundFree_entries` finds the four it is asked for; the loop
of `removeAllSyscall` then goes back over exactly those.
-/
import TagMessaging.Discovery.SysCalls

namespace TagMessaging.Discovery

variable {mem : Words} {vtpmo : UInt64 → Int32} {addr page k : UInt64} {i j n b : Nat}
variable {s s₀ s' : Sys} {isFree : Nat → Bool} {is : List Nat} {free : Fin maxFree → Nat}
variable {sysPtr : Fin 4 → UInt64}

/-! ## What the search accepts -/

/-- The entries a page can reach have different addresses. -/
theorem entryAddr_inj (hi : i < entriesToExplore) (hj : j < entriesToExplore)
    (h : entryAddr addr i = entryAddr addr j) : i = j := by
  have hnat := congrArg UInt64.toNat h
  have h8 : UInt64.toNat 8 = 8 := rfl
  simp only [entryAddr, UInt64.toNat_add, UInt64.toNat_mul, UInt64.toNat_ofNat', h8] at hnat
  simp only [entriesToExplore] at hi hj
  omega

theorem isTable_first (h : isTable mem addr = true) :
    ∀ i ∈ [firstNiSyscall, secondNiSyscall, thirdNiSyscall, fourthNiSyscall],
      mem (entryAddr addr i) = mem (entryAddr addr firstNiSyscall) := by
  simp only [isTable, Bool.and_eq_true, beq_iff_eq] at h
  obtain ⟨⟨⟨⟨⟨⟨⟨_, h2⟩, h3⟩, h4⟩, _⟩, _⟩, _⟩, _⟩ := h
  intro i hi
  simp only [List.mem_cons, List.not_mem_nil, or_false] at hi
  rcases hi with rfl | rfl | rfl | rfl
  · rfl
  · exact h2.symm
  · exact h3.symm
  · exact h4.symm

theorem validateFrom_some (h : validateFrom mem vtpmo page is = some addr) :
    isTable mem addr = true ∧ ∃ i ∈ is, addr = entryAddr page i := by
  induction is with
  | nil => cases h
  | cons i is ih =>
    rw [validateFrom] at h
    split at h
    · cases h
    · split at h
      · next htable =>
        obtain rfl := Option.some.inj h
        exact ⟨htable, i, by simp, rfl⟩
      · obtain ⟨htable, j, hj, haddr⟩ := ih h
        exact ⟨htable, j, List.mem_cons_of_mem i hj, haddr⟩

/-- A word of a page that ends below the top of the address space is not at the null pointer. -/
theorem entryAddr_ne_zero (hlo : 0 < page.toNat) (hhi : page.toNat + 4096 < 2 ^ 64)
    (hi : i < 512) : entryAddr page i ≠ 0 := by
  intro hzero
  have hnat := congrArg UInt64.toNat hzero
  have h8 : UInt64.toNat 8 = 8 := rfl
  have h0 : UInt64.toNat 0 = 0 := rfl
  simp only [entryAddr, UInt64.toNat_add, UInt64.toNat_mul, UInt64.toNat_ofNat', h8, h0] at hnat
  omega

/-- What is found shows the pattern and is not the null pointer. -/
theorem findFrom_some (hlo : 0 < k.toNat) (hhi : k.toNat + 4096 * n < 2 ^ 64)
    (h : findFrom mem vtpmo n k = some addr) : isTable mem addr = true ∧ addr ≠ 0 := by
  induction n generalizing k with
  | zero => cases h
  | succ n ih =>
    have hsum : k.toNat + 4096 + 4096 * n < 2 ^ 64 := by
      rw [Nat.add_assoc, Nat.add_comm 4096, ← Nat.mul_succ]
      exact hhi
    have hpage : k.toNat + 4096 < 2 ^ 64 := Nat.lt_of_le_of_lt (Nat.le_add_right _ _) hsum
    have hnext : (k + pageSize).toNat = k.toNat + 4096 := by
      rw [UInt64.toNat_add]
      exact Nat.mod_eq_of_lt hpage
    rw [findFrom] at h
    split at h
    · obtain ⟨htable, i, hi, rfl⟩ := validateFrom_some h
      exact ⟨htable, entryAddr_ne_zero hlo hpage (List.mem_range.mp hi)⟩
    · refine ih ?_ ?_ h
      · rw [hnext]
        exact Nat.succ_pos _
      · rw [hnext]
        exact hsum

theorem syscallTableFinder_some (h : syscallTableFinder mem vtpmo = some addr) :
    isTable mem addr = true ∧ addr ≠ 0 := by
  unfold syscallTableFinder at h
  exact findFrom_some (n := pageCount) (k := start) (by decide) (by decide +kernel) h

/-! ## The free entries -/

/-- The exploration stores the first free entries, at most `b` of them. -/
theorem exploreFrom_eq (isFree : Nat → Bool) (is : List Nat) (free : Fin maxFree → Nat)
    (hb : b ≤ maxFree) (hj : j < b) : ∃ hits free',
    hits = (is.filter isFree).take (b - j) ∧
      exploreFrom isFree b is j free = some (j + hits.length, free') ∧
      (∀ m : Fin maxFree, m.val < j → free' m = free m) ∧
      ∀ m, m < hits.length → ∃ h : j + m < maxFree, hits[m]? = some (free' ⟨j + m, h⟩) := by
  induction is generalizing j free with
  | nil => exact ⟨[], free, by simp, rfl, fun _ _ => rfl, fun m hm => by simp at hm⟩
  | cons i is ih =>
    rw [exploreFrom]
    cases hfree : isFree i with
    | false =>
      obtain ⟨hits, free', hhits, hrest⟩ := ih free hj
      exact ⟨hits, free', by simpa [List.filter_cons, hfree] using hhits, hrest⟩
    | true =>
      have hjmax : j < maxFree := lt_of_lt_of_le hj hb
      have htake : b - j = (b - (j + 1)) + 1 := by omega
      have hother : ∀ m : Fin maxFree, m.val < j → m ≠ ⟨j, hjmax⟩ := by
        rintro m hm rfl
        exact Nat.lt_irrefl j hm
      rw [if_pos rfl, dif_pos hjmax]
      by_cases hlast : j + 1 ≥ b
      · -- this was the last one asked for
        have hzero : b - (j + 1) = 0 := by omega
        refine ⟨[i], Function.update free ⟨j, hjmax⟩ i, ?_, ?_, fun m hm => ?_, fun m hm => ?_⟩
        · rw [htake, hzero, List.filter_cons_of_pos hfree]
          rfl
        · exact if_pos (by exact_mod_cast hlast)
        · exact Function.update_of_ne (hother m hm) ..
        · obtain rfl : m = 0 := by simpa using hm
          exact ⟨hjmax, by simp⟩
      · obtain ⟨hits, free', hhits, hrun, hold, hnew⟩ :=
          ih (Function.update free ⟨j, hjmax⟩ i) (not_le.mp hlast)
        refine ⟨i :: hits, free', ?_, ?_, fun m hm => ?_, fun m hm => ?_⟩
        · rw [htake, List.filter_cons_of_pos hfree, List.take_succ_cons, hhits]
        · rw [List.length_cons, Nat.add_comm hits.length, ← Nat.add_assoc, ← hrun]
          exact if_neg (by exact_mod_cast hlast)
        · rw [hold m (Nat.lt_succ_of_lt hm), Function.update_of_ne (hother m hm)]
        · cases m with
          | zero =>
            have hhere := hold ⟨j, hjmax⟩ (Nat.lt_succ_self j)
            rw [Function.update_self] at hhere
            exact ⟨hjmax, by simpa using hhere.symm⟩
          | succ m =>
            obtain ⟨h, hm'⟩ := hnew m (by simpa using hm)
            have hshift : j + (m + 1) = j + 1 + m := by omega
            exact ⟨hshift ▸ h, by simpa [hshift] using hm'⟩

/-- Four entries of a table are free, so four are found: the first ones, in increasing order. -/
theorem explore_table (isFree : Nat → Bool) (free : Fin maxFree → Nat)
    (hfree : ∀ i ∈ [firstNiSyscall, secondNiSyscall, thirdNiSyscall, fourthNiSyscall],
      isFree i = true) :
    ∃ free', exploreFrom isFree 4 (List.range entriesToExplore) 0 free = some (4, free') ∧
      ∀ m : Fin 4, free' (m.castLE (by decide)) < entriesToExplore ∧
        isFree (free' (m.castLE (by decide))) = true ∧
        ∀ m' : Fin 4, m < m' → free' (m.castLE (by decide)) < free' (m'.castLE (by decide)) := by
  obtain ⟨hits, free', hhits, hrun, _, hnew⟩ :=
    exploreFrom_eq isFree (List.range entriesToExplore) free (b := 4) (j := 0) (by decide)
      (by decide)
  have hlen : hits.length = 4 := by
    have hsub : [firstNiSyscall, secondNiSyscall, thirdNiSyscall, fourthNiSyscall].Sublist
        ((List.range entriesToExplore).filter isFree) := by
      rw [← List.filter_eq_self.mpr hfree]
      exact List.Sublist.filter _ (by decide)
    have hle : 4 ≤ ((List.range entriesToExplore).filter isFree).length := hsub.length_le
    rw [hhits, List.length_take]
    omega
  have hget : ∀ m : Fin 4, hits[m.val]? = some (free' (m.castLE (by decide))) := by
    intro m
    obtain ⟨h, hm⟩ := hnew m (by rw [hlen]; exact m.isLt)
    rw [hm]
    exact congrArg (some ∘ free') (Fin.ext (Nat.zero_add _))
  have hsorted : hits.Pairwise (· < ·) := by
    rw [hhits]
    exact (List.pairwise_lt_range.filter _).sublist (List.take_sublist _ _)
  refine ⟨free', by rw [← hlen, ← Nat.zero_add hits.length]; exact hrun, fun m => ?_⟩
  have hmem : free' (m.castLE (by decide)) ∈ (List.range entriesToExplore).filter isFree := by
    have hin := List.mem_of_getElem? (hget m)
    rw [hhits] at hin
    exact List.mem_of_mem_take hin
  obtain ⟨hrange, hpass⟩ := List.mem_filter.mp hmem
  refine ⟨List.mem_range.mp hrange, hpass, fun m' hlt => ?_⟩
  obtain ⟨h, hm⟩ := List.getElem?_eq_some_iff.mp (hget m)
  obtain ⟨h', hm'⟩ := List.getElem?_eq_some_iff.mp (hget m')
  rw [← hm, ← hm']
  exact List.pairwise_iff_getElem.mp hsorted _ _ h h' hlt

/-! ## Installation and removal -/

/-- The entry of the table at the free index `m`. -/
def Sys.place (s : Sys) (m : Fin 4) : UInt64 :=
  entryAddr s.hackedSyscallTbl (s.freeEntries (m.castLE (by decide)))

/-- The state `s`, where the first `n` calls have been installed since `s₀`. -/
structure Installed (sysPtr : Fin 4 → UInt64) (s₀ s : Sys) (n : Nat) : Prop where
  nextFree : s.nextFree = n
  table : s.hackedSyscallTbl = s₀.hackedSyscallTbl
  ni : s.hackedNiSyscall = s₀.hackedNiSyscall
  free : s.freeEntries = s₀.freeEntries
  stores : s.stores = s₀.stores ++ ((List.finRange 4).take n).map s₀.place
  number : ∀ m : Fin 4, m.val < n → s.sysCallNum m = s₀.freeEntries (m.castLE (by decide))
  entry : ∀ m : Fin 4, m.val < n → s.mem (s₀.place m) = sysPtr m
  frame : ∀ a, (∀ m : Fin 4, m.val < n → a ≠ s₀.place m) → s.mem a = s₀.mem a

/-- One `exposeNewSyscall`. -/
theorem Installed.expose {m : Fin 4} (h : Installed sysPtr s₀ s m)
    (hplace : Function.Injective s₀.place) :
    ∃ s', exposeNewSyscall (sysPtr m) m s = some (0, s') ∧ Installed sysPtr s₀ s' (m + 1) := by
  have hm : m.val < maxFree := lt_of_lt_of_le m.isLt (by decide)
  set i := s₀.freeEntries (m.castLE (by decide)) with hi
  have hentry : s.freeEntry s.nextFree = some i := by
    rw [Sys.freeEntry, h.nextFree, dif_pos hm, h.free]
    rfl
  have haddr : entryAddr s.hackedSyscallTbl i = s₀.place m := by rw [h.table]; rfl
  set s₁ : Sys := { s.storeEntry i (sysPtr m) with nextFree := s.nextFree + 1 } with hs₁
  -- the entry is read again, at the counter less one, after the increment
  have hback : s₁.freeEntry (s₁.nextFree - 1) = some i := hentry
  have hadd : addSyscall (sysPtr m) s = some ((i : Int), s₁) := by
    rw [addSyscall, if_pos (h.nextFree ▸ hm), hentry]
    show (s₁.freeEntry (s₁.nextFree - 1)).bind _ = _
    rw [hback]
    rfl
  refine ⟨{ s₁ with sysCallNum := Function.update s.sysCallNum m i }, ?_, ?_⟩
  · rw [exposeNewSyscall, hadd]
    show some (if (i : Int) = -1 then negEnomem else 0, _) = _
    rw [if_neg (by omega)]
    rfl
  · refine ⟨congrArg (· + 1) h.nextFree, h.table, h.ni, h.free, ?_, fun k hk => ?_, fun k hk => ?_,
      fun a ha => ?_⟩
    · show s.stores ++ [entryAddr s.hackedSyscallTbl i] = _
      rw [h.stores, haddr, List.take_add_one, List.map_append, List.append_assoc]
      simp
    · by_cases hkm : k = m
      · subst hkm
        exact Function.update_self ..
      · have hlt : k.val < m.val := by
          have hne : k.val ≠ m.val := fun hval => hkm (Fin.ext hval)
          omega
        show Function.update s.sysCallNum m i k = _
        rw [Function.update_of_ne hkm]
        exact h.number k hlt
    · show Function.update s.mem _ _ (s₀.place k) = sysPtr k
      rw [haddr]
      by_cases hkm : k = m
      · subst hkm
        exact Function.update_self ..
      · have hlt : k.val < m.val := by
          have hne : k.val ≠ m.val := fun hval => hkm (Fin.ext hval)
          omega
        rw [Function.update_of_ne fun heq => hkm (hplace heq)]
        exact h.entry k hlt
    · show Function.update s.mem _ _ a = s₀.mem a
      rw [haddr, Function.update_of_ne (ha m (Nat.lt_succ_self _))]
      exact h.frame a fun k hk => ha k (Nat.lt_succ_of_lt hk)

/-- The four calls. -/
theorem exposeAll_installed (hnext : s₀.nextFree = 0) (hplace : Function.Injective s₀.place) :
    ∃ s', exposeAll sysPtr [0, 1, 2, 3] s₀ = some (0, s') ∧ Installed sysPtr s₀ s' 4 := by
  have h0 : Installed sysPtr s₀ s₀ 0 :=
    ⟨hnext, rfl, rfl, rfl, by simp, fun _ h => absurd h (Nat.not_lt_zero _),
      fun _ h => absurd h (Nat.not_lt_zero _), fun _ _ => rfl⟩
  obtain ⟨s1, hrun1, h1⟩ := h0.expose (m := 0) hplace
  obtain ⟨s2, hrun2, h2⟩ := h1.expose (m := 1) hplace
  obtain ⟨s3, hrun3, h3⟩ := h2.expose (m := 2) hplace
  obtain ⟨s4, hrun4, h4⟩ := h3.expose (m := 3) hplace
  refine ⟨s4, ?_, h4⟩
  simp [exposeAll, hrun1, hrun2, hrun3, hrun4]

/-- Going back over the first `n` free entries restores a memory that differs there at most. -/
theorem removeFrom_restores (hn : n ≤ maxFree)
    (hni : ∀ m : Fin maxFree, m.val < n →
      mem (entryAddr s.hackedSyscallTbl (s.freeEntries m)) = s.hackedNiSyscall)
    (hframe : ∀ a, (∀ m : Fin maxFree, m.val < n →
      a ≠ entryAddr s.hackedSyscallTbl (s.freeEntries m)) → s.mem a = mem a) :
    ∃ s', removeFrom n s = some s' ∧ s'.mem = mem ∧ s'.nextFree = 0 := by
  induction n generalizing s with
  | zero => exact ⟨_, rfl, funext fun a => hframe a fun _ h => absurd h (Nat.not_lt_zero _), rfl⟩
  | succ n ih =>
    have hlt : n < maxFree := hn
    rw [removeFrom, Sys.freeEntry, dif_pos hlt]
    refine ih (Nat.le_of_lt hlt) (fun m hm => hni m (Nat.lt_succ_of_lt hm)) fun a ha => ?_
    show Function.update s.mem _ _ a = mem a
    by_cases heq : a = entryAddr s.hackedSyscallTbl (s.freeEntries ⟨n, hlt⟩)
    · rw [heq, Function.update_self]
      exact (hni ⟨n, hlt⟩ (Nat.lt_succ_self n)).symm
    · rw [Function.update_of_ne heq]
      refine hframe a fun m hm => ?_
      rcases Nat.lt_succ_iff_lt_or_eq.mp hm with hless | hlast
      · exact ha m hless
      · obtain rfl : m = ⟨n, hlt⟩ := Fin.ext hlast
        exact heq

/-! ## Load and unload -/

/-- With a table found, four free entries are found in it, at different addresses. -/
theorem foundFreeEntries_table (h : syscallTableFinder mem vtpmo = some addr) :
    ∃ s, foundFreeEntries vtpmo 4 (boot mem) = some (4, s) ∧ s.mem = mem ∧ s.stores = [] ∧
      s.nextFree = 0 ∧ s.hackedSyscallTbl = addr ∧
      s.hackedNiSyscall = mem (entryAddr addr firstNiSyscall) ∧ Function.Injective s.place ∧
      ∀ m : Fin 4, s.freeEntries (m.castLE (by decide)) < entriesToExplore ∧
        mem (s.place m) = mem (entryAddr addr firstNiSyscall) := by
  obtain ⟨htable, hne⟩ := syscallTableFinder_some h
  set ni := mem (entryAddr addr firstNiSyscall) with hni
  obtain ⟨free, hrun, hfree⟩ := explore_table (fun i => mem (entryAddr addr i) == ni)
    (fun _ => 0) fun i hi => beq_iff_eq.mpr (isTable_first htable i hi)
  set s : Sys := { boot mem with
    hackedNiSyscall := ni
    hackedSyscallTbl := addr
    freeEntries := free } with hs
  refine ⟨s, ?_, rfl, rfl, rfl, rfl, rfl, fun m m' hplace => ?_, fun m => ⟨(hfree m).1, ?_⟩⟩
  · rw [foundFreeEntries]
    simp only [boot, h]
    rw [if_neg hne]
    show (exploreFrom (fun i => mem (entryAddr addr i) == ni) 4 _ 0 fun _ => 0).bind _ = _
    rw [hrun]
    rfl
  · -- the entries found are in increasing order, and addresses tell entries apart
    have heq := entryAddr_inj (hfree m).1 (hfree m').1 hplace
    rcases lt_trichotomy m m' with hlt | heq' | hgt
    · exact absurd heq (Nat.ne_of_lt ((hfree m).2.2 m' hlt))
    · exact heq'
    · exact absurd heq (Nat.ne_of_gt ((hfree m').2.2 m hgt))
  · exact beq_iff_eq.mp (hfree m).2.1

/-- **Loading and unloading restores the table.** -/
theorem table_restored (mem : Words) (vtpmo : UInt64 → Int32) (kmallocFails : Bool)
    (sysPtr : Fin 4 → UInt64) :
    (∀ tbl, syscallTableFinder mem vtpmo = some tbl → ∃ s, ∃ idx : Fin 4 → Nat,
      initModuleDefault vtpmo kmallocFails sysPtr (boot mem) = some (0, s) ∧
      Function.Injective idx ∧
      (∀ m, s.sysCallNum m = idx m ∧ idx m < entriesToExplore ∧
        mem (entryAddr tbl (idx m)) = mem (entryAddr tbl firstNiSyscall) ∧
        s.mem (entryAddr tbl (idx m)) = sysPtr m) ∧
      s.stores = (List.finRange 4).map (fun m => entryAddr tbl (idx m)) ∧
      (∀ a, (∀ m, a ≠ entryAddr tbl (idx m)) → s.mem a = mem a) ∧
      ∃ s', cleanupModuleDefault s = some s' ∧ s'.mem = mem ∧ s'.nextFree = 0) ∧
    (syscallTableFinder mem vtpmo = none → ∃ s s',
      initModuleDefault vtpmo kmallocFails sysPtr (boot mem) = some (0, s) ∧
      cleanupModuleDefault s = some s' ∧ s.mem = mem ∧ s'.mem = mem ∧ s'.stores = [] ∧
      s'.nextFree = 0) := by
  refine ⟨fun tbl h => ?_, fun h => ?_⟩
  · obtain ⟨s₁, hfound, rfl, hstores, hnext, rfl, hni, hplace, hfree⟩ := foundFreeEntries_table h
    set s₂ := (initService kmallocFails s₁).2 with hs₂
    obtain ⟨s, hexpose, hin⟩ : ∃ s, exposeAll sysPtr [0, 1, 2, 3] s₂ = some (0, s) ∧
        Installed sysPtr s₂ s 4 := exposeAll_installed hnext hplace
    have hload : initModuleDefault vtpmo kmallocFails sysPtr (boot s₁.mem) = some (0, s) := by
      rw [initModuleDefault, hfound]
      exact hexpose
    -- unloading writes the entries that loading wrote, with what they held before
    obtain ⟨s', hremove, hmem, hzero⟩ : ∃ s', removeFrom s.nextFree s = some s' ∧
        s'.mem = s₁.mem ∧ s'.nextFree = 0 := by
      rw [hin.nextFree]
      refine removeFrom_restores (by decide) (fun m hm => ?_) fun a ha => ?_
      · rw [hin.table, hin.free, hin.ni]
        exact ((hfree ⟨m, hm⟩).2).trans hni.symm
      · refine hin.frame a fun m hm heq => ha (m.castLE (by decide)) hm ?_
        rw [hin.table, hin.free]
        exact heq
    refine ⟨s, fun m => s₁.freeEntries (m.castLE (by decide)), hload, fun m m' heq => ?_,
      fun m => ⟨hin.number m m.isLt, (hfree m).1, (hfree m).2, hin.entry m m.isLt⟩, ?_,
      fun a ha => hin.frame a fun m _ => ha m, { s' with tagServices := false }, ?_, hmem, hzero⟩
    · exact hplace (congrArg (entryAddr s₁.hackedSyscallTbl) heq)
    · rw [hin.stores]
      show s₁.stores ++ _ = _
      rw [hstores]
      rfl
    · rw [cleanupModuleDefault, removeAllSyscall, hremove]
      rfl
  · refine ⟨boot mem, boot mem, ?_, rfl, rfl, rfl, rfl, rfl⟩
    have hfound : foundFreeEntries vtpmo 4 (boot mem) = some (-1, boot mem) := by
      rw [foundFreeEntries]
      simp only [boot, h]
      rfl
    rw [initModuleDefault, hfound]
    rfl

/-- Memory with a table at the first page searched. -/
def tableAtStart : Words := fun a =>
  if a ∈ [134, 174, 182, 183, 214, 215, 236].map (entryAddr start) then 0xffffffff81000000 else 0

/-- The addresses of the four system calls, one behind the other. -/
def fourCalls : Fin 4 → UInt64 := fun m => 0xffffffffc0000000 + 64 * UInt64.ofNat m

/-- The table is found, loading stores the four addresses in it, and unloading takes them out. -/
theorem table_restored_atStart :
    syscallTableFinder tableAtStart (fun _ => 1) = some start ∧
    ∃ s s', ∃ idx : Fin 4 → Nat,
      initModuleDefault (fun _ => 1) false fourCalls (boot tableAtStart) = some (0, s) ∧
      Function.Injective idx ∧ (∀ m, s.mem (entryAddr start (idx m)) = fourCalls m) ∧
      s.stores.length = 4 ∧ cleanupModuleDefault s = some s' ∧ s'.mem = tableAtStart := by
  have hfound : syscallTableFinder tableAtStart (fun _ => 1) = some start := by decide +kernel
  obtain ⟨s, idx, hload, hinj, hentry, hstores, _, s', hunload, hmem, _⟩ :=
    (table_restored tableAtStart (fun _ => 1) false fourCalls).1 start hfound
  refine ⟨hfound, s, s', idx, hload, hinj, fun m => (hentry m).2.2.2, ?_, hunload, hmem⟩
  rw [hstores, List.length_map]
  exact List.length_finRange

end TagMessaging.Discovery
