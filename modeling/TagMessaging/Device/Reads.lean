/-
# TagMessaging.Device.Reads -- reading a snapshot in pieces

A file opened on the device keeps the snapshot taken at open and a position. Between two reads the
table may become anything. A read delivers what is left of the snapshot from the position on, at
most as many bytes as asked for, and moves the position behind them; so the reads of a file, in
whatever lengths, are consecutive pieces of the snapshot, and nothing behind its size is looked at.
The comparison of `*f_pos + len` with `dev->size` is unsigned and their difference signed, which
agrees with the integers as long as the position is not negative and the sum does not overflow.
-/
import TagMessaging.Device.CopyLoops
import TagMessaging.Device.Snapshot

namespace TagMessaging.Device

open TagMessaging.Lib.Transfer TagMessaging.Lib.Transition TagMessaging.Model TagMessaging.Serial

/-! ## Positions -/

/-- Longest read the VFS passes on (`MAX_RW_COUNT`). -/
def maxRwCount : Nat := 0x7ffff000

/-- What the VFS and `copy_to_user` are relied on for. -/
structure Admits (fPos : Int64) (len : UInt64) (writable : Nat → UInt64) : Prop where
  position : 0 ≤ fPos.toInt
  length : len.toNat ≤ maxRwCount
  sum : fPos.toInt + len.toNat < 2 ^ 63
  progress : ∀ i, 1 ≤ (writable i).toNat

variable {dev : ScanModuleStatus} {fPos pos : Int64} {len : UInt64} {writable : Nat → UInt64}
variable {a : CopyAnswer Char} {k : Nat} {m : Mem}

theorem toNat_toUInt64 (h : 0 ≤ fPos.toInt) : (fPos.toUInt64.toNat : Int) = fPos.toInt := by
  have hle : 0 ≤ fPos := Int64.le_iff_toInt_le.mpr h
  rw [Int64.toNat_toUInt64_of_le hle, Int64.cast_toNatClampNeg _ hle]

/-- A nonnegative `ssize_t`. -/
theorem toInt_toInt64 (h : len.toNat < 2 ^ 63) : len.toInt64.toInt = len.toNat := by
  have hcond : len.toInt64.toInt =
      if 2 * len.toNat < 2 ^ 64 then (len.toNat : Int) else len.toNat - 2 ^ 64 :=
    BitVec.toInt_eq_toNat_cond len.toBitVec
  rw [hcond, if_pos (by omega)]

/-- The new position. -/
theorem toInt_advance (hpos : 0 ≤ fPos.toInt) (hsum : fPos.toInt + len.toNat < 2 ^ 63) :
    (fPos.toUInt64 + len).toInt64.toInt = fPos.toInt + len.toNat := by
  have hnat := toNat_toUInt64 hpos
  have hadd : (fPos.toUInt64 + len).toNat = fPos.toUInt64.toNat + len.toNat := by
    rw [UInt64.toNat_add, Nat.mod_eq_of_lt]
    omega
  rw [toInt_toInt64 (by omega), hadd, Nat.cast_add, hnat]

/-- The clamp takes what is left. -/
theorem clampedLen_toNat (dev : ScanModuleStatus) (hpos : 0 ≤ fPos.toInt)
    (hsize : fPos.toInt < dev.size.toInt) (hsum : fPos.toInt + len.toNat < 2 ^ 63) :
    ((clampedLen dev fPos len).toNat : Int) =
      min (len.toNat : Int) (dev.size.toInt - fPos.toInt) := by
  have hp := toNat_toUInt64 hpos
  have hs := toNat_toUInt64 (hpos.trans hsize.le)
  have hlt := Int64.toInt_lt dev.size
  have hadd : (fPos.toUInt64 + len).toNat = fPos.toUInt64.toNat + len.toNat := by
    rw [UInt64.toNat_add, Nat.mod_eq_of_lt]
    omega
  have hsub : (dev.size - fPos).toInt = dev.size.toInt - fPos.toInt := by
    rw [Int64.toInt_sub]
    exact Int.bmod_eq_of_le (by omega) (by omega)
  unfold clampedLen
  split
  · rename_i hover
    rw [gt_iff_lt, UInt64.lt_iff_toNat_lt, hadd] at hover
    rw [toNat_toUInt64 (by omega), hsub]
    omega
  · rename_i hfits
    rw [gt_iff_lt, UInt64.lt_iff_toNat_lt, hadd] at hfits
    omega

/-! ## One read -/

/-- What a read from a position inside the snapshot does: it returns the number of bytes it copied,
those that come next, and moves the position behind them. -/
structure Delivered (dev : ScanModuleStatus) (fPos : Int64) (len : UInt64) (a : CopyAnswer Char)
    (pos : Int64) : Prop where
  ret : a.ret.toInt = min (len.toNat : Int) (dev.size.toInt - fPos.toInt)
  user : ∀ i : Nat, a.user i =
    if (i : Int) < a.ret.toInt then some (dev.message (fPos.toInt.toNat + i)) else none
  position : pos.toInt = fPos.toInt + a.ret.toInt

theorem delivered_of_devRead (h : Admits fPos len writable) (hle : fPos.toInt ≤ dev.size.toInt)
    (hread : devRead dev fPos len writable k = some (a, pos)) : Delivered dev fPos len a pos := by
  rcases devRead_eq_some hread with ⟨hend, hr⟩ | ⟨hinside, hret, hpos, huser⟩
  · -- the position is the size
    have hge : dev.size.toInt ≤ fPos.toInt := Int64.le_iff_toInt_le.mp hend
    obtain ⟨rfl, rfl⟩ := Prod.mk.inj hr
    have hzero : (0 : Int64).toInt = 0 := rfl
    refine ⟨by rw [hzero]; omega, fun i => ?_, by rw [hzero, add_zero]⟩
    rw [if_neg (by rw [hzero]; omega)]
  · have hlt : fPos.toInt < dev.size.toInt := by
      rw [ge_iff_le, Int64.le_iff_toInt_le] at hinside
      omega
    have hclamp := clampedLen_toNat dev h.position hlt h.sum
    have hsum := h.sum
    have hsmall : (clampedLen dev fPos len).toNat < 2 ^ 63 := by
      have := Int64.toInt_lt dev.size
      have := h.position
      omega
    have hval := toInt_toInt64 hsmall
    simp only at hret hpos huser
    refine ⟨by rw [hret, hval, hclamp], fun i => ?_, ?_⟩
    · rw [huser i, hret, hval]
      exact if_congr Nat.cast_lt.symm rfl rfl
    · rw [hpos, hret, hval, toInt_advance h.position (by omega)]

/-- An admitted read returns. -/
theorem exists_devRead (dev : ScanModuleStatus) (h : Admits fPos len writable) :
    ∃ k r, devRead dev fPos len writable k = some r := by
  obtain ⟨k, hk⟩ := exists_le_sum (clampedLen dev fPos len).toNat h.progress
  exact ⟨k, Option.isSome_iff_exists.mp (devRead_returns_iff.mpr (Or.inr hk))⟩

/-- No request reaches behind the size. -/
theorem requests_inside (h : Admits fPos len writable) (hlt : fPos.toInt < dev.size.toInt) :
    ∀ r ∈ (devReadLoop dev fPos len writable k).requests,
      fPos.toInt + r.1.toNat + r.2.toNat ≤ dev.size.toInt := by
  intro r hr
  have hreq := copyLoop_requests _ _ _ _ r hr
  have hclamp := clampedLen_toNat dev h.position hlt h.sum
  omega

/-! ## A file between open and release -/

/-- The memory of the module, and the position of the file. -/
structure OpenFile where
  mem : Mem
  fPos : Int64

/-- What happens while the file is open: the module changes its memory, or a read returns. -/
inductive FileStep where
  | change (m : Mem)
  | read (len : UInt64) (writable : Nat → UInt64) (answer : CopyAnswer Char)

/-- The file with the snapshot that was taken at open. -/
def openFile (dev : ScanModuleStatus) : System OpenFile FileStep where
  init := fun f => f.fPos = 0
  step := fun f l f' =>
    match l with
    | .change m => f' = { f with mem := m }
    | .read len writable answer =>
        ∃ k pos, devRead dev f.fPos len writable k = some (answer, pos) ∧
          f' = { f with fPos := pos }

/-- The guard: reads are as the VFS passes them on. -/
def Vfs (f : OpenFile) : FileStep → Prop
  | .change _ => True
  | .read len writable _ => Admits f.fPos len writable

/-- The bytes asked for. -/
def FileStep.asked : FileStep → Nat
  | .change _ => 0
  | .read len _ _ => len.toNat

/-- The bytes a read returned, as they stand in the caller's buffer. -/
def FileStep.bytes : FileStep → List (Option Char)
  | .change _ => []
  | .read _ _ answer => (List.range answer.ret.toInt.toNat).map answer.user

/-- The bytes asked for in a run. -/
def requested (ls : List FileStep) : Nat := (ls.map FileStep.asked).sum

/-- The bytes returned in a run. -/
def returned (ls : List FileStep) : List (Option Char) := ls.flatMap FileStep.bytes

/-- The first bytes of the snapshot. -/
def firstBytes (dev : ScanModuleStatus) (n : Nat) : List (Option Char) :=
  (List.range n).map fun i => some (dev.message i)

/-- The bytes returned are the first ones of the snapshot, and the position is behind them. -/
structure Follows (dev : ScanModuleStatus) (ls : List FileStep) (fPos : Int64) : Prop where
  returned : returned ls = firstBytes dev (min dev.size.toInt.toNat (requested ls))
  position : fPos.toInt = min dev.size.toInt (requested ls)

variable {f f' : OpenFile} {ls : List FileStep}

theorem requested_snoc (l : FileStep) : requested (ls ++ [l]) = requested ls + l.asked := by
  simp [requested]

theorem returned_snoc (l : FileStep) : returned (ls ++ [l]) = returned ls ++ l.bytes := by
  simp [returned]

/-- Bytes read on from a position. -/
theorem firstBytes_add (dev : ScanModuleStatus) (p n : Nat) :
    firstBytes dev (p + n) =
      firstBytes dev p ++ (List.range n).map fun i => some (dev.message (p + i)) := by
  unfold firstBytes
  rw [List.range_add, List.map_append, List.map_map]
  rfl

theorem Follows.step (h : Follows dev ls f.fPos) (hsize : 0 ≤ dev.size.toInt) {l : FileStep}
    (hok : Vfs f l) (hstep : (openFile dev).step f l f') : Follows dev (ls ++ [l]) f'.fPos := by
  cases l with
  | change m =>
      obtain rfl := hstep
      refine ⟨?_, ?_⟩
      · rw [returned_snoc, requested_snoc]
        exact (List.append_nil _).trans h.returned
      · rw [requested_snoc]
        exact h.position
  | read len writable answer =>
      obtain ⟨k, pos, hread, rfl⟩ := hstep
      have hpos := h.position
      have hd := delivered_of_devRead hok (by omega) hread
      have hret := hd.ret
      have hmin : min dev.size.toInt.toNat (requested (ls ++ [.read len writable answer])) =
          min dev.size.toInt.toNat (requested ls) + answer.ret.toInt.toNat := by
        rw [requested_snoc, FileStep.asked]
        omega
      have hat : min dev.size.toInt.toNat (requested ls) = f.fPos.toInt.toNat := by omega
      refine ⟨?_, ?_⟩
      · rw [returned_snoc, h.returned, hmin, firstBytes_add]
        congr 1
        refine List.map_congr_left fun i hi => ?_
        rw [List.mem_range] at hi
        rw [hd.user i, if_pos (by omega), hat]
      · rw [requested_snoc, FileStep.asked]
        show pos.toInt = _
        have hposition := hd.position
        omega

/-- A run of reads follows the snapshot. -/
theorem follows_of_run (hsize : 0 ≤ dev.size.toInt) (h : Run (openFile dev) Vfs ls f) :
    Follows dev ls f.fPos := by
  induction h with
  | start hinit =>
      have hzero := congrArg Int64.toInt hinit
      refine ⟨by simp [requested, returned, firstBytes], ?_⟩
      rw [hzero]
      simpa [requested] using hsize
  | step _ hok hs ih => exact ih.step hsize hok hs

/-- **The reads of a file reproduce its snapshot.** -/
theorem reads_reproduce (hsize : 0 ≤ dev.size.toInt) (h : Run (openFile dev) Vfs ls f) :
    returned ls = firstBytes dev (min dev.size.toInt.toNat (requested ls)) ∧
      f.fPos.toInt = min dev.size.toInt (requested ls) ∧
      (∀ len writable, Admits f.fPos len writable →
        (∃ k r, devRead dev f.fPos len writable k = some r) ∧
        ∀ k a pos, devRead dev f.fPos len writable k = some (a, pos) →
          (∀ i, (a.user i).isSome ↔ (i : Int) < a.ret.toInt) ∧
          pos.toInt = f.fPos.toInt + a.ret.toInt ∧ pos.toInt ≤ dev.size.toInt ∧
          (0 < len.toNat → a.ret = 0 → returned ls = firstBytes dev dev.size.toInt.toNat)) ∧
      ∀ fPos len writable k, Admits fPos len writable →
        (dev.size.toInt ≤ fPos.toInt →
          devRead dev fPos len writable k = some ({ ret := 0, user := fun _ => none }, fPos)) ∧
        (fPos.toInt < dev.size.toInt →
          ∀ r ∈ (devReadLoop dev fPos len writable k).requests,
            fPos.toInt + r.1.toNat + r.2.toNat ≤ dev.size.toInt) := by
  have hfollows : Follows dev ls f.fPos := follows_of_run hsize h
  have hpos := hfollows.position
  refine ⟨hfollows.returned, hpos, fun len writable hadm => ⟨exists_devRead dev hadm, ?_⟩,
    fun fPos len writable k hadm =>
      ⟨fun hend => if_pos (Int64.le_iff_toInt_le.mpr hend), requests_inside hadm⟩⟩
  intro k a pos hread
  have hd := delivered_of_devRead hadm (by omega) hread
  have hret := hd.ret
  have hposition := hd.position
  refine ⟨fun i => ?_, hposition, by omega, fun hlen hzero => ?_⟩
  · rw [hd.user i]
    by_cases hi : (i : Int) < a.ret.toInt <;> simp [hi]
  · -- nothing was left
    have hnone : a.ret.toInt = 0 := by rw [hzero]; rfl
    have hfull : min dev.size.toInt.toNat (requested ls) = dev.size.toInt.toNat := by omega
    rw [hfollows.returned, hfull]

/-! ## A snapshot taken at open -/

/-- A scan that comes to an end met no dangling slot. -/
theorem slotsLive_of_printSlots {t t' : Scan} {n : Nat} {is : List (Fin minSysTagServices)}
    (h : Scan.printSlots m n is t = .ok t') :
    ∀ i ∈ is, ∀ a, m.tagServices i = some a → (m.services a).isSome := by
  induction is generalizing t with
  | nil =>
      intro i hi
      cases hi
  | cons j is ih =>
      simp only [Scan.printSlots] at h
      intro i hi a ha
      split at h
      · rename_i hnull
        rcases List.mem_cons.mp hi with rfl | hmem
        · simp [hnull] at ha
        · exact ih h i hmem a ha
      · rename_i b hb
        obtain ⟨s, hs, h⟩ := exists_of_bind_eq_ok h
        obtain ⟨t₁, _, h⟩ := exists_of_bind_eq_ok h
        obtain ⟨t₂, _, h⟩ := exists_of_bind_eq_ok h
        rcases List.mem_cons.mp hi with rfl | hmem
        · obtain rfl := Option.some.inj (hb.symm.trans ha)
          unfold derefService at hs
          split at hs
          · cases hs
          · simp_all
        · exact ih h i hmem a ha

/-- The size of a snapshot is positive and at most `STATUS_SIZE_MAX`. -/
theorem snapshot_size {kzallocFails vzallocFails : Bool}
    (h : getModuleStatus m kzallocFails vzallocFails = .ok dev) :
    0 < dev.size.toInt ∧ dev.size.toInt ≤ statusSizeMax := by
  unfold getModuleStatus at h
  split at h
  · cases h
  obtain ⟨t, ht, hres⟩ := exists_of_bind_eq_ok h
  have hlive : SlotsLive m := by
    obtain ⟨t₁, ht₁, _⟩ := exists_of_bind_eq_ok ht
    exact fun i a hi => slotsLive_of_printSlots ht₁ i (List.mem_finRange i) a hi
  cases vzallocFails with
  | true => exact absurd ht scanService_null
  | false =>
      obtain ⟨t', ht', _, htext, hlen, _⟩ := scanService_spec statusSizeMax hlive
        (by decide) (by decide)
      obtain rfl := Except.ok.inj (ht.symm.trans ht')
      simp only [htext] at hres
      obtain rfl := Except.ok.inj hres
      have hcut := List.length_take_le (statusSizeMax - 1) (statusText m)
      have hmax : statusSizeMax = 81920 := rfl
      show 0 < (Int64.ofNat t.writeLen).toInt ∧ (Int64.ofNat t.writeLen).toInt ≤ statusSizeMax
      rw [Int64.toInt_ofNat_of_lt (by omega)]
      omega

/-- The status of one room, read in two pieces while the room goes away. -/
theorem reads_reproduce_oneRoom : ∃ w dev ls f, getModuleStatus w false false = .ok dev ∧
    Run (openFile dev) Vfs ls f ∧ ls.length = 3 ∧
    returned ls = firstBytes dev (min dev.size.toInt.toNat 8) := by
  obtain ⟨_, w, hrun, _⟩ := oneRoom
  obtain ⟨t, ht, _, htext, _⟩ := scanService_spec statusSizeMax
    (reached_slotsLive hrun) (by decide) (by decide)
  obtain ⟨dev, hdev⟩ : ∃ dev, getModuleStatus w.mem false false = .ok dev :=
    ⟨_, by simp only [getModuleStatus, ht, htext, bind, Except.bind]; rfl⟩
  obtain ⟨hsize, hmax⟩ := snapshot_size hdev
  have hstart : Run (openFile dev) Vfs [] ⟨w.mem, 0⟩ := .start rfl
  -- three bytes, one in each round
  have hfirst : Admits 0 3 (fun _ => 1) := ⟨by decide, by decide, by decide, fun _ => by decide⟩
  obtain ⟨k, ⟨a, pos⟩, hread⟩ := exists_devRead dev hfirst
  have hrun₁ : Run (openFile dev) Vfs ([] ++ [.read 3 (fun _ => 1) a]) ⟨w.mem, pos⟩ :=
    hstart.step hfirst ⟨k, pos, hread, rfl⟩
  have hrun₂ : Run (openFile dev) Vfs ([] ++ [.read 3 (fun _ => 1) a] ++ [.change emptyMem])
      ⟨emptyMem, pos⟩ :=
    hrun₁.step trivial rfl
  -- five more
  have hret := (delivered_of_devRead hfirst hsize.le hread).ret
  have hpos := (delivered_of_devRead hfirst hsize.le hread).position
  have h3 : (3 : UInt64).toNat = 3 := rfl
  have h5 : (5 : UInt64).toNat = 5 := rfl
  have h0 : (0 : Int64).toInt = 0 := rfl
  rw [h3, h0] at hret
  rw [h0] at hpos
  have hsecond : Admits pos 5 (fun _ => 2) :=
    ⟨by omega, by decide, by rw [h5]; omega, fun _ => by decide⟩
  obtain ⟨k', ⟨a', pos'⟩, hread'⟩ := exists_devRead dev hsecond
  have hrun₃ : Run (openFile dev) Vfs
      ([] ++ [.read 3 (fun _ => 1) a] ++ [.change emptyMem] ++ [.read 5 (fun _ => 2) a'])
      ⟨emptyMem, pos'⟩ :=
    hrun₂.step hsecond ⟨k', pos', hread', rfl⟩
  exact ⟨w.mem, dev, _, _, hdev, hrun₃, rfl, (reads_reproduce hsize.le hrun₃).1⟩

end TagMessaging.Device
