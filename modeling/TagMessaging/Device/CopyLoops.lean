/-
# TagMessaging.Device.CopyLoops -- when the loops around `copy_to_user` end

The unsigned offset of the loop never passes the length, so the loop is a transfer in rounds: after
any number of iterations the caller's buffer holds a prefix of the source. It ends exactly when what
`copy_to_user` can store at each iteration adds up to the length, and does not when from some
iteration on it can store nothing.
-/
import TagMessaging.Model.CharDev
import TagMessaging.Lib.Transfer

namespace TagMessaging.Device

open TagMessaging.Lib.Transfer TagMessaging.Model

variable {α : Type} {src : Nat → α} {len w : UInt64} {writable : Nat → UInt64} {k : Nat}
variable {c : CopyState α}

/-! ## One iteration -/

theorem toNat_remaining (h : c.offset.toNat ≤ len.toNat) :
    (len - c.offset).toNat = len.toNat - c.offset.toNat :=
  UInt64.toNat_sub_of_le _ _ (UInt64.le_iff_toNat_le.mpr h)

/-- The loop test. -/
theorem remaining_pos_iff (h : c.offset.toNat ≤ len.toNat) :
    len - c.offset > 0 ↔ c.offset.toNat < len.toNat := by
  rw [gt_iff_lt, UInt64.lt_iff_toNat_lt, toNat_remaining h]
  have hzero : (0 : UInt64).toNat = 0 := rfl
  omega

/-- What one call stores. -/
theorem toNat_sent (asked : UInt64) :
    (asked - copyToUserRet w asked).toNat = min w.toNat asked.toNat := by
  unfold copyToUserRet
  split
  · rename_i hlt
    have hnat := UInt64.lt_iff_toNat_lt.mp hlt
    have hleft : (asked - w).toNat = asked.toNat - w.toNat :=
      UInt64.toNat_sub_of_le _ _ (UInt64.le_iff_toNat_le.mpr hnat.le)
    have hle : asked - w ≤ asked := by
      rw [UInt64.le_iff_toNat_le, hleft]
      omega
    rw [UInt64.toNat_sub_of_le _ _ hle, hleft]
    omega
  · rename_i hge
    have hnat : asked.toNat ≤ w.toNat := by
      rw [UInt64.lt_iff_toNat_lt] at hge
      omega
    rw [UInt64.sub_zero, Nat.min_eq_right hnat]

/-- An iteration is a round of the transfer. -/
theorem copyBody_offset (h : c.offset.toNat ≤ len.toNat) :
    (copyBody src len w c).offset.toNat =
      c.offset.toNat + min w.toNat (len.toNat - c.offset.toNat) := by
  have hbound := UInt64.toNat_lt len
  have hsent := toNat_sent (w := w) (len - c.offset)
  rw [toNat_remaining h] at hsent
  show (c.offset + _).toNat = _
  rw [UInt64.toNat_add, hsent, Nat.mod_eq_of_lt]
  omega

/-! ## The loop -/

/-- The loop is the transfer in rounds. -/
theorem copyLoop_transfer (src : Nat → α) (len : UInt64) (writable : Nat → UInt64) (k : Nat) :
    (copyLoop src len writable k).offset.toNat =
        (after src len.toNat (fun i => (writable i).toNat) k).offset ∧
      (copyLoop src len writable k).user =
        (after src len.toNat (fun i => (writable i).toNat) k).target := by
  induction k with
  | zero => exact ⟨rfl, rfl⟩
  | succ k ih =>
      obtain ⟨hoffset, huser⟩ := ih
      set c := copyLoop src len writable k with hc
      set t := after src len.toNat (fun i => (writable i).toNat) k with ht
      have hle : c.offset.toNat ≤ len.toNat := hoffset ▸ after_offset_le _ _ _ _
      show (if len - c.offset > 0 then copyBody src len (writable k) c else c).offset.toNat =
          (t.advance src (min (writable k).toNat (len.toNat - t.offset))).offset ∧
        (if len - c.offset > 0 then copyBody src len (writable k) c else c).user =
          (t.advance src (min (writable k).toNat (len.toNat - t.offset))).target
      by_cases hlt : c.offset.toNat < len.toNat
      · rw [if_pos ((remaining_pos_iff hle).mpr hlt), copyBody_offset hle, hoffset]
        refine ⟨rfl, funext fun i => ?_⟩
        have hsent := toNat_sent (w := writable k) (len - c.offset)
        rw [toNat_remaining hle] at hsent
        simp only [copyBody, Progress.advance, hsent, hoffset, huser]
      · -- the loop is over, and the remaining rounds bring nothing
        rw [if_neg (mt (remaining_pos_iff hle).mp hlt), hoffset, huser]
        have hnone : len.toNat - t.offset = 0 := by omega
        rw [hnone, Nat.min_zero]
        refine ⟨rfl, funext fun i => ?_⟩
        show t.target i = if t.offset ≤ i ∧ i < t.offset + 0 then _ else t.target i
        rw [if_neg (by omega)]

theorem copyLoop_offset_le (src : Nat → α) (len : UInt64) (writable : Nat → UInt64) (k : Nat) :
    (copyLoop src len writable k).offset.toNat ≤ len.toNat := by
  rw [(copyLoop_transfer src len writable k).1]
  exact after_offset_le _ _ _ _

/-- The loop has ended when the rooms add up. -/
theorem copyLoop_ended_iff (src : Nat → α) :
    ¬ (len - (copyLoop src len writable k).offset > 0) ↔
      len.toNat ≤ ∑ i ∈ Finset.range k, (writable i).toNat := by
  rw [remaining_pos_iff (copyLoop_offset_le src len writable k),
    (copyLoop_transfer src len writable k).1, ← after_offset_eq_iff src]
  have hle := after_offset_le src len.toNat (fun i => (writable i).toNat) k
  omega

/-- Then the buffer holds the source. -/
theorem copyLoop_user (h : ¬ (len - (copyLoop src len writable k).offset > 0)) (i : Nat) :
    (copyLoop src len writable k).user i = if i < len.toNat then some (src i) else none := by
  rw [(copyLoop_transfer src len writable k).2]
  exact target_of_offset_eq ((after_offset_eq_iff src).mpr ((copyLoop_ended_iff src).mp h)) i

/-- Every request stays inside the length. -/
theorem copyLoop_requests (src : Nat → α) (len : UInt64) (writable : Nat → UInt64) (k : Nat) :
    ∀ r ∈ (copyLoop src len writable k).requests, r.1.toNat + r.2.toNat ≤ len.toNat := by
  induction k with
  | zero =>
      intro r hr
      cases hr
  | succ k ih =>
      intro r hr
      have hle := copyLoop_offset_le src len writable k
      simp only [copyLoop] at hr
      split at hr
      · rcases List.mem_append.mp hr with hold | hnew
        · exact ih r hold
        · obtain rfl := List.mem_singleton.mp hnew
          show (copyLoop src len writable k).offset.toNat + (len - _).toNat ≤ len.toNat
          rw [toNat_remaining hle]
          omega
      · exact ih r hr

/-! ## The calls -/

/-- A length that comes back as a nonnegative `ssize_t` comes back unchanged. -/
theorem toNat_ret (h : 0 ≤ len.toInt64.toInt) : len.toInt64.toInt.toNat = len.toNat := by
  have hcond : len.toInt64.toInt =
      if 2 * len.toNat < 2 ^ 64 then (len.toNat : Int) else len.toNat - 2 ^ 64 :=
    BitVec.toInt_eq_toNat_cond len.toBitVec
  have hbound := UInt64.toNat_lt len
  split at hcond <;> omega

/-- The call returns, its offset stays within the length, and when it returns `n` the buffer holds
the first `n` bytes of the source and nothing else. -/
structure CopiesAll (call : Nat → Option (CopyAnswer α)) (loop : Nat → CopyState α)
    (len : UInt64) (src : Nat → α) : Prop where
  returns : ∃ k, (call k).isSome
  inLength : ∀ k, (loop k).offset.toNat ≤ len.toNat
  copied : ∀ k a, call k = some a → 0 ≤ a.ret.toInt →
    ∀ i, a.user i = if i < a.ret.toInt.toNat then some (src i) else none

variable {message : Nat → UInt8} {size eSize : UInt64} {dev : ScanModuleStatus} {fPos : Int64}

theorem isSome_ite_none {β : Type} {p : Prop} [Decidable p] {b : β} :
    (if p then none else some b).isSome ↔ ¬ p := by
  by_cases hp : p <;> simp [hp]

theorem receiveCopy_returns_iff :
    (receiveCopy message size eSize writable k).isSome ↔
      (receiveLen size eSize).toNat ≤ ∑ i ∈ Finset.range k, (writable i).toNat := by
  rw [← copyLoop_ended_iff message]
  exact isSome_ite_none

theorem devRead_returns_iff :
    (devRead dev fPos len writable k).isSome ↔
      fPos ≥ dev.size ∨
        (clampedLen dev fPos len).toNat ≤ ∑ i ∈ Finset.range k, (writable i).toNat := by
  rw [← copyLoop_ended_iff (readSource dev fPos)]
  unfold devRead
  split
  · rename_i hend
    exact iff_of_true rfl (Or.inl hend)
  · rename_i hinside
    rw [or_iff_right hinside]
    exact isSome_ite_none

theorem receiveCopy_copied {a : CopyAnswer UInt8}
    (h : receiveCopy message size eSize writable k = some a) (hret : 0 ≤ a.ret.toInt) (i : Nat) :
    a.user i = if i < a.ret.toInt.toNat then some (message i) else none := by
  obtain ⟨hend, ha⟩ := Option.ite_none_left_eq_some.mp h
  obtain rfl := Option.some.inj ha
  rw [toNat_ret hret]
  exact copyLoop_user hend i

/-- A read that has returned met the end of the snapshot or copied what it was to copy. -/
theorem devRead_eq_some {r : CopyAnswer Char × Int64}
    (h : devRead dev fPos len writable k = some r) :
    fPos ≥ dev.size ∧ r = ({ ret := 0, user := fun _ => none }, fPos) ∨
      ¬ fPos ≥ dev.size ∧ r.1.ret = (clampedLen dev fPos len).toInt64 ∧
        r.2 = (fPos.toUInt64 + clampedLen dev fPos len).toInt64 ∧
        ∀ i, r.1.user i =
          if i < (clampedLen dev fPos len).toNat then some (readSource dev fPos i) else none := by
  unfold devRead at h
  split at h
  · rename_i hend
    exact Or.inl ⟨hend, (Option.some.inj h).symm⟩
  · rename_i hinside
    obtain ⟨hdone, hr⟩ := Option.ite_none_left_eq_some.mp h
    obtain rfl := Option.some.inj hr
    exact Or.inr ⟨hinside, rfl, rfl, fun i => copyLoop_user hdone i⟩

/-- **A copy loop ends exactly when `copy_to_user` makes room for all of it.** -/
theorem copy_loops_end (message : Nat → UInt8) (size eSize : UInt64) (dev : ScanModuleStatus)
    (fPos : Int64) (len : UInt64) (writable : Nat → UInt64) :
    (CopiesAll (receiveCopy message size eSize writable) (receiveLoop message size eSize writable)
        (receiveLen size eSize) message ↔
      ∃ k, (receiveLen size eSize).toNat ≤ ∑ i ∈ Finset.range k, (writable i).toNat) ∧
    (CopiesAll (fun k => (devRead dev fPos len writable k).map Prod.fst)
        (devReadLoop dev fPos len writable) (clampedLen dev fPos len) (readSource dev fPos) ↔
      fPos ≥ dev.size ∨
        ∃ k, (clampedLen dev fPos len).toNat ≤ ∑ i ∈ Finset.range k, (writable i).toNat) := by
  constructor
  · constructor
    · intro h
      obtain ⟨k, hk⟩ := h.returns
      exact ⟨k, receiveCopy_returns_iff.mp hk⟩
    · rintro ⟨k, hk⟩
      exact ⟨⟨k, receiveCopy_returns_iff.mpr hk⟩, copyLoop_offset_le _ _ _,
        fun k a ha hret => receiveCopy_copied ha hret⟩
  · constructor
    · intro h
      obtain ⟨k, hk⟩ := h.returns
      rw [Option.isSome_map] at hk
      exact (devRead_returns_iff.mp hk).imp_right fun hsum => ⟨k, hsum⟩
    · intro h
      have hreturns : ∃ k, (devRead dev fPos len writable k).isSome := by
        rcases h with hend | ⟨k, hk⟩
        · exact ⟨0, devRead_returns_iff.mpr (Or.inl hend)⟩
        · exact ⟨k, devRead_returns_iff.mpr (Or.inr hk)⟩
      refine ⟨by simpa using hreturns, copyLoop_offset_le _ _ _, fun k a ha hret i => ?_⟩
      obtain ⟨r, hr, rfl⟩ := Option.map_eq_some_iff.mp ha
      rcases devRead_eq_some hr with ⟨_, rfl⟩ | ⟨_, hlen, _, huser⟩
      · rfl
      · rw [hlen] at hret ⊢
        rw [huser i, toNat_ret hret]

/-- Neither loop ends when the buffer cannot be written. -/
theorem copy_loops_forever :
    (¬ ∃ k, (receiveCopy (fun _ => 65) 4 4 (fun _ => 0) k).isSome) ∧
      ¬ ∃ k, (devRead { message := fun _ => 'a', size := 10 } 0 4 (fun _ => 0) k).isSome := by
  constructor
  · rintro ⟨k, hk⟩
    have hsum := receiveCopy_returns_iff.mp hk
    have hnone : ∑ i ∈ Finset.range k, ((fun _ => 0 : Nat → UInt64) i).toNat = 0 := by simp
    rw [hnone] at hsum
    exact absurd hsum (by decide)
  · rintro ⟨k, hk⟩
    have hsum := devRead_returns_iff.mp hk
    have hnone : ∑ i ∈ Finset.range k, ((fun _ => 0 : Nat → UInt64) i).toNat = 0 := by simp
    rw [hnone] at hsum
    exact absurd hsum (by decide)

end TagMessaging.Device
