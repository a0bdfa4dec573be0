/-
# TagMessaging.Device.Snapshot -- what a status snapshot holds

`scan_Service` prints the lines of the live services one after the other and lets `scnprintf` cut
what no longer fits. After any number of prints the buffer therefore holds the first `*len - 1`
characters of all that was to be printed, however many prints came too late, and `NUL` from there
on. The width of the text is a sum over the table, so a snapshot is complete exactly when that sum
is below `STATUS_SIZE_MAX`. The buffer is one byte shorter than the space the prints are given, so
it stays inside its buffer only when the sum is one smaller still.
-/
import TagMessaging.Model.Status
import TagMessaging.Serial.Execution

namespace TagMessaging.Device

open TagMessaging.Lib.Effect TagMessaging.Lib.Transition TagMessaging.Model TagMessaging.Serial
open TagMessaging.Lib.Numeral (numeral)

/-! ## The text of a table -/

/-- A line: tag, creator, tag, key, level and waiters. -/
def lineText (tag creator key level waiters : Int) : List Char :=
  "Tag descriptor: ".toList ++ numeral tag ++ ";Tag Creator: ".toList ++ numeral creator ++
  ";TAG ID: ".toList ++ numeral tag ++ "; KEY: ".toList ++ numeral key ++
  "; Level: ".toList ++ numeral level ++ ", Waiters: ".toList ++ numeral waiters ++ "\n".toList

/-- The line of one level. -/
def levelLine (s : TAGService) (level : Fin levelDeep) : List Char :=
  lineText s.tag.toInt32.toInt s.uidCreator.toInt s.key.toInt level.val (s.levels.waiters level)

/-- The 32 lines of a service and an empty line. -/
def serviceText (s : TAGService) : List Char :=
  (List.finRange levelDeep).flatMap (levelLine s) ++ "\n".toList

/-- The text of the services in the given slots. -/
def slotsText (m : Mem) (is : List (Fin minSysTagServices)) : List Char :=
  is.flatMap fun i => (slotService m i).elim [] serviceText

/-- The whole text. -/
def statusText (m : Mem) : List Char := slotsText m (List.finRange minSysTagServices)

/-- The width of a number in decimal. -/
def width (z : Int) : Nat := (numeral z).length

/-- The width of a line: 67 fixed characters and six numbers. -/
def lineWidth (s : TAGService) (level : Fin levelDeep) : Nat :=
  67 + 2 * width s.tag.toInt32.toInt + width s.uidCreator.toInt + width s.key.toInt +
    width level.val + width (s.levels.waiters level)

/-- The width of the lines of a service. -/
def serviceWidth (s : TAGService) : Nat := ∑ level, lineWidth s level + 1

/-- The width of the lines of all live services. -/
def statusWidth (m : Mem) : Nat := ∑ i, (slotService m i).elim 0 serviceWidth

/-- Every slot that is not `NULL` leads to a record. -/
def SlotsLive (m : Mem) : Prop := ∀ i a, m.tagServices i = some a → (m.services a).isSome

variable {m : Mem} {s : TAGService} {level : Fin levelDeep} {t t' : Scan} {len : Nat}
variable {cs xs ys : List Char} {w : World} {ls : List Done} {vzallocFails : Bool}

theorem lineText_length (tag creator key level waiters : Int) :
    (lineText tag creator key level waiters).length =
      67 + 2 * width tag + width creator + width key + width level + width waiters := by
  unfold lineText width
  generalize numeral tag = tag, numeral creator = creator, numeral key = key,
    numeral level = level, numeral waiters = waiters
  simp
  omega

/-- The four formats print a line. -/
theorem formatted_line (tag creator key level waiters : Int) :
    formatted "Tag descriptor: %d;".toList [tag] ++
      formatted "Tag Creator: %d;".toList [creator] ++
      formatted "TAG ID: %d; KEY: %d; Level: %d, Waiters: %d".toList [tag, key, level, waiters] ++
      formatted "\n".toList [] = lineText tag creator key level waiters := by
  unfold lineText
  simp [formatted]

theorem levelLine_length : (levelLine s level).length = lineWidth s level :=
  lineText_length _ _ _ _ _

theorem serviceText_length : (serviceText s).length = serviceWidth s := by
  simp [serviceText, serviceWidth, List.length_flatMap, levelLine_length, Fin.sum_univ_def]

theorem statusText_length : (statusText m).length = statusWidth m := by
  rw [statusText, slotsText, List.length_flatMap, statusWidth, Fin.sum_univ_def]
  congr 1
  refine List.map_congr_left fun i _ => ?_
  cases slotService m i with
  | none => rfl
  | some s => exact serviceText_length

/-- The reachable tables are live. -/
theorem reached_slotsLive (h : Run serial Inside ls w) : SlotsLive w.mem := by
  obtain ⟨P, hP⟩ := reached_formed h
  intro i a hi
  obtain ⟨s, hs, _⟩ := hP.record hi
  simp [hs]

/-! ## One print -/

/-- The characters of a text, and `NUL` behind its end. -/
def textOf (cs : List Char) : Nat → Char := fun i => cs.getD i nul

theorem storeChars_textOf (xs ys : List Char) :
    storeChars (textOf xs) xs.length (ys ++ [nul]) = textOf (xs ++ ys) := by
  funext i
  unfold storeChars textOf
  by_cases hi : i < xs.length
  · rw [if_pos hi, List.getD_append _ _ _ _ hi]
  · have hle : xs.length ≤ i := Nat.le_of_not_lt hi
    rw [if_neg hi, List.getD_append_right _ _ _ _ hle, List.getD_eq_default _ _ hle]
    by_cases hj : i - xs.length < ys.length
    · exact List.getD_append _ _ _ _ hj
    · have hle' : ys.length ≤ i - xs.length := Nat.le_of_not_lt hj
      rw [List.getD_append_right _ _ _ _ hle', List.getD_eq_default _ _ hle']
      cases i - xs.length - ys.length <;> rfl

/-- Reading a text back from the buffer. -/
theorem map_textOf : (List.range (xs.length + 1)).map (textOf xs) = xs ++ [nul] := by
  refine List.ext_getElem (by simp) fun i hi _ => ?_
  rw [List.getElem_map, List.getElem_range, textOf, List.getElem_append]
  split
  · exact List.getD_eq_getElem _ _ _
  · rename_i hge
    rw [List.getD_eq_default _ _ (Nat.le_of_not_lt hge), List.getElem_singleton]

/-- The scan after everything in `cs` was to be printed. -/
structure Printed (len : Nat) (cs : List Char) (t : Scan) : Prop where
  allocated : t.allocated = len - 1
  text : t.text = some (textOf (cs.take (len - 1)))
  writeLen : t.writeLen = (cs.take (len - 1)).length
  stored : ∀ o ∈ t.stored, o ≤ t.writeLen
  printedAt : ∀ n ∈ t.printedAt, n < len

theorem Printed.writeLen_le (h : Printed len cs t) : t.writeLen ≤ len - 1 := by
  rw [h.writeLen]
  exact List.length_take_le _ _

/-- What the cut of one print leaves is what the cut of the whole text leaves. -/
theorem Printed.take_append (h : Printed len cs t) (new : List Char) :
    (cs ++ new).take (len - 1) = cs.take (len - 1) ++ new.take (len - t.writeLen - 1) := by
  have hroom : len - 1 - cs.length = len - t.writeLen - 1 := by
    rw [h.writeLen, List.length_take]
    omega
  rw [List.take_append, hroom]

/-- One print stores what fits and a `NUL` behind it. -/
theorem Printed.print_eq (h : Printed len cs t) (hpos : 0 < len) (hlen : len < 2 ^ 64)
    (format : String) (args : List Int) {new : List Char}
    (hnew : (formatted format.toList args).take (len - t.writeLen - 1) = new) :
    t.print len format args = .ok
      { allocated := t.allocated
        text := some (textOf (cs.take (len - 1) ++ new))
        writeLen := t.writeLen + new.length
        stored := t.stored ++ List.range' t.writeLen (new.length + 1)
        printedAt := t.printedAt ++ [t.writeLen] } := by
  have hle := h.writeLen_le
  have hn : sizeSub len t.writeLen = len - t.writeLen := by
    rw [sizeSub]
    omega
  have hn0 : len - t.writeLen ≠ 0 := by omega
  have hbuf := storeChars_textOf (cs.take (len - 1)) new
  rw [← h.writeLen] at hbuf
  simp only [Scan.print, Scan.store, h.text, hn, scnprintf, scnprintfRet, if_neg hn0, hnew, hbuf,
    List.length_append, List.length_singleton]
  rfl

theorem Printed.print (h : Printed len cs t) (hpos : 0 < len) (hlen : len < 2 ^ 64)
    (format : String) (args : List Int) : ∃ t', t.print len format args = .ok t' ∧
      Printed len (cs ++ formatted format.toList args) t' := by
  have hle := h.writeLen_le
  have hcut := h.take_append (formatted format.toList args)
  refine ⟨_, h.print_eq hpos hlen format args rfl, h.allocated, by rw [hcut], ?_, ?_, ?_⟩
  · rw [hcut, List.length_append, ← h.writeLen]
  · intro o ho
    rw [List.mem_append, List.mem_range'_1] at ho
    -- the last store of the print is its `NUL`, where the next print begins
    rcases ho with hold | hnew
    · exact le_trans (h.stored o hold) (Nat.le_add_right _ _)
    · exact Nat.le_of_lt_succ hnew.2
  · intro n hmem
    rw [List.mem_append, List.mem_singleton] at hmem
    rcases hmem with hold | rfl
    · exact h.printedAt n hold
    · omega

/-! ## The loops -/

theorem Printed.printLevel (h : Printed len cs t) (hpos : 0 < len) (hlen : len < 2 ^ 64)
    (s : TAGService) (level : Fin levelDeep) : ∃ t', t.printLevel len s level = .ok t' ∧
      Printed len (cs ++ levelLine s level) t' := by
  obtain ⟨t₁, ht₁, h₁⟩ := h.print hpos hlen "Tag descriptor: %d;" [s.tag.toInt32.toInt]
  obtain ⟨t₂, ht₂, h₂⟩ := h₁.print hpos hlen "Tag Creator: %d;" [s.uidCreator.toInt]
  obtain ⟨t₃, ht₃, h₃⟩ := h₂.print hpos hlen "TAG ID: %d; KEY: %d; Level: %d, Waiters: %d"
    [s.tag.toInt32.toInt, s.key.toInt, level.val, s.levels.waiters level]
  obtain ⟨t₄, ht₄, h₄⟩ := h₃.print hpos hlen "\n" []
  refine ⟨t₄, by simp [Scan.printLevel, ht₁, ht₂, ht₃, ht₄, bind, Except.bind], ?_⟩
  rw [levelLine, ← formatted_line]
  simpa only [List.append_assoc] using h₄

theorem Printed.printLevels (h : Printed len cs t) (hpos : 0 < len) (hlen : len < 2 ^ 64)
    (s : TAGService) (levels : List (Fin levelDeep)) :
    ∃ t', Scan.printLevels len s levels t = .ok t' ∧
      Printed len (cs ++ levels.flatMap (levelLine s)) t' := by
  induction levels generalizing cs t with
  | nil => exact ⟨t, rfl, by simpa using h⟩
  | cons level levels ih =>
      obtain ⟨t₁, ht₁, h₁⟩ := h.printLevel hpos hlen s level
      obtain ⟨t₂, ht₂, h₂⟩ := ih h₁
      refine ⟨t₂, by simpa [Scan.printLevels, ht₁, bind, Except.bind] using ht₂, ?_⟩
      simpa [List.append_assoc] using h₂

theorem Printed.printSlots (h : Printed len cs t) (hpos : 0 < len) (hlen : len < 2 ^ 64)
    (hlive : SlotsLive m) (is : List (Fin minSysTagServices)) :
    ∃ t', Scan.printSlots m len is t = .ok t' ∧ Printed len (cs ++ slotsText m is) t' := by
  induction is generalizing cs t with
  | nil => exact ⟨t, rfl, by simpa [slotsText] using h⟩
  | cons i is ih =>
      cases hi : m.tagServices i with
      | none =>
          obtain ⟨t₁, ht₁, h₁⟩ := ih h
          refine ⟨t₁, by simpa [Scan.printSlots, hi] using ht₁, ?_⟩
          simpa [slotsText, slotService, hi] using h₁
      | some a =>
          obtain ⟨s, hs⟩ := Option.isSome_iff_exists.mp (hlive i a hi)
          obtain ⟨t₁, ht₁, h₁⟩ := h.printLevels hpos hlen s (List.finRange levelDeep)
          obtain ⟨t₂, ht₂, h₂⟩ := h₁.print hpos hlen "\n" []
          obtain ⟨t₃, ht₃, h₃⟩ := ih h₂
          refine ⟨t₃, ?_, ?_⟩
          · simpa [Scan.printSlots, derefService, hi, hs, ht₁, ht₂, bind, Except.bind] using ht₃
          · simpa [slotsText, slotService, hi, hs, serviceText, formatted, List.append_assoc]
              using h₃

/-- The whole scan of a live table. -/
theorem scanService_spec (len : Nat) (hlive : SlotsLive m) (hpos : 1 < len) (hlen : len < 2 ^ 64) :
    ∃ t, scanService m false len = .ok t ∧
      t.allocated = len - 1 ∧
      t.text = some (textOf ((statusText m).take (len - 1))) ∧
      t.writeLen = ((statusText m).take (len - 1)).length + 1 ∧
      (∀ o ∈ t.stored, o < t.writeLen) ∧ t.writeLen - 1 ∈ t.stored ∧
      ∀ n ∈ t.printedAt, n < len := by
  have hsize : sizeSub len 1 = len - 1 := by
    rw [sizeSub]
    omega
  have hstart : Printed len [] ⟨len - 1, vzallocText false (len - 1), 0, [], []⟩ := by
    refine ⟨rfl, ?_, by simp, by simp, by simp⟩
    have hne : ¬ (len - 1 = 0 ∨ false = true) := by simp; omega
    rw [vzallocText, if_neg hne, List.take_nil]
    rfl
  obtain ⟨t, ht, h⟩ := hstart.printSlots hpos.le hlen hlive (List.finRange minSysTagServices)
  rw [List.nil_append, ← statusText] at h
  have hbuf := storeChars_textOf ((statusText m).take (len - 1)) []
  rw [List.nil_append, List.append_nil, ← h.writeLen] at hbuf
  have hscan : scanService m false len = .ok
      { t with
        text := some (textOf ((statusText m).take (len - 1)))
        stored := t.stored ++ List.range' t.writeLen 1
        writeLen := t.writeLen + 1 } := by
    simp only [scanService, hsize, ht, bind, Except.bind, Scan.store, h.text, hbuf]
    rfl
  refine ⟨_, hscan, h.allocated, rfl, ?_, ?_, ?_, h.printedAt⟩
  · show t.writeLen + 1 = _
    rw [h.writeLen]
  · intro o ho
    rw [List.mem_append, List.mem_range'_1] at ho
    show o < t.writeLen + 1
    rcases ho with hold | hnew
    · exact Nat.lt_succ_of_le (h.stored o hold)
    · exact hnew.2
  · simp

/-! ## Without a buffer -/

/-- A computation in steps that gives a value gave one at each step. -/
theorem exists_of_bind_eq_ok {α β : Type} {x : Except Fault α} {f : α → Except Fault β} {b : β}
    (h : x >>= f = .ok b) : ∃ a, x = .ok a ∧ f a = .ok b := by
  cases x with
  | error fault => cases h
  | ok a => exact ⟨a, rfl, h⟩

theorem Scan.text_of_store (h : t.text = none) (hret : t.store cs = .ok t') : t'.text = none := by
  simp only [Scan.store, h] at hret
  split at hret
  · obtain rfl := Except.ok.inj hret
    exact h
  · cases hret

theorem Scan.text_of_print {format : String} {args : List Int} (h : t.text = none)
    (hret : t.print len format args = .ok t') : t'.text = none := by
  obtain ⟨t₁, ht₁, hret⟩ := exists_of_bind_eq_ok hret
  have htext := Scan.text_of_store (t := { t with printedAt := t.printedAt ++ [t.writeLen] }) h ht₁
  obtain rfl := Except.ok.inj hret
  exact htext

theorem Scan.text_of_printLevel (h : t.text = none)
    (hret : t.printLevel len s level = .ok t') : t'.text = none := by
  obtain ⟨t₁, ht₁, hret⟩ := exists_of_bind_eq_ok hret
  obtain ⟨t₂, ht₂, hret⟩ := exists_of_bind_eq_ok hret
  obtain ⟨t₃, ht₃, hret⟩ := exists_of_bind_eq_ok hret
  exact text_of_print (text_of_print (text_of_print (text_of_print h ht₁) ht₂) ht₃) hret

theorem Scan.text_of_printLevels {levels : List (Fin levelDeep)} (h : t.text = none)
    (hret : Scan.printLevels len s levels t = .ok t') : t'.text = none := by
  induction levels generalizing t with
  | nil =>
      obtain rfl := Except.ok.inj hret
      exact h
  | cons level levels ih =>
      obtain ⟨t₁, ht₁, hret⟩ := exists_of_bind_eq_ok hret
      exact ih (text_of_printLevel h ht₁) hret

theorem Scan.text_of_printSlots {is : List (Fin minSysTagServices)} (h : t.text = none)
    (hret : Scan.printSlots m len is t = .ok t') : t'.text = none := by
  induction is generalizing t with
  | nil =>
      obtain rfl := Except.ok.inj hret
      exact h
  | cons i is ih =>
      simp only [Scan.printSlots] at hret
      split at hret
      · exact ih h hret
      · obtain ⟨s, _, hret⟩ := exists_of_bind_eq_ok hret
        obtain ⟨t₁, ht₁, hret⟩ := exists_of_bind_eq_ok hret
        obtain ⟨t₂, ht₂, hret⟩ := exists_of_bind_eq_ok hret
        exact ih (text_of_print (text_of_printLevels h ht₁) ht₂) hret

/-- The final store goes through `NULL`. -/
theorem scanService_null : scanService m true len ≠ .ok t := by
  intro hret
  obtain ⟨t₁, ht₁, hret⟩ := exists_of_bind_eq_ok hret
  obtain ⟨t₂, ht₂, _⟩ := exists_of_bind_eq_ok hret
  have hnull : t₁.text = none := Scan.text_of_printSlots (by simp [vzallocText]) ht₁
  simp [Scan.store, hnull] at ht₂

/-! ## Many rooms -/

theorem width_pos (z : Int) : 1 ≤ width z := by
  unfold width numeral
  split
  · simp
  · exact Nat.length_toDigits_pos

/-- The lines of a service take at least 2337 characters. -/
theorem serviceWidth_ge (s : TAGService) : 2337 ≤ serviceWidth s := by
  have hline : ∀ level, 73 ≤ lineWidth s level := fun level => by
    have htag := width_pos s.tag.toInt32.toInt
    have hcreator := width_pos s.uidCreator.toInt
    have hkey := width_pos s.key.toInt
    have hlevel := width_pos level.val
    have hwaiters := width_pos (s.levels.waiters level)
    unfold lineWidth
    generalize width s.tag.toInt32.toInt = a, width s.uidCreator.toInt = b,
      width s.key.toInt = c, width level.val = d, width (s.levels.waiters level) = e at *
    omega
  have hsum := Finset.card_nsmul_le_sum Finset.univ (lineWidth s) 73 fun level _ => hline level
  have hcard : (Finset.univ : Finset (Fin levelDeep)).card = 32 := Finset.card_fin 32
  rw [hcard, smul_eq_mul] at hsum
  exact Nat.succ_le_succ hsum

/-- The text grows with the number of services. -/
theorem statusWidth_ge (hlive : SlotsLive m) :
    (Finset.univ.filter fun i => (m.tagServices i).isSome).card * 2337 ≤ statusWidth m := by
  refine le_trans (Finset.card_nsmul_le_sum _ (fun i => (slotService m i).elim 0 serviceWidth) _
    fun i hi => ?_) (Finset.sum_le_sum_of_subset (Finset.subset_univ _))
  obtain ⟨a, ha⟩ := Option.isSome_iff_exists.mp (Finset.mem_filter.mp hi).2
  obtain ⟨s, hs⟩ := Option.isSome_iff_exists.mp (hlive i a ha)
  simpa [slotService, ha, hs] using serviceWidth_ge s

/-- Calls that make a private room each. -/
def privateRooms (n : Nat) : List (Call × Env) :=
  List.replicate n (.tagGet tagIpcPrivate cmdCreate openRoom, callerEnv 10)

/-- A table of 36 services is reached, and its text is too long. -/
theorem crowded : ∃ ls w, Run serial Inside ls w ∧
    ls.map Done.call = List.replicate 36 (.tagGet tagIpcPrivate cmdCreate openRoom) ∧
    statusSizeMax ≤ statusWidth w.mem := by
  obtain ⟨w, hrun, hrep⟩ := exists_run Inside (w := bootWorld) (.start rfl) emptyMem_rep
    (privateRooms 36) fun x hx => by
      obtain rfl := List.eq_of_mem_replicate hx
      exact ⟨fun _ => rfl, fun _ => id, fun _ _ => id⟩
  have hcount := hrep.shaped.count
  obtain ⟨cells, hat⟩ := hrep
  have hlive : (Registry.empty.answers (privateRooms 36)).2.live = 36 := by decide +kernel
  have hcard : w.mem.serviceCount.toNat = 36 := by exact_mod_cast hat.count.trans hlive
  have hwide := statusWidth_ge (reached_slotsLive hrun)
  rw [← hcount, hcard] at hwide
  exact ⟨_, w, hrun, rfl, le_trans (by decide) hwide⟩

/-- One room. -/
theorem oneRoom : ∃ ls w, Run serial Inside ls w ∧ ls.map Done.answer = [.ofRet 0] ∧
    w.mem.tagServices ⟨0, by decide⟩ = some 0 ∧ statusWidth w.mem + 1 < statusSizeMax := by
  have hcall : ∃ answer w', (Call.tagGet 5 cmdCreate openRoom).exec (callerEnv 10) bootWorld =
      .ok (answer, w') ∧ answer = .ofRet 0 ∧ w'.mem.tagServices ⟨0, by decide⟩ = some 0 ∧
        statusWidth w'.mem + 1 < statusSizeMax := by
    refine exists_ok_of_wp (E := fun _ => False) ?_ fun _ => id
    decide +kernel
  obtain ⟨answer, w', hret, rfl, hslot, hwidth⟩ := hcall
  have hrun : Run serial Inside
      ([] ++ [⟨.tagGet 5 cmdCreate openRoom, callerEnv 10, .ofRet 0⟩]) w' :=
    Run.step (s := bootWorld) (.start rfl) id (Or.inl hret)
  exact ⟨_, w', hrun, rfl, hslot, hwidth⟩

/-- A room with short numbers and one with long ones. -/
def unevenRooms : List (Call × Env) :=
  [(.tagGet 5 cmdCreate openRoom, callerEnv 10),
    (.tagGet 123456 cmdCreate privateRoom, callerEnv 1234)]

/-- Both are made, their lines differ in width, and the text fits. -/
theorem unevenRooms_run : ∃ ls w, Run serial Inside ls w ∧
    ls.map (fun d => (d.call, d.env)) = unevenRooms ∧
    ls.map Done.answer = [.ofRet 0, .ofRet 1] ∧
    (slotService w.mem 0).map serviceWidth = some 2391 ∧
    (slotService w.mem 1).map serviceWidth = some 2615 ∧
    statusWidth w.mem + 1 < statusSizeMax := by
  have hcalls : ∃ answer w₁, (Call.tagGet 5 cmdCreate openRoom).exec (callerEnv 10) bootWorld =
      .ok (answer, w₁) ∧ answer = .ofRet 0 ∧
        wp (Call.tagGet 123456 cmdCreate privateRoom).exec (callerEnv 1234) w₁ (fun answer w =>
          answer = .ofRet 1 ∧ (slotService w.mem 0).map serviceWidth = some 2391 ∧
          (slotService w.mem 1).map serviceWidth = some 2615 ∧
          statusWidth w.mem + 1 < statusSizeMax) fun _ => False := by
    refine exists_ok_of_wp (E := fun _ => False) ?_ fun _ => id
    decide +kernel
  obtain ⟨_, w₁, hfirst, rfl, hcalls⟩ := hcalls
  obtain ⟨_, w, hsecond, rfl, hshort, hlong, hwidth⟩ := exists_ok_of_wp hcalls fun _ => id
  have hrun : Run serial Inside
      ([] ++ [⟨.tagGet 5 cmdCreate openRoom, callerEnv 10, .ofRet 0⟩]) w₁ :=
    Run.step (s := bootWorld) (.start rfl) id (Or.inl hfirst)
  have hrun' : Run serial Inside
      ([] ++ [⟨.tagGet 5 cmdCreate openRoom, callerEnv 10, .ofRet 0⟩] ++
        [⟨.tagGet 123456 cmdCreate privateRoom, callerEnv 1234, .ofRet 1⟩]) w :=
    hrun.step id (Or.inl hsecond)
  exact ⟨_, w, hrun', rfl, rfl, hshort, hlong, hwidth⟩

/-! ## The results -/

/-- The snapshot is the whole text with one `NUL` behind it. -/
def Complete (m : Mem) (r : Except Fault Scan) : Prop :=
  ∃ t text, r = .ok t ∧ t.text = some text ∧ t.writeLen = (statusText m).length + 1 ∧
    (List.range t.writeLen).map text = statusText m ++ [nul]

/-- The scan stayed inside the bytes it asked for: its stores, the space it gave to each print and
the length it leaves. -/
def InBuffer (r : Except Fault Scan) : Prop :=
  ∃ t, r = .ok t ∧ (∀ o ∈ t.stored, o < t.allocated) ∧ (∀ n ∈ t.printedAt, n ≤ statusSizeMax) ∧
    t.writeLen ≤ t.allocated

theorem complete_iff (hlive : SlotsLive m) :
    Complete m (scanService m false statusSizeMax) ↔ statusWidth m < statusSizeMax := by
  obtain ⟨t, ht, _, htext, hlen, _⟩ := scanService_spec statusSizeMax hlive
    (by decide) (by decide)
  have hmax : 0 < statusSizeMax := by decide
  rw [← statusText_length]
  constructor
  · rintro ⟨t', text, hret, _, hwhole, _⟩
    obtain rfl := Except.ok.inj (ht.symm.trans hret)
    rw [hlen, List.length_take] at hwhole
    omega
  · intro hfits
    rw [List.take_of_length_le (by omega)] at htext hlen
    refine ⟨t, _, ht, htext, hlen, ?_⟩
    rw [hlen]
    exact map_textOf

theorem inBuffer_iff (hlive : SlotsLive m) :
    InBuffer (scanService m false statusSizeMax) ↔ statusWidth m + 1 < statusSizeMax := by
  obtain ⟨t, ht, hsize, _, hlen, hstored, hlast, hprinted⟩ :=
    scanService_spec statusSizeMax hlive (by decide) (by decide)
  have hmax : 0 < statusSizeMax := by decide
  rw [← statusText_length]
  rw [List.length_take] at hlen
  constructor
  · rintro ⟨t', hret, _, _, hle⟩
    obtain rfl := Except.ok.inj (ht.symm.trans hret)
    omega
  · intro hfits
    refine ⟨t, ht, fun o ho => ?_, fun n hn => (hprinted n hn).le, by omega⟩
    have := hstored o ho
    omega

/-- **The snapshot is complete exactly when it fits.** -/
theorem snapshot_complete (vzallocFails : Bool) (hlive : SlotsLive m) :
    Complete m (scanService m vzallocFails statusSizeMax) ↔
      vzallocFails = false ∧ statusWidth m < statusSizeMax := by
  cases vzallocFails with
  | false => simp [complete_iff hlive]
  | true =>
      refine iff_of_false ?_ (by simp)
      rintro ⟨t, _, hret, _⟩
      exact scanService_null hret

theorem snapshot_complete_unevenRooms : ∃ ls w, Run serial Inside ls w ∧
    ls.map (fun d => (d.call, d.env)) = unevenRooms ∧
    ls.map Done.answer = [.ofRet 0, .ofRet 1] ∧
    (slotService w.mem 0).map serviceWidth = some 2391 ∧
    (slotService w.mem 1).map serviceWidth = some 2615 ∧
    Complete w.mem (scanService w.mem false statusSizeMax) := by
  obtain ⟨ls, w, hrun, hcalls, hanswers, hshort, hlong, hwidth⟩ := unevenRooms_run
  have hlive : SlotsLive w.mem := reached_slotsLive hrun
  exact ⟨ls, w, hrun, hcalls, hanswers, hshort, hlong,
    (snapshot_complete false hlive).mpr ⟨rfl, Nat.lt_of_succ_lt hwidth⟩⟩

/-- Thirty-six services are too many. -/
theorem snapshot_cut : ∃ ls w, Run serial Inside ls w ∧
    ls.map Done.call = List.replicate 36 (.tagGet tagIpcPrivate cmdCreate openRoom) ∧
    ¬ Complete w.mem (scanService w.mem false statusSizeMax) := by
  obtain ⟨ls, w, hrun, hcalls, hwide⟩ := crowded
  exact ⟨ls, w, hrun, hcalls, mt (complete_iff (reached_slotsLive hrun)).mp (not_lt.mpr hwide)⟩

/-- **The scan stays inside its buffer exactly when one character is to spare.** -/
theorem snapshot_in_buffer (vzallocFails : Bool) (hlive : SlotsLive m) :
    InBuffer (scanService m vzallocFails statusSizeMax) ↔
      vzallocFails = false ∧ statusWidth m + 1 < statusSizeMax := by
  cases vzallocFails with
  | false => simp [inBuffer_iff hlive]
  | true =>
      refine iff_of_false ?_ (by simp)
      rintro ⟨t, hret, _⟩
      exact scanService_null hret

theorem snapshot_in_buffer_unevenRooms : ∃ ls w, Run serial Inside ls w ∧
    ls.map (fun d => (d.call, d.env)) = unevenRooms ∧
    ls.map Done.answer = [.ofRet 0, .ofRet 1] ∧
    (slotService w.mem 0).map serviceWidth = some 2391 ∧
    (slotService w.mem 1).map serviceWidth = some 2615 ∧
    InBuffer (scanService w.mem false statusSizeMax) := by
  obtain ⟨ls, w, hrun, hcalls, hanswers, hshort, hlong, hwidth⟩ := unevenRooms_run
  have hlive : SlotsLive w.mem := reached_slotsLive hrun
  exact ⟨ls, w, hrun, hcalls, hanswers, hshort, hlong,
    (snapshot_in_buffer false hlive).mpr ⟨rfl, hwidth⟩⟩

/-- With thirty-six the last store is behind the buffer. -/
theorem snapshot_overruns : ∃ ls w t, Run serial Inside ls w ∧
    ls.map Done.call = List.replicate 36 (.tagGet tagIpcPrivate cmdCreate openRoom) ∧
    scanService w.mem false statusSizeMax = .ok t ∧ t.allocated ∈ t.stored ∧
    ¬ InBuffer (scanService w.mem false statusSizeMax) := by
  obtain ⟨ls, w, hrun, hcalls, hwide⟩ := crowded
  have hlive := reached_slotsLive hrun
  obtain ⟨t, ht, hsize, _, hlen, _, hlast, _⟩ :=
    scanService_spec statusSizeMax hlive (by decide) (by decide)
  refine ⟨ls, w, t, hrun, hcalls, ht, ?_, mt (inBuffer_iff hlive).mp (by omega)⟩
  rw [List.length_take, statusText_length] at hlen
  have hend : t.writeLen - 1 = t.allocated := by omega
  exact hend ▸ hlast

end TagMessaging.Device
