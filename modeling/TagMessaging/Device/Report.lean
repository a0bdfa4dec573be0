/-
# TagMessaging.Device.Report -- the device shows the registry

The text of a snapshot is a report of the registry that the table holds: 32 lines for each live
room, with its tag, creator and key. Whoever opens the device after any calls and reads it in any
pieces gets that report (`device_shows_registry`), and the report tells which rooms are live and
what their lines are made of (`report_eq_iff`).
-/
import TagMessaging.Device.Reads
import TagMessaging.Serial.Runs
import TagMessaging.Lib.Numeral

namespace TagMessaging.Device

open TagMessaging.Lib.Effect TagMessaging.Lib.Transition TagMessaging.Lib.Numeral
open TagMessaging.Model TagMessaging.Serial

/-! ## The report -/

/-- The waiters of each level, by tag. -/
abbrev WaiterTable := Fin minSysTagServices → Fin levelDeep → Int

/-- The lines of a room, and an empty one. -/
def roomText (i : Fin minSysTagServices) (room : Room) (waiters : Fin levelDeep → Int) :
    List Char :=
  (List.finRange levelDeep).flatMap (fun level =>
    lineText i room.creator.toInt room.key.toInt level.val (waiters level)) ++ "\n".toList

/-- The report of the rooms at some tags. -/
def reportOf (R : Registry) (W : WaiterTable) (is : List (Fin minSysTagServices)) : List Char :=
  is.flatMap fun i => (R i).elim [] fun room => roomText i room (W i)

/-- The report of a registry. -/
def report (R : Registry) (W : WaiterTable) : List Char :=
  reportOf R W (List.finRange minSysTagServices)

/-- What a report says about a tag. -/
def shown (R : Registry) (W : WaiterTable) (i : Fin minSysTagServices) :
    Option (Int32 × Int32 × (Fin levelDeep → Int)) :=
  (R i).map fun room => (room.creator, room.key, W i)

/-- The waiters that stand in the records. -/
def waitersOf (m : Mem) : WaiterTable := fun i level =>
  (slotService m i).elim 0 fun s => s.levels.waiters level

variable {m : Mem} {R R' : Registry} {W W' : WaiterTable} {w : World} {ls : List Done}
variable {cells : Fin minSysTagServices → List Addr} {i j : Fin minSysTagServices}
variable {is : List (Fin minSysTagServices)} {room room' : Room} {rest rest' : List Char}
variable {dev : ScanModuleStatus} {rs : List FileStep} {f : OpenFile} {xs : List Char}

/-- The text of a memory is the report of the registry it holds. -/
theorem statusText_eq_report (h : RepAt m R cells) : statusText m = report R (waitersOf m) := by
  unfold statusText slotsText report reportOf
  congr 1
  funext i
  have hslot := h.slotService i
  cases hR : R i with
  | none =>
      rw [hR] at hslot
      rw [show slotService m i = none from hslot]
      rfl
  | some room =>
      rw [hR] at hslot
      obtain ⟨s, hs, hd⟩ := hslot
      have hwaiters : waitersOf m i = s.levels.waiters := by
        funext level
        simp [waitersOf, hs]
      have hline : ∀ level, levelLine s level =
          lineText i room.creator.toInt room.key.toInt level.val (s.levels.waiters level) := by
        intro level
        rw [levelLine, hd.tag, hd.uidCreator, hd.key, tag_toInt]
      rw [hs, hwaiters]
      show serviceText s = roomText i room s.levels.waiters
      rw [serviceText, roomText, funext hline]

/-! ## Reading a report -/

/-- Numbers between words that begin with no digit are read in one way. -/
theorem six_append_inj {w0 w1 w2 w3 w4 w5 w6 : List Char} {a b c d e a' b' c' d' e' : Int}
    (h1 : ∀ cs, Ends (w1 ++ cs)) (h2 : ∀ cs, Ends (w2 ++ cs)) (h3 : ∀ cs, Ends (w3 ++ cs))
    (h4 : ∀ cs, Ends (w4 ++ cs)) (h5 : ∀ cs, Ends (w5 ++ cs)) (h6 : ∀ cs, Ends (w6 ++ cs))
    (heq : w0 ++ numeral a ++ w1 ++ numeral b ++ w2 ++ numeral a ++ w3 ++ numeral c ++ w4 ++
        numeral d ++ w5 ++ numeral e ++ w6 ++ rest =
      w0 ++ numeral a' ++ w1 ++ numeral b' ++ w2 ++ numeral a' ++ w3 ++ numeral c' ++ w4 ++
        numeral d' ++ w5 ++ numeral e' ++ w6 ++ rest') :
    a = a' ∧ b = b' ∧ c = c' ∧ d = d' ∧ e = e' ∧ rest = rest' := by
  simp only [List.append_assoc] at heq
  obtain ⟨hq, heq1⟩ := numeral_append_inj (h1 _) (h1 _) (List.append_cancel_left heq)
  obtain ⟨hb, heq2⟩ := numeral_append_inj (h2 _) (h2 _) (List.append_cancel_left heq1)
  obtain ⟨_, heq3⟩ := numeral_append_inj (h3 _) (h3 _) (List.append_cancel_left heq2)
  obtain ⟨hc, heq4⟩ := numeral_append_inj (h4 _) (h4 _) (List.append_cancel_left heq3)
  obtain ⟨hd, heq5⟩ := numeral_append_inj (h5 _) (h5 _) (List.append_cancel_left heq4)
  obtain ⟨he, heq6⟩ := numeral_append_inj (h6 _) (h6 _) (List.append_cancel_left heq5)
  exact ⟨hq, hb, hc, hd, he, List.append_cancel_left heq6⟩

/-- A line in front of a text is read in one way. -/
theorem lineText_append_inj {tag creator key level waiters tag' creator' key' level' waiters' : Int}
    (heq : lineText tag creator key level waiters ++ rest =
      lineText tag' creator' key' level' waiters' ++ rest') :
    tag = tag' ∧ creator = creator' ∧ key = key' ∧ level = level' ∧ waiters = waiters' ∧
      rest = rest' := by
  have hcreator : ∀ cs, Ends (";Tag Creator: ".toList ++ cs) := fun _ => by simp [Ends]
  have hid : ∀ cs, Ends (";TAG ID: ".toList ++ cs) := fun _ => by simp [Ends]
  have hkey : ∀ cs, Ends ("; KEY: ".toList ++ cs) := fun _ => by simp [Ends]
  have hlevel : ∀ cs, Ends ("; Level: ".toList ++ cs) := fun _ => by simp [Ends]
  have hwaiters : ∀ cs, Ends (", Waiters: ".toList ++ cs) := fun _ => by simp [Ends]
  have hline : ∀ cs, Ends ("\n".toList ++ cs) := fun _ => by simp [Ends]
  unfold lineText at heq
  exact six_append_inj hcreator hid hkey hlevel hwaiters hline heq

/-- So are the lines of a sequence of levels. -/
theorem levels_append_inj {creator key creator' key' : Int} {waiters waiters' : Fin levelDeep → Int}
    {levels : List (Fin levelDeep)}
    (heq : levels.flatMap (fun level => lineText i creator key level.val (waiters level)) ++ rest =
      levels.flatMap (fun level => lineText i creator' key' level.val (waiters' level)) ++ rest') :
    (∀ level ∈ levels, creator = creator' ∧ key = key' ∧ waiters level = waiters' level) ∧
      rest = rest' := by
  induction levels with
  | nil => exact ⟨by simp, heq⟩
  | cons level levels ih =>
      simp only [List.flatMap_cons, List.append_assoc] at heq
      obtain ⟨_, hcreator, hkey, _, hwaiters, heq⟩ := lineText_append_inj heq
      obtain ⟨hlevels, hrest⟩ := ih heq
      refine ⟨?_, hrest⟩
      intro k hk
      rcases List.mem_cons.mp hk with rfl | hk
      · exact ⟨hcreator, hkey, hwaiters⟩
      · exact hlevels k hk

theorem roomText_append_inj {waiters waiters' : Fin levelDeep → Int}
    (heq : roomText i room waiters ++ rest = roomText i room' waiters' ++ rest') :
    room.creator = room'.creator ∧ room.key = room'.key ∧ waiters = waiters' ∧ rest = rest' := by
  simp only [roomText, List.append_assoc] at heq
  obtain ⟨hlevels, heq⟩ := levels_append_inj heq
  obtain ⟨hcreator, hkey, _⟩ := hlevels 0 (List.mem_finRange 0)
  refine ⟨Int32.toInt_inj.mp hcreator, Int32.toInt_inj.mp hkey, ?_, List.append_cancel_left heq⟩
  funext level
  exact (hlevels level (List.mem_finRange level)).2.2

/-- The text of a room begins with its tag. -/
theorem roomText_head (i : Fin minSysTagServices) (room : Room) (waiters : Fin levelDeep → Int) :
    ∃ cs, roomText i room waiters =
      lineText i room.creator.toInt room.key.toInt (0 : Fin levelDeep).val (waiters 0) ++ cs := by
  obtain ⟨levels, hlevels⟩ : ∃ levels, List.finRange levelDeep = 0 :: levels :=
    ⟨_, List.finRange_succ⟩
  rw [roomText, hlevels, List.flatMap_cons, List.append_assoc]
  exact ⟨_, rfl⟩

/-- A report is empty, or begins with the lines of one of its tags. -/
theorem reportOf_head (R : Registry) (W : WaiterTable) (is : List (Fin minSysTagServices)) :
    reportOf R W is = [] ∨ ∃ j ∈ is, ∃ creator key level waiters cs,
      reportOf R W is = lineText j creator key level waiters ++ cs := by
  induction is with
  | nil => exact .inl rfl
  | cons i is ih =>
      cases hR : R i with
      | none =>
          have hskip : reportOf R W (i :: is) = reportOf R W is := by simp [reportOf, hR]
          rw [hskip]
          rcases ih with hnil | ⟨j, hj, hrest⟩
          · exact .inl hnil
          · exact .inr ⟨j, List.mem_cons_of_mem i hj, hrest⟩
      | some room =>
          obtain ⟨cs, hcs⟩ := roomText_head i room (W i)
          have hfirst : reportOf R W (i :: is) = roomText i room (W i) ++ reportOf R W is := by
            simp [reportOf, hR]
          rw [hfirst, hcs, List.append_assoc]
          exact .inr ⟨i, List.mem_cons_self, _, _, _, _, _, rfl⟩

/-- The lines of a room are not those of rooms with greater tags. -/
theorem roomText_ne_reportOf {waiters : Fin levelDeep → Int} (h : ∀ j ∈ is, i < j) :
    roomText i room waiters ++ rest ≠ reportOf R W is := by
  intro heq
  obtain ⟨cs, hcs⟩ := roomText_head i room waiters
  rw [hcs, List.append_assoc] at heq
  rcases reportOf_head R W is with hnil | ⟨j, hj, creator, key, level, waiters', ds, hds⟩
  · rw [hnil] at heq
    have hline := (List.append_eq_nil_iff.mp heq).1
    have hlength := congrArg List.length hline
    rw [lineText_length, List.length_nil] at hlength
    omega
  · rw [hds] at heq
    have htag : (i : Int) = (j : Int) := (lineText_append_inj heq).1
    have hlt : i.val < j.val := h j hj
    omega

theorem reportOf_inj (hsorted : is.Pairwise (· < ·)) (heq : reportOf R W is = reportOf R' W' is) :
    ∀ i ∈ is, shown R W i = shown R' W' i := by
  induction is with
  | nil => simp
  | cons i is ih =>
      have hlt : ∀ j ∈ is, i < j := fun j => List.rel_of_pairwise_cons hsorted
      have hcons : ∀ (R : Registry) (W : WaiterTable), reportOf R W (i :: is) =
          (R i).elim [] (fun room => roomText i room (W i)) ++ reportOf R W is := fun _ _ => rfl
      rw [hcons, hcons] at heq
      have hhere : shown R W i = shown R' W' i ∧ reportOf R W is = reportOf R' W' is := by
        cases hR : R i with
        | none =>
            cases hR' : R' i with
            | none =>
                rw [hR, hR'] at heq
                exact ⟨by simp [shown, hR, hR'], heq⟩
            | some room' =>
                rw [hR, hR'] at heq
                exact absurd heq.symm (roomText_ne_reportOf hlt)
        | some room =>
            cases hR' : R' i with
            | none =>
                rw [hR, hR'] at heq
                exact absurd heq (roomText_ne_reportOf hlt)
            | some room' =>
                rw [hR, hR'] at heq
                obtain ⟨hcreator, hkey, hwaiters, hrest⟩ := roomText_append_inj heq
                exact ⟨by simp [shown, hR, hR', hcreator, hkey, hwaiters], hrest⟩
      intro j hj
      rcases List.mem_cons.mp hj with rfl | hj
      · exact hhere.1
      · exact ih hsorted.of_cons hhere.2 j hj

/-- What is shown of a tag determines its lines. -/
theorem elim_eq_of_shown (h : shown R W i = shown R' W' i) :
    (R i).elim [] (fun room => roomText i room (W i)) =
      (R' i).elim [] fun room => roomText i room (W' i) := by
  unfold shown at h
  cases hR : R i with
  | none =>
      rw [hR] at h
      have hR' : R' i = none := Option.map_eq_none_iff.mp h.symm
      rw [hR', Option.elim_none, Option.elim_none]
  | some room =>
      rw [hR] at h
      obtain ⟨room', hR', hsame⟩ := Option.map_eq_some_iff.mp h.symm
      obtain ⟨hcreator, hrest⟩ := Prod.mk.inj hsame
      obtain ⟨hkey, hwaiters⟩ := Prod.mk.inj hrest
      rw [hR', Option.elim_some, Option.elim_some, roomText, roomText, hcreator, hkey, hwaiters]

/-- **A report tells what it shows.** Two reports are the same text exactly when the same tags are
live in them, with the same creators, keys and waiters. -/
theorem report_eq_iff (R R' : Registry) (W W' : WaiterTable) :
    report R W = report R' W' ↔ ∀ i, shown R W i = shown R' W' i := by
  constructor
  · intro heq i
    exact reportOf_inj (List.pairwise_lt_finRange _) heq i (List.mem_finRange i)
  · intro h
    unfold report reportOf
    congr 1
    funext i
    exact elim_eq_of_shown (h i)

/-! ## Reading the device -/

/-- The registry of a run. -/
theorem exists_registry (h : Run serial InArrays ls w) :
    ∃ R, Run registry Always ls R ∧ Rep w.mem R := by
  refine h.simulate (T := registry) (Q := fun w R => Rep w.mem R)
    (fun w hw => ⟨Registry.empty, rfl, hw ▸ emptyMem_rep⟩) ?_
  intro w d w' R hrep hok hstep
  rcases step_simulates hrep hok.2 (fun _ => hok.1) hstep with
    ⟨hans, hrep'⟩ | ⟨_, _, _, hnot, _⟩
  · exact ⟨_, Prod.ext hans.symm rfl, hrep'⟩
  · exact absurd hok.1 hnot

/-- The first bytes of a snapshot that holds a text. -/
theorem firstBytes_textOf (hmessage : dev.message = textOf xs)
    (hsize : dev.size.toInt = (xs.length + 1 : Nat)) (n : Nat) :
    firstBytes dev (min dev.size.toInt.toNat n) = ((xs ++ [nul]).take n).map some := by
  have hnat : dev.size.toInt.toNat = xs.length + 1 := by omega
  rw [hnat, ← map_textOf, ← List.map_take, List.take_range, Nat.min_comm n, firstBytes,
    hmessage, List.map_map]
  rfl

/-- **The device shows the registry.** After any run of calls that leaves a table whose text fits
into the buffer: the rooms are those of the registry asked the same calls, and everyone who opens
the device now and reads it in any pieces, whatever the module does meanwhile, gets the report of
the registry and one `NUL`, as far as was asked for. -/
theorem device_shows_registry (h : Run serial InArrays ls w)
    (hfits : statusWidth w.mem + 1 < statusSizeMax) :
    ∃ R dev, Run registry Always ls R ∧ getModuleStatus w.mem false false = .ok dev ∧
      ∀ rs f, Run (openFile dev) Vfs rs f →
        returned rs = ((report R (waitersOf w.mem) ++ [nul]).take (requested rs)).map some := by
  obtain ⟨R, hrun, cells, hrep⟩ := exists_registry h
  have htext := statusText_eq_report hrep
  have hlive : SlotsLive w.mem := by
    intro i a hi
    obtain ⟨_, s, _, hs, _⟩ := hrep.intact hi
    simp [hs]
  obtain ⟨t, ht, _, hmessage, hlength, _⟩ :=
    scanService_spec statusSizeMax hlive (by decide) (by decide)
  have hmax : statusSizeMax = 81920 := rfl
  rw [← statusText_length, htext] at hfits
  rw [htext, List.take_of_length_le (by omega)] at hmessage hlength
  have hdev : getModuleStatus w.mem false false =
      .ok { message := textOf (report R (waitersOf w.mem)), size := Int64.ofNat t.writeLen } := by
    simp only [getModuleStatus, ht, hmessage, bind, Except.bind]
    rfl
  refine ⟨R, _, hrun, hdev, fun rs f hreads => ?_⟩
  have hsize : (Int64.ofNat t.writeLen).toInt = (report R (waitersOf w.mem)).length + 1 := by
    rw [Int64.toInt_ofNat_of_lt (by omega), hlength]
    rfl
  rw [(follows_of_run (by rw [hsize]; omega) hreads).returned]
  exact firstBytes_textOf rfl hsize _

/-- The status of one room. -/
theorem device_shows_registry_oneRoom : ∃ ls R dev, ∃ w : World,
    ls.map Done.answer = [.ofRet 0] ∧ Run registry Always ls R ∧
      getModuleStatus w.mem false false = .ok dev ∧
      ∀ rs f, Run (openFile dev) Vfs rs f →
        returned rs = ((report R (waitersOf w.mem) ++ [nul]).take (requested rs)).map some := by
  have hcall : ∃ answer w', (Call.tagGet 5 cmdCreate openRoom).exec (callerEnv 10) bootWorld =
      .ok (answer, w') ∧ answer = .ofRet 0 ∧ statusWidth w'.mem + 1 < statusSizeMax := by
    refine exists_ok_of_wp (E := fun _ => False) ?_ fun _ => id
    decide +kernel
  obtain ⟨_, w, hret, rfl, hwidth⟩ := hcall
  have hrun : Run serial InArrays
      ([] ++ [⟨.tagGet 5 cmdCreate openRoom, callerEnv 10, .ofRet 0⟩]) w :=
    Run.step (s := bootWorld) (.start rfl) ⟨fun _ => rfl, id⟩ (Or.inl hret)
  obtain ⟨R, dev, hregistry, hdev, hreads⟩ := device_shows_registry hrun hwidth
  exact ⟨_, R, dev, w, rfl, hregistry, hdev, hreads⟩

end TagMessaging.Device
