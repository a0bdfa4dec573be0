/-
# TagMessaging.Serial.Leaks -- what is allocated and what the table leads to

The blocks that are allocated are the domains of the maps of memory; what the table leads to is
found by following pointers from its slots. The calls leave the two equal as long as none of them
takes a path on which the source drops a pointer without freeing it: a message that is not copied
whole, has no service to go to or finds no element to replace, a message that another one replaces,
and every `REMOVE`. `unmountRCU` frees the table and nothing else.
-/
import TagMessaging.Serial.Levels

namespace TagMessaging.Serial

open TagMessaging.Lib.Effect TagMessaging.Lib.Segment TagMessaging.Lib.Transition
open TagMessaging.Lib.FirstMatch TagMessaging.Model

/-! ## The module with its table -/

/-- What a call or `initService` allocates. -/
inductive Block where
  | table
  | service (l : Addr)
  | element (a : Addr)
  | buffer (b : Addr)
  deriving DecidableEq, Repr

/-- The module: its memory, and whether `tagServices` points to the table. -/
structure Loaded where
  world : World
  table : Bool

/-- A call, or the unmount. -/
inductive Act where
  | call (d : Done)
  | unmount

/-- `unmountRCU`: `kfree(tagServices); tagServices = NULL;`. -/
def unmountRCU (x : Loaded) : Loaded := { x with table := false }

/-- Calls run one at a time while there is a table, and unmounts. -/
def loaded : System Loaded Act where
  init := fun x => x.world.mem = emptyMem ∧ x.table = true
  step := fun x act x' =>
    match act with
    | .call d => x.table = true ∧ serial.step x.world d x'.world ∧ x'.table = x.table
    | .unmount => x' = unmountRCU x

/-- The block is allocated. -/
def Live (x : Loaded) : Block → Prop
  | .table => x.table = true
  | .service l => (x.world.mem.services l).isSome
  | .element a => (x.world.mem.elements a).isSome
  | .buffer b => (x.world.mem.buffers b).isSome

/-- The element is met on the list of the record in slot `i`. -/
def MetFrom (m : Mem) (i : Fin minSysTagServices) (a : Addr) : Prop :=
  ∃ s, slotService m i = some s ∧ Follows (nextOf m.elements) s.levels.head a

/-- `tagServices` leads to the block. -/
def Reachable (x : Loaded) (block : Block) : Prop :=
  x.table = true ∧
    match block with
    | .table => True
    | .service l => ∃ i, x.world.mem.tagServices i = some l
    | .element a => ∃ i, MetFrom x.world.mem i a
    | .buffer b => ∃ i a e, MetFrom x.world.mem i a ∧ x.world.mem.elements a = some e ∧
        e.message = some b

/-- What is allocated is what the table leads to. -/
def NothingLeaked (x : Loaded) : Prop := ∀ block, Live x block ↔ Reachable x block

/-! ## The paths that drop a pointer -/

/-- The element that a message for the level takes the place of. -/
def elementFor (m : Mem) (s : TAGService) (level : Int32) : Option Element :=
  match findLevel m.elements level m.brk s.levels.head with
  | .ok (some a) => m.elements a
  | _ => none

/-- The buffer of a message to the service `s` is put in the list, in the place of none: there is
an element to replace, without a message; or there is no buffer, and no memory for its element. -/
def FindsPlace (m : Mem) (env : Env) (s : TAGService) (level : Int32) (size : Nat) : Prop :=
  if env.kmallocFails (m.brk + 1) then size = 0
  else ∃ e, elementFor m s level = some e ∧ e.message = none

/-- The call drops nothing. -/
def Spares (m : Mem) (env : Env) : Call → Prop
  | .tagSend tag level buffer size =>
      env.moduleLive = true → size ≤ maxMessageSize → buffer.isSome →
        min env.notCopied size = 0 ∧
        (findSlot (fun s => s.tag = tag.toUInt32) m = none → size = 0) ∧
        ∀ i l s, Served env (.tagSend tag level buffer size) m i l s →
          levelTooDeep level = false → FindsPlace m env s level size
  | .tagCtl tag command =>
      env.moduleLive = true → command = cmdRemove →
        ∀ i l s, ¬ Served env (.tagCtl tag command) m i l s
  | _ => True

/-- The steps that drop nothing: calls that spare their allocations and stay inside their arrays,
and an unmount of an empty table. -/
def Tidy (x : Loaded) : Act → Prop
  | .call d => Inside x.world d ∧ Spares x.world.mem d.env d.call
  | .unmount => ∀ i, x.world.mem.tagServices i = none

variable {env : Env} {c : Call} {w w' : World} {m m' : Mem} {P P' : Parts} {ans : Answer}
variable {i j : Fin minSysTagServices} {l a b : Addr} {s : TAGService} {tag level : Int32}
variable {size : Nat} {bytes : List UInt8} {x x' : Loaded} {acts : List Act} {act : Act}

/-! ## Slots and what hangs on them -/

theorem Formed.slot_of_cell (h : Formed m P) (ha : a ∈ P.cells i) :
    ∃ l, m.tagServices i = some l := by
  cases hi : m.tagServices i with
  | none => simp [(h.vacant i hi).1] at ha
  | some l => exact ⟨l, rfl⟩

theorem Formed.slot_of_buf (h : Formed m P) (hb : b ∈ P.bufs i) :
    ∃ l, m.tagServices i = some l := by
  cases hi : m.tagServices i with
  | none => simp [(h.vacant i hi).2] at hb
  | some l => exact ⟨l, rfl⟩

theorem Formed.metFrom_iff (h : Formed m P) : MetFrom m i a ↔ a ∈ P.cells i := by
  constructor
  · rintro ⟨s, hs, hfollows⟩
    obtain ⟨l, hi, hl⟩ := Option.bind_eq_some_iff.mp hs
    obtain ⟨s₁, es, hs₁, hrep, _⟩ := (h.seat i l hi).record
    obtain rfl := Option.some.inj (hl.symm.trans hs₁)
    exact hrep.seg.follows_iff.mp hfollows
  · intro ha
    obtain ⟨l, hi⟩ := h.slot_of_cell ha
    obtain ⟨s, es, hs, hrep, _⟩ := (h.seat i l hi).record
    exact ⟨s, by simp [slotService, hi, hs], hrep.seg.follows_iff.mpr ha⟩

theorem Formed.isSome_cell (h : Formed m P) (ha : a ∈ P.cells i) : (m.elements a).isSome := by
  obtain ⟨l, hi⟩ := h.slot_of_cell ha
  obtain ⟨s, es, _, hrep, _⟩ := (h.seat i l hi).record
  exact hrep.isSome ha

/-- The buffers of a slot are the messages of its elements. -/
theorem Formed.mem_bufs_iff (h : Formed m P) :
    b ∈ P.bufs i ↔ ∃ a e, a ∈ P.cells i ∧ m.elements a = some e ∧ e.message = some b := by
  constructor
  · intro hb
    obtain ⟨l, hi⟩ := h.slot_of_buf hb
    obtain ⟨s, es, _, hrep, _, hbs⟩ := (h.seat i l hi).record
    rw [← hbs, List.mem_filterMap] at hb
    obtain ⟨y, hy, hyb⟩ := hb
    have hentry : some y ∈ (P.cells i).map (entryAt m.elements) := by
      rw [hrep.entries]
      exact List.mem_map_of_mem hy
    obtain ⟨a, ha, hay⟩ := List.mem_map.mp hentry
    obtain ⟨e, he, rfl⟩ := Option.map_eq_some_iff.mp hay
    exact ⟨a, e, ha, he, hyb⟩
  · rintro ⟨a, e, ha, he, hmsg⟩
    obtain ⟨l, hi⟩ := h.slot_of_cell ha
    obtain ⟨s, es, _, hrep, _, hbs⟩ := (h.seat i l hi).record
    have hentry : some e.entry ∈ es.map some := by
      rw [← hrep.entries]
      exact List.mem_map.mpr ⟨a, ha, by simp [entryAt, he]⟩
    rw [← hbs]
    exact List.mem_filterMap.mpr ⟨e.entry, by simpa using hentry, hmsg⟩

/-! ## Every block has an owner -/

/-- Every allocated block belongs to a slot. -/
structure Accounted (m : Mem) (P : Parts) : Prop where
  services : ∀ l, (m.services l).isSome → ∃ i, m.tagServices i = some l
  elements : ∀ a, (m.elements a).isSome → ∃ i, a ∈ P.cells i
  buffers : ∀ b, (m.buffers b).isSome → ∃ i, b ∈ P.bufs i

theorem emptyMem_accounted : Accounted emptyMem ⟨fun _ => [], fun _ => []⟩ :=
  ⟨fun _ h => by simp [emptyMem] at h, fun _ h => by simp [emptyMem] at h,
    fun _ h => by simp [emptyMem] at h⟩

theorem Accounted.congr (h : Accounted m P) (hslots : m'.tagServices = m.tagServices)
    (hservices : m'.services = m.services) (helements : m'.elements = m.elements)
    (hbuffers : m'.buffers = m.buffers) : Accounted m' P := by
  refine ⟨fun l hl => ?_, fun a ha => ?_, fun b hb => ?_⟩
  · rw [hservices] at hl
    rw [hslots]
    exact h.services l hl
  · exact h.elements a (helements ▸ ha)
  · exact h.buffers b (hbuffers ▸ hb)

/-- With every block accounted for, nothing is leaked. -/
theorem Accounted.nothingLeaked (h : Accounted w.mem P) (hf : Formed w.mem P) :
    NothingLeaked ⟨w, true⟩ := by
  intro block
  cases block with
  | table => simp [Live, Reachable]
  | service l =>
    show (w.mem.services l).isSome ↔ _ ∧ ∃ i, w.mem.tagServices i = some l
    refine ⟨fun hl => ⟨rfl, h.services l hl⟩, ?_⟩
    rintro ⟨_, i, hi⟩
    obtain ⟨s, hs, _⟩ := hf.record hi
    simp [hs]
  | element a =>
    show (w.mem.elements a).isSome ↔ _ ∧ ∃ i, MetFrom w.mem i a
    simp only [hf.metFrom_iff]
    refine ⟨fun ha => ⟨trivial, h.elements a ha⟩, ?_⟩
    rintro ⟨_, i, ha⟩
    exact hf.isSome_cell ha
  | buffer b =>
    show (w.mem.buffers b).isSome ↔ _ ∧ ∃ i a e, MetFrom w.mem i a ∧ w.mem.elements a = some e ∧
      e.message = some b
    simp only [hf.metFrom_iff, ← hf.mem_bufs_iff]
    refine ⟨fun hb => ⟨trivial, h.buffers b hb⟩, ?_⟩
    rintro ⟨_, i, hb⟩
    exact hf.stored i b hb

/-! ## A call that drops nothing -/

/-- The list of the service, in the memory before the message was taken over. -/
theorem Sending.listRep {es : List Entry}
    (h : Sending env c m P level size bytes i l s es) (hf : Formed m P) :
    ∃ s', Served env c m i l s' ∧ ListRep m s'.levels.head (P.cells i) es := by
  obtain ⟨s', es', hs', hrep', _⟩ := (hf.seat i l h.served.slot).record
  obtain ⟨head, epoch, _, hrep⟩ := h.seat.list
  have hes : es'.map some = es.map some := by
    rw [← hrep'.entries, ← hrep.entries, takenMem_elements]
  obtain rfl : es' = es := List.map_injective_iff.mpr (Option.some_injective _) hes
  obtain rfl := Option.some.inj (h.served.record.symm.trans hs')
  exact ⟨_, h.served, hrep'⟩

/-- The element that will be replaced is the first one of its level. -/
theorem elementFor_eq (level : Int32) {xs : List Addr} {es : List Entry}
    (hrep : ListRep m s.levels.head xs es) (hf : FreshAbove m) :
    (elementFor m s level).map Element.entry = es.find? (hasLevel level) := by
  obtain ⟨p, hp, hfound⟩ := hrep.findLevel hf level
  unfold elementFor
  rw [hp]
  cases hfirst : es.find? (hasLevel level) with
  | none =>
    simp only [hfirst] at hfound
    subst hfound
    rfl
  | some y =>
    simp only [hfirst] at hfound
    obtain ⟨a, _, rfl, hay⟩ := hfound
    exact hay

/-- What the guard says of a message that has passed all checks. -/
theorem Sending.findsPlace {es : List Entry}
    (h : Sending env c m P level size bytes i l s es) (hspare : Spares m env c) :
    FindsPlace m env s level size := by
  obtain ⟨tag, user, rfl⟩ := h.call
  exact (hspare h.live h.fits rfl).2.2 i l s h.served h.shallow

/-- Without bytes to send there is no buffer. -/
theorem takenMem_zero : takenMem m 0 bytes = withoutBlock m := if_pos rfl

/-- A new buffer is the one of the message. -/
theorem takenMem_isSome (hb : ((takenMem m size bytes).buffers b).isSome) :
    takenPtr m size = some b ∨ (m.buffers b).isSome := by
  unfold takenMem at hb
  unfold takenPtr
  split at hb
  · exact Or.inr hb
  · next hzero =>
    by_cases hbk : b = m.brk
    · exact Or.inl (by rw [if_neg hzero, hbk])
    · exact Or.inr (by simpa [hbk] using hb)

/-- A member of one slot is still one when another slot gets other members. -/
theorem exists_mem_update {f : Fin minSysTagServices → List Addr} {xs : List Addr}
    (h : ∃ j, a ∈ f j) (hi : a ∈ f i → a ∈ xs) : ∃ j, a ∈ Function.update f i xs j := by
  obtain ⟨j, hj⟩ := h
  by_cases hji : j = i
  · subst hji
    exact ⟨j, by simpa using hi hj⟩
  · exact ⟨j, by simpa [hji] using hj⟩

/-- The stored message: its element is on the list, and what it replaced held no buffer. -/
theorem Sending.accounted_stored {epre epost : List Entry} {y : Entry} {xs' : List Addr}
    (h : Sending env c m P level size bytes i l s (epre ++ y :: epost)) (hf : Formed m P)
    (hacc : Accounted m P) (hspare : Spares m env c)
    (hok : env.kmallocFails (takenMem m size bytes).brk = false)
    (hpre : ∀ z ∈ epre, hasLevel level z = false) (hy : hasLevel level y = true)
    (hstep : ListStep (takenMem m size bytes) m' l (P.cells i) xs')
    (htight : Tight (takenMem m size bytes) m' (P.cells i) xs') :
    Accounted m'
      (P.set i xs' ((epre ++ ⟨level, takenPtr m size, size⟩ :: epost).filterMap Entry.message)) := by
  have hslots : m'.tagServices = m.tagServices := by rw [hstep.slots, takenMem_tagServices]
  have hnone : y.message = none := by
    have hplace := h.findsPlace hspare
    rw [takenMem_brk] at hok
    rw [FindsPlace, if_neg (by simp [hok])] at hplace
    obtain ⟨e, he, hmsg⟩ := hplace
    obtain ⟨s', hserved, hrep⟩ := h.listRep hf
    obtain rfl := Option.some.inj (h.served.record.symm.trans hserved.record)
    have hfirst := elementFor_eq level hrep hf.fresh
    rw [he, find?_append_of_first hpre hy] at hfirst
    exact (Option.some.inj hfirst) ▸ hmsg
  refine ⟨fun k hk => ?_, fun a ha => ?_, fun b hb => ?_⟩
  · rw [hslots]
    by_cases hkl : k = l
    · exact ⟨i, hkl ▸ h.served.slot⟩
    · rw [hstep.services k hkl, takenMem_services] at hk
      exact hacc.services k hk
  · rcases htight a ha with hnew | ⟨hnot, hold⟩
    · exact ⟨i, by simpa [Parts.set] using hnew⟩
    · rw [takenMem_elements] at hold
      exact exists_mem_update (hacc.elements a hold) fun hmem => absurd hmem hnot
  · rw [hstep.buffers] at hb
    rcases takenMem_isSome hb with hnew | hold
    · refine ⟨i, ?_⟩
      simp [Parts.set, hnew]
    · refine exists_mem_update (hacc.buffers b hold) fun hmem => ?_
      rw [← h.seat.bufs_eq ((hf.taken size bytes).seat i l (by simpa using h.served.slot))] at hmem
      simp only [List.filterMap_append, List.filterMap_cons, hnone, List.mem_append] at hmem ⊢
      rcases hmem with hpre' | hpost
      · exact Or.inl hpre'
      · refine Or.inr ?_
        cases takenPtr m size with
        | none => exact hpost
        | some b' => exact List.mem_cons_of_mem _ hpost

/-- **A call that drops nothing leaves every block accounted for.** -/
theorem Change.accounted (hc : Change env c m P ans m' P') (hf : Formed m P)
    (hacc : Accounted m P) (hspare : Spares m env c) : Accounted m' P' := by
  cases hc with
  | refused _ hsame =>
    exact hacc.congr hsame.slots hsame.services hsame.elements hsame.buffers
  | @unsent tag level user size bytes a hcall hlive hsize hwhy =>
    subst hcall
    obtain ⟨hcopied, hnoService, _⟩ := hspare hlive hsize rfl
    rcases hwhy with hleft | hnone
    · exact absurd hcopied hleft
    · obtain rfl := hnoService hnone
      rw [takenMem_zero]
      exact hacc.congr rfl rfl rfl rfl
  | @unstored level size bytes i l s es a m' hsend hrep _ =>
    have hplace := hsend.findsPlace hspare
    cases hrep with
    | noMemory hfail =>
      rw [takenMem_brk] at hfail
      rw [FindsPlace, if_pos hfail] at hplace
      subst hplace
      rw [takenMem_zero]
      exact hacc.congr rfl rfl rfl rfl
    | absent hok hall =>
      -- with no element of that level there is none to replace
      rw [takenMem_brk] at hok
      rw [FindsPlace, if_neg (by simp [hok])] at hplace
      obtain ⟨e, he, _⟩ := hplace
      obtain ⟨s', hserved, hlist⟩ := hsend.listRep hf
      obtain rfl := Option.some.inj (hsend.served.record.symm.trans hserved.record)
      have hfirst := elementFor_eq level hlist hf.fresh
      rw [he, List.find?_eq_none.mpr fun y hy => by simp [hall y hy]] at hfirst
      cases hfirst
  | @stored level size bytes i l s epre epost y xs' a m' hsend hok hpre hy hstep htight _ =>
    exact hsend.accounted_stored hf hacc hspare hok hpre hy hstep htight
  | opened => exact hacc
  | @touched i l s s' a m' _ hserved ht =>
    obtain rfl := ht.mem
    refine ⟨fun k hk => ?_, hacc.elements, hacc.buffers⟩
    by_cases hkl : k = l
    · exact ⟨i, hkl ▸ hserved.slot⟩
    · exact hacc.services k (by simpa [hkl] using hk)
  | @created key permission i l s xs a m' _ hvacant _ _ _ _ hslots _ _ hgrown =>
    obtain ⟨hcells, hbufs⟩ := hf.vacant i hvacant
    refine ⟨fun k hk => ?_, fun a ha => ?_, fun b hb => ?_⟩
    · rcases hgrown.services k hk with rfl | hold
      · exact ⟨i, by simp [hslots]⟩
      · obtain ⟨j, hj⟩ := hacc.services k hold
        have hji : j ≠ i := by
          rintro rfl
          simp [hvacant] at hj
        exact ⟨j, by simp [hslots, hji, hj]⟩
    · rcases hgrown.elements a ha with hnew | hold
      · exact ⟨i, by simpa [Parts.set] using hnew⟩
      · exact exists_mem_update (hacc.elements a hold) fun hmem => by simp [hcells] at hmem
    · rw [hgrown.buffers] at hb
      exact exists_mem_update (hacc.buffers b hb) fun hmem => by simp [hbufs] at hmem
  | @removed tag i l s a m₁ count hcall hlive hserved _ _ =>
    subst hcall
    exact absurd hserved (hspare hlive rfl i l s)

/-! ## Runs -/

/-- What holds between two acts: with the table there, every block is accounted for; without it
there is none. -/
def Clean (x : Loaded) : Prop :=
  (x.table = true ∧ ∃ P, Formed x.world.mem P ∧ Accounted x.world.mem P) ∨
    x.table = false ∧ ∀ block, ¬ Live x block

/-- A tidy act keeps it so. -/
theorem clean_step (h : Clean x) (hok : Tidy x act) (hstep : loaded.step x act x') :
    Clean x' := by
  cases act with
  | call d =>
    obtain ⟨htable, hcall, hsame⟩ := hstep
    rcases h with ⟨_, P, hf, hacc⟩ | ⟨hno, _⟩
    · obtain ⟨P', hchange⟩ := step_change hf hok.1 hcall
      exact Or.inl ⟨hsame.trans htable, P', hchange.formed hf, hchange.accounted hf hacc hok.2⟩
    · exact absurd (htable.symm.trans hno) (by simp)
  | unmount =>
    obtain rfl : x' = unmountRCU x := hstep
    refine Or.inr ⟨rfl, fun block hlive => ?_⟩
    rcases h with ⟨_, P, hf, hacc⟩ | ⟨_, hdead⟩
    · -- no slot is in use, so no block belongs to one
      have hvacant : ∀ i l, x.world.mem.tagServices i ≠ some l := fun i l hi => by
        simp [hok i] at hi
      cases block with
      | table => simp [Live, unmountRCU] at hlive
      | service l =>
        obtain ⟨i, hi⟩ := hacc.services l hlive
        exact hvacant i l hi
      | element a =>
        obtain ⟨i, ha⟩ := hacc.elements a hlive
        obtain ⟨l, hi⟩ := hf.slot_of_cell ha
        exact hvacant i l hi
      | buffer b =>
        obtain ⟨i, hb⟩ := hacc.buffers b hlive
        obtain ⟨l, hi⟩ := hf.slot_of_buf hb
        exact hvacant i l hi
    · cases block with
      | table => simp [Live, unmountRCU] at hlive
      | service l => exact hdead (.service l) hlive
      | element a => exact hdead (.element a) hlive
      | buffer b => exact hdead (.buffer b) hlive

/-- **Nothing is leaked by tidy acts.** After each of them the blocks that are allocated are those
the table leads to, and after an unmount there are none. -/
theorem nothing_leaked (h : Run loaded Tidy acts x) :
    NothingLeaked x ∧ (x.table = false → ∀ block, ¬ Live x block) := by
  have hclean : Clean x := by
    refine h.invariant (I := Clean) (fun y hy => ?_) fun y act y' hI hok hstep =>
      clean_step hI hok hstep
    obtain ⟨hm, htable⟩ : y.world.mem = emptyMem ∧ y.table = true := hy
    exact Or.inl ⟨htable, _, hm ▸ emptyMem_formed, hm ▸ emptyMem_accounted⟩
  obtain ⟨w, table⟩ := x
  rcases hclean with ⟨htable, P, hf, hacc⟩ | ⟨htable, hdead⟩
  · obtain rfl : table = true := htable
    exact ⟨hacc.nothingLeaked hf, by simp⟩
  · refine ⟨fun block => ⟨fun hlive => absurd hlive (hdead block), fun hreach => ?_⟩,
      fun _ => hdead⟩
    exact absurd (hreach.1.symm.trans htable) (by simp)

/-- After an unmount nothing is allocated exactly when no service was left. -/
theorem unmount_clean_iff (h : NothingLeaked x) (htable : x.table = true) :
    (∀ block, ¬ Live (unmountRCU x) block) ↔ ∀ i, x.world.mem.tagServices i = none := by
  constructor
  · intro hdead i
    cases hi : x.world.mem.tagServices i with
    | none => rfl
    | some l => exact absurd ((h (.service l)).mpr ⟨htable, i, hi⟩) (hdead (.service l))
  · intro hvacant block hlive
    have hempty : ∀ i a, ¬ MetFrom x.world.mem i a := by
      rintro i a ⟨s, hs, _⟩
      simp [slotService, hvacant i] at hs
    cases block with
    | table => simp [Live, unmountRCU] at hlive
    | service l =>
      obtain ⟨_, i, hi⟩ := (h (.service l)).mp hlive
      simp [hvacant i] at hi
    | element a =>
      obtain ⟨_, i, ha⟩ := (h (.element a)).mp hlive
      exact hempty i a ha
    | buffer b =>
      obtain ⟨_, i, a, _, ha, _⟩ := (h (.buffer b)).mp hlive
      exact hempty i a ha

/-! ## A clean run, and a message that is dropped -/

/-- A room made from an empty table is in slot 0, and its level 3 holds no message yet. -/
theorem creation_places : ∃ answer w',
    (Call.tagGet 5 cmdCreate openRoom).exec (callerEnv 10) bootWorld = .ok (answer, w') ∧
      answer = .ofRet 0 ∧ (∀ i : Fin minSysTagServices, w'.mem.tagServices i = none ∨ i.val = 0) ∧
      w'.mem.tagServices ⟨0, by decide⟩ = some 0 ∧
      (findSlot (fun s => s.tag = (0 : Int32).toUInt32) w'.mem).isSome ∧
      (w'.mem.services 0).map (fun s => (elementFor w'.mem s 3).map Element.message) =
        some (some none) := by
  refine exists_ok_of_wp (E := fun _ => False) ?_ fun _ => id
  decide +kernel

/-- A message of four bytes for a tag nobody has. -/
theorem message_without_service : ∃ answer w',
    (Call.tagSend 0 0 (some fun _ => 65) 4).exec (callerEnv 10) bootWorld = .ok (answer, w') ∧
      answer = .ofRet Errno.ENOMSG.neg ∧ w'.mem.buffers 0 = some [65, 65, 65, 65] ∧
      ∀ i : Fin minSysTagServices, w'.mem.tagServices i = none := by
  refine exists_ok_of_wp (E := fun _ => False) ?_ fun _ => id
  decide +kernel

theorem nothing_leaked_firstMessage : ∃ acts x, Run loaded Tidy acts x ∧
    acts = [.call ⟨.tagGet 5 cmdCreate openRoom, callerEnv 10, .ofRet 0⟩,
      .call ⟨.tagSend 0 3 (some fun _ => 65) 2, callerEnv 11, .ofRet 0⟩] ∧
    NothingLeaked x := by
  obtain ⟨answer, w₁, hexec, rfl, hslots, hslot, hfound, hplace⟩ := creation_places
  have hrep : Rep w₁.mem (Registry.empty.step (callerEnv 10) (.tagGet 5 cmdCreate openRoom)).2 := by
    rcases step_simulates (d := ⟨.tagGet 5 cmdCreate openRoom, callerEnv 10, .ofRet 0⟩)
      (w := bootWorld) emptyMem_rep id (fun _ _ => rfl) (Or.inl hexec) with
      ⟨_, hrep⟩ | ⟨_, _, _, hnot, _⟩
    · exact hrep
    · exact absurd (fun _ => rfl) hnot
  obtain ⟨w₂, hexec₂, _⟩ :=
    exec_returns (.tagSend 0 3 (some fun _ => 65) 2) (callerEnv 11) hrep id fun _ => rfl
  change _ = Except.ok (Answer.ofRet 0, w₂) at hexec₂
  have hstart : Run loaded Tidy [] ⟨bootWorld, true⟩ := .start ⟨rfl, rfl⟩
  have hcreate : Run loaded Tidy
      ([] ++ [.call ⟨.tagGet 5 cmdCreate openRoom, callerEnv 10, .ofRet 0⟩]) ⟨w₁, true⟩ :=
    hstart.step ⟨id, trivial⟩ ⟨rfl, Or.inl hexec, rfl⟩
  have htidy : Tidy ⟨w₁, true⟩
      (.call ⟨.tagSend 0 3 (some fun _ => 65) 2, callerEnv 11, .ofRet 0⟩) := by
    refine ⟨id, fun _ _ _ => ⟨rfl, fun hnone => ?_, fun i l s hserved _ => ?_⟩⟩
    · simp [hnone] at hfound
    · -- the one service there is has an element without a message on level 3
      obtain ⟨hi, hs, _, _⟩ := hserved
      rcases hslots i with hnone | hzero
      · simp [hnone] at hi
      · obtain rfl : i = ⟨0, by decide⟩ := Fin.ext hzero
        obtain rfl := Option.some.inj (hslot.symm.trans hi)
        obtain ⟨s', hs', hmap⟩ := Option.map_eq_some_iff.mp hplace
        obtain rfl := Option.some.inj (hs.symm.trans hs')
        exact Option.map_eq_some_iff.mp hmap
  have hsend : Run loaded Tidy _ ⟨w₂, true⟩ := hcreate.step htidy ⟨rfl, Or.inl hexec₂, rfl⟩
  exact ⟨_, _, hsend, rfl, (nothing_leaked hsend).1⟩

/-- The buffer of a message without a service stays allocated, and nothing leads to it. -/
theorem message_dropped : ∃ acts x, Run loaded Always acts x ∧
    acts = [.call ⟨.tagSend 0 0 (some fun _ => 65) 4, callerEnv 10, .ofRet Errno.ENOMSG.neg⟩] ∧
    ¬ NothingLeaked x := by
  obtain ⟨answer, w', hexec, rfl, hbuf, hslots⟩ := message_without_service
  have hstart : Run loaded Always [] ⟨bootWorld, true⟩ := .start ⟨rfl, rfl⟩
  have hsend : Run loaded Always
      ([] ++ [.call ⟨.tagSend 0 0 (some fun _ => 65) 4, callerEnv 10, .ofRet Errno.ENOMSG.neg⟩])
      ⟨w', true⟩ := hstart.step trivial ⟨rfl, Or.inl hexec, rfl⟩
  refine ⟨_, _, hsend, rfl, fun hclean => ?_⟩
  have hlive : Live ⟨w', true⟩ (.buffer 0) := by simp [Live, hbuf]
  obtain ⟨_, i, a, _, ⟨s, hs, _⟩, _⟩ := (hclean (.buffer 0)).mp hlive
  simp [slotService, hslots i] at hs

end TagMessaging.Serial
