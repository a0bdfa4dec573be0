/-
# TagMessaging.Serial.Table -- the searches of the table and the creation of a service

What `TAG_Messagin_help.c` does to a memory: the linear searches read off as a search of the slots,
the 32 insertions of a new service, and the first free slot it is put in. Everything a creation
touches besides its slot is fresh, which `Extends` says.
-/
import TagMessaging.Serial.ListRoutines

namespace TagMessaging.Serial

open TagMessaging.Lib.Effect TagMessaging.Lib.Segment TagMessaging.Lib.FirstMatch
open TagMessaging.Model

variable {m m' m'' : Mem} {xs xs' : List Addr} {es : List Entry}
variable {env : Env} {w : World} {l a : Addr} {s : TAGService} {E : Fault → Prop}

/-! ## The searches -/

/-- The record a slot leads to. -/
def slotService (m : Mem) (i : Fin minSysTagServices) : Option TAGService :=
  (m.tagServices i).bind m.services

/-- The first slot whose record passes the test. -/
def findSlot (test : TAGService → Bool) (m : Mem) : Option (Fin minSysTagServices) :=
  (List.finRange minSysTagServices).find? fun i => (slotService m i).any test

theorem findService_spec {test : TAGService → Bool} {Q : Ptr → World → Prop}
    {is : List (Fin minSysTagServices)}
    (hE : ∀ i a, w.mem.tagServices i = some a → w.mem.services a = none → E (.dangling a))
    (hQ : Q ((is.find? fun i => (slotService w.mem i).any test).bind w.mem.tagServices) w) :
    wp (findService test is) env w Q E := by
  induction is with
  | nil => exact hQ
  | cons i is ih =>
      rw [findService, loadSlot, wp_bind, wp_readMem]
      cases hi : w.mem.tagServices i with
      | none => exact ih (by simpa [List.find?_cons, slotService, hi] using hQ)
      | some a =>
          refine wp_bind.mpr (wp_loadService.mpr ⟨hE i a hi, fun s hs => ?_⟩)
          cases htest : test s with
          | true => simpa [List.find?_cons, slotService, hi, hs, htest] using hQ
          | false =>
              simpa [List.find?_cons, slotService, hi, hs, htest] using
                ih (by simpa [List.find?_cons, slotService, hi, hs, htest] using hQ)

/-- A slot that is found leads to a record that passes the test. -/
theorem findSlot_eq_some {test : TAGService → Bool} {i : Fin minSysTagServices}
    (h : findSlot test m = some i) :
    ∃ a s, m.tagServices i = some a ∧ m.services a = some s ∧ test s = true := by
  have hany : (slotService m i).any test = true := by simpa using List.find?_some h
  obtain ⟨s, hs, htest⟩ := (Option.any_eq_true _ _).mp hany
  obtain ⟨a, ha, has⟩ := Option.bind_eq_some_iff.mp hs
  exact ⟨a, s, ha, has, htest⟩

/-- When no slot is found, no record passes the test. -/
theorem findSlot_eq_none {test : TAGService → Bool} (h : findSlot test m = none)
    {i : Fin minSysTagServices} (hs : slotService m i = some s) : test s = false := by
  have hno := List.find?_eq_none.mp h i (List.mem_finRange i)
  simpa [hs] using hno

/-! ## Fresh memory -/

/-- `m'` is `m` on every name that `m` had given out. -/
structure Extends (m m' : Mem) : Prop where
  services : ∀ a, a < m.brk → m'.services a = m.services a
  elements : ∀ a, a < m.brk → m'.elements a = m.elements a
  buffers : ∀ a, a < m.brk → m'.buffers a = m.buffers a
  brk : m.brk ≤ m'.brk
  fresh : FreshAbove m'

theorem Extends.refl (h : FreshAbove m) : Extends m m :=
  ⟨fun _ _ => rfl, fun _ _ => rfl, fun _ _ => rfl, le_refl _, h⟩

theorem Extends.trans (h : Extends m m') (h' : Extends m' m'') : Extends m m'' where
  services := fun a ha => (h'.services a (lt_of_lt_of_le ha h.brk)).trans (h.services a ha)
  elements := fun a ha => (h'.elements a (lt_of_lt_of_le ha h.brk)).trans (h.elements a ha)
  buffers := fun a ha => (h'.buffers a (lt_of_lt_of_le ha h.brk)).trans (h.buffers a ha)
  brk := le_trans h.brk h'.brk
  fresh := h'.fresh

/-- An operation on a fresh list is a change of fresh memory. -/
theorem Extends.listStep (h : Extends m m') (hstep : ListStep m' m'' l xs xs') (hl : m.brk ≤ l)
    (hxs : ∀ b ∈ xs, m.brk ≤ b) : Extends m m'' where
  services := fun a ha =>
    (hstep.services a fun hal => Nat.not_lt.mpr hl (hal ▸ ha)).trans (h.services a ha)
  elements := fun a ha =>
    (hstep.elements a (lt_of_lt_of_le ha h.brk) fun hm => Nat.not_lt.mpr (hxs a hm) ha).trans
      (h.elements a ha)
  buffers := fun a ha => (congrFun hstep.buffers a).trans (h.buffers a ha)
  brk := le_trans h.brk hstep.brk
  fresh := hstep.fresh

/-! ## The 32 levels -/

/-- The entry of a level nobody has sent to. -/
def emptyEntry (j : Fin levelDeep) : Entry :=
  { level := Int32.ofNat j, message := none, size := 0 }

/-- Every allocation of the call succeeds. -/
def AllocOk (env : Env) : Prop := ∀ a, env.kmallocFails a = false

/-- The insertions put the levels in front one after the other; a failed one is skipped. -/
theorem insertLevels_tight {js : List (Fin levelDeep)} (h : ListAt w.mem l s xs es)
    (hq : Quiet s.levels) (hf : FreshAbove w.mem) :
    wp (insertLevels l js) env w (fun _ w' => ∃ xs' es', ListStep w.mem w'.mem l xs xs' ∧
      Tight w.mem w'.mem xs xs' ∧ ListAt w'.mem l s xs' es' ∧
      (∃ ks : List (Fin levelDeep), es' = (ks.map emptyEntry).reverse ++ es) ∧
      (AllocOk env → es' = (js.map emptyEntry).reverse ++ es)) E := by
  induction js generalizing w xs es with
  | nil => exact ⟨xs, es, ListStep.refl hf, Tight.refl, h, ⟨[], rfl⟩, fun _ => rfl⟩
  | cons j js ih =>
      refine wp_seq (rcuListInsert_tight h hq hf) fun r w₁ => ?_
      rintro ⟨xs₁, hstep, htight, hlist⟩
      cases hfail : env.kmallocFails w.mem.brk with
      | true =>
          rw [if_pos hfail] at hlist
          refine wp_imp (ih hlist.2 hstep.fresh) fun _ w' => ?_
          rintro ⟨xs', es', hstep', htight', hlist', hks, _⟩
          refine ⟨xs', es', hstep.trans hstep', htight.trans htight', hlist', hks, fun hok => ?_⟩
          simp [hok w.mem.brk] at hfail
      | false =>
          rw [if_neg (by simp [hfail])] at hlist
          refine wp_imp (ih hlist.2 hstep.fresh) fun _ w' => ?_
          rintro ⟨xs', es', hstep', htight', hlist', ⟨ks, hes⟩, hall⟩
          refine ⟨xs', es', hstep.trans hstep', htight.trans htight', hlist',
            ⟨j :: ks, ?_⟩, fun hok => ?_⟩
          · rw [hes]
            simp [emptyEntry]
          · rw [hall hok]
            simp [emptyEntry]

/-- The record `rcu_list_init` leaves. -/
def initialised (s : TAGService) : TAGService :=
  { s with
    levels :=
      { epoch := 0
        standing := fun _ => 0
        head := none
        readerQueue := fun _ => 0
        ready := fun _ => 0
        waiters := fun _ => 0 } }

/-- What a new service in the record `l` adds to what is allocated: the record and the elements of
its list. -/
structure Grown (m m' : Mem) (l : Addr) (xs : List Addr) : Prop where
  services : ∀ b, (m'.services b).isSome → b = l ∨ (m.services b).isSome
  elements : ∀ b, (m'.elements b).isSome → b ∈ xs ∨ (m.elements b).isSome
  buffers : m'.buffers = m.buffers

/-- `rcu_list_init` and the insertions, on a record in fresh memory. -/
theorem initLevels_grown {Q : Unit → World → Prop} (hs : w.mem.services l = some s)
    (hext : Extends m w.mem) (hl : m.brk ≤ l)
    (hQ : ∀ w' xs es, Extends m w'.mem → w'.mem.tagServices = w.mem.tagServices →
      w'.mem.serviceCount = w.mem.serviceCount → (∀ b ∈ xs, m.brk ≤ b) →
      ListAt w'.mem l (initialised s) xs es → Grown w.mem w'.mem l xs →
      (∃ ks : List (Fin levelDeep), es = ks.map emptyEntry) →
      (AllocOk env → es = (List.finRange levelDeep).reverse.map emptyEntry) → Q () w') :
    wp (rcuListInit l) env w (fun _ w₁ =>
      wp (insertLevels l (List.finRange levelDeep)) env w₁ Q E) E := by
  have hf := hext.fresh
  simp only [rcuListInit, wp_storeList]
  refine ⟨fun hnone => absurd (hs.symm.trans hnone) (by simp), fun s₁ hs₁ => ?_⟩
  obtain rfl := Option.some.inj (hs₁.symm.trans hs)
  set w₁ := withMem w { w.mem with services := Function.update w.mem.services l _ } with hw₁
  have hlt : l < w.mem.brk := hf.service_lt hs
  have hf₁ : FreshAbove w₁.mem := fun b hb => by
    have hne : b ≠ l := fun hbl => Nat.not_lt.mpr hb (hbl ▸ hlt)
    have hb' := hf b hb
    simpa [hw₁, hne] using hb'
  have hext₁ : Extends m w₁.mem :=
    { services := fun b hb => by
        have hne : b ≠ l := fun hbl => Nat.not_lt.mpr hl (hbl ▸ hb)
        simpa [hw₁, hne] using hext.services b hb
      elements := hext.elements
      buffers := hext.buffers
      brk := hext.brk
      fresh := hf₁ }
  have hlist : ListAt w₁.mem l (initialised s₁) [] [] :=
    ⟨none, 0, by simp [hw₁, initialised, relisted], rfl, rfl⟩
  refine wp_imp (insertLevels_tight hlist (fun _ => le_refl _) hf₁) fun _ w' => ?_
  rintro ⟨xs, es, hstep, htight, hlist', ⟨ks, hks⟩, hes⟩
  refine hQ w' xs es (hext₁.listStep hstep hl (by simp)) hstep.slots hstep.count ?_ hlist' ?_ ?_ ?_
  · intro b hb
    rcases hstep.cells b hb with h | h
    · simp at h
    · exact le_trans hext₁.brk h
  · refine ⟨fun b hb => ?_, fun b hb => (htight b hb).imp_right And.right, hstep.buffers⟩
    by_cases hbl : b = l
    · exact Or.inl hbl
    · refine Or.inr ?_
      rw [hstep.services b hbl] at hb
      simpa [hw₁, hbl] using hb
  · exact ⟨ks.reverse, by rw [hks]; simp⟩
  · intro hok
    rw [hes hok]
    simp

theorem initLevels_spec {Q : Unit → World → Prop} (hs : w.mem.services l = some s)
    (hext : Extends m w.mem) (hl : m.brk ≤ l)
    (hQ : ∀ w' xs es, Extends m w'.mem → w'.mem.tagServices = w.mem.tagServices →
      w'.mem.serviceCount = w.mem.serviceCount → (∀ b ∈ xs, m.brk ≤ b) →
      ListAt w'.mem l (initialised s) xs es →
      (AllocOk env → es = (List.finRange levelDeep).reverse.map emptyEntry) → Q () w') :
    wp (rcuListInit l) env w (fun _ w₁ =>
      wp (insertLevels l (List.finRange levelDeep)) env w₁ Q E) E :=
  initLevels_grown hs hext hl fun w' xs es hext' hslots hcount hxs hlist _ _ =>
    hQ w' xs es hext' hslots hcount hxs hlist

/-! ## A fresh record -/

/-- Memory after a record was allocated and filled in. -/
def withService (m : Mem) (s : TAGService) : Mem :=
  { m with brk := m.brk + 1, services := Function.update m.services m.brk (some s) }

theorem wp_kmallocService {Q : Ptr → World → Prop}
    (hok : env.kmallocFails w.mem.brk = false → ∀ t, Q (some w.mem.brk)
      { w with mem := withService w.mem (env.staleService w.mem.brk), trace := t })
    (hfail : env.kmallocFails w.mem.brk = true →
      ∀ t, Q none { w with mem := withoutBlock w.mem, trace := t }) :
    wp kmallocService env w Q E := by
  simp only [kmallocService, wp_bind, wp_ask, wp_readMem, wp_emit]
  cases h : env.kmallocFails w.mem.brk with
  | true => simpa [withMem, withoutBlock] using hfail h (w.trace ++ [.maySleep])
  | false => simpa [withMem, withService] using hok h (w.trace ++ [.maySleep])

theorem withService_extends (h : FreshAbove m) (s : TAGService) : Extends m (withService m s) where
  services := fun a ha => by simp [withService, Nat.ne_of_lt ha]
  elements := fun _ _ => rfl
  buffers := fun _ _ => rfl
  brk := Nat.le_succ _
  fresh := fun a ha => by
    have hlt : m.brk < a := ha
    simpa [withService, Nat.ne_of_gt hlt] using h a (Nat.le_of_lt hlt)

/-- The rest of a memory does not count. -/
theorem Extends.congr (h : Extends m m') (hs : m''.services = m'.services)
    (he : m''.elements = m'.elements) (hb : m''.buffers = m'.buffers) (hbrk : m''.brk = m'.brk) :
    Extends m m'' where
  services := hs ▸ h.services
  elements := he ▸ h.elements
  buffers := hb ▸ h.buffers
  brk := hbrk ▸ h.brk
  fresh := fun a ha => hs ▸ he ▸ hb ▸ h.fresh a (hbrk ▸ ha)

/-! ## The first free slot -/

/-- `new_TAG_Service` fills the first slot that is `NULL`. -/
theorem newTAGServiceFrom_eq (key uidCreator perm : Int32) (is : List (Fin minSysTagServices)) :
    newTAGServiceFrom key uidCreator perm is env w =
      match is.find? fun i => (w.mem.tagServices i).isNone with
      | none => .ok (none, w)
      | some i => fillSlot i key uidCreator perm env w := by
  induction is with
  | nil => rfl
  | cons i is ih =>
      have hload : loadSlot i env w = .ok (w.mem.tagServices i, w) := rfl
      rw [newTAGServiceFrom, bind_apply_of_ok hload]
      cases hi : w.mem.tagServices i with
      | none => simp [hi]
      | some a => simp [hi, ih]

/-- The first slot that is `NULL`. -/
def freeSlot (m : Mem) : Option (Fin minSysTagServices) :=
  (List.finRange minSysTagServices).find? fun i => (m.tagServices i).isNone

theorem wp_newTAGService {key uidCreator perm : Int32} {Q : Ptr → World → Prop} :
    wp (newTAGService key uidCreator perm) env w Q E ↔
      match freeSlot w.mem with
      | none => Q none w
      | some i => wp (fillSlot i key uidCreator perm) env w Q E := by
  unfold wp
  rw [newTAGService, newTAGServiceFrom_eq, ← freeSlot]
  cases freeSlot w.mem <;> rfl

/-- The record of a new service, before its list is built. -/
def freshService (env : Env) (a : Addr) (i : Fin minSysTagServices) (key uidCreator perm : Int32) :
    TAGService :=
  { env.staleService a with
    key := key, tag := UInt32.ofNat i, uidCreator := uidCreator, perm := perm }

/-- Filling a slot puts a new record there, with its 32 levels empty, all of it fresh. -/
theorem fillSlot_grown {i : Fin minSysTagServices} {key uidCreator perm : Int32}
    (hf : FreshAbove w.mem) (hE : ¬ AllocOk env → E .nullPointer) :
    wp (fillSlot i key uidCreator perm) env w (fun p w' => p = some w.mem.brk ∧
      ∃ xs es, Extends w.mem w'.mem ∧
        w'.mem.tagServices = Function.update w.mem.tagServices i (some w.mem.brk) ∧
        w'.mem.serviceCount = w.mem.serviceCount ∧ (∀ b ∈ xs, w.mem.brk ≤ b) ∧
        ListAt w'.mem w.mem.brk
          (initialised (freshService env w.mem.brk i key uidCreator perm)) xs es ∧
        Grown w.mem w'.mem w.mem.brk xs ∧
        (∃ ks : List (Fin levelDeep), es = ks.map emptyEntry) ∧
        (AllocOk env → es = (List.finRange levelDeep).reverse.map emptyEntry)) E := by
  rw [fillSlot, wp_bind]
  refine wp_kmallocService (fun hok t => ?_) fun hfail t => ?_
  · simp only [storeSlot, wp_bind, wp_modifyMem, wp_storeService]
    refine ⟨fun hnone => by simp [withService] at hnone, fun s hs => ?_⟩
    obtain rfl : env.staleService w.mem.brk = s := by simpa [withService] using hs
    refine initLevels_grown (m := w.mem) (s := freshService env w.mem.brk i key uidCreator perm)
      ?_ ?_ (le_refl _) fun w' xs es hext hslots hcount hxs hlist hgrown hks hes => ?_
    · simp [freshService]
    · refine (withService_extends hf (freshService env w.mem.brk i key uidCreator perm)).congr
        ?_ rfl rfl rfl
      simp [withService, freshService]
    · refine ⟨rfl, xs, es, hext, hslots, hcount, hxs, hlist, ⟨fun b hb => ?_, ?_, ?_⟩, hks, hes⟩
      · by_cases hbl : b = w.mem.brk
        · exact Or.inl hbl
        · rcases hgrown.services b hb with h | h
          · exact Or.inl h
          · exact Or.inr (by simpa [withService, hbl] using h)
      · exact hgrown.elements
      · exact hgrown.buffers
  · have hnot : ¬ AllocOk env := fun hok => by simp [hok w.mem.brk] at hfail
    simpa [storeSlot] using hE hnot

theorem fillSlot_spec {i : Fin minSysTagServices} {key uidCreator perm : Int32}
    (hf : FreshAbove w.mem) (hE : ¬ AllocOk env → E .nullPointer) :
    wp (fillSlot i key uidCreator perm) env w (fun p w' => p = some w.mem.brk ∧
      ∃ xs es, Extends w.mem w'.mem ∧
        w'.mem.tagServices = Function.update w.mem.tagServices i (some w.mem.brk) ∧
        w'.mem.serviceCount = w.mem.serviceCount ∧ (∀ b ∈ xs, w.mem.brk ≤ b) ∧
        ListAt w'.mem w.mem.brk
          (initialised (freshService env w.mem.brk i key uidCreator perm)) xs es ∧
        (AllocOk env → es = (List.finRange levelDeep).reverse.map emptyEntry)) E := by
  refine wp_imp (fillSlot_grown hf hE) fun p w' => ?_
  rintro ⟨hp, xs, es, hext, hslots, hcount, hxs, hlist, _, _, hes⟩
  exact ⟨hp, xs, es, hext, hslots, hcount, hxs, hlist, hes⟩

end TagMessaging.Serial
