/-
# TagMessaging.Serial.ListRoutines -- the writers of `rcu-list.c`, one call at a time

What `rcu_list_insert`, `rcu_list_replace` and `rcu_list_remove` do, as equations: the world a call
ends in is determined by the record of its list, the relinking and whether `kmalloc` succeeds. What
the relinkings do to the entries is said once (`ListIn.insertion`, `ListIn.relinkReplace_present`,
`ListIn.relinkRemove_present`); the rules for a quiet list follow from the two.
-/
import TagMessaging.Serial.ListOps

namespace TagMessaging.Serial

open TagMessaging.Lib.Effect TagMessaging.Lib.Segment TagMessaging.Lib.FirstMatch
open TagMessaging.Model

variable {env : Env} {w : World} {l : Addr} {s : TAGService} {key : Int32} {msg : Ptr} {size : Nat}
variable {xs xs' xs'' : List Addr} {es es' : List Entry} {r : Relinked} {m m' m'' : Mem} {a : Addr}
variable {x : Entry} {E : Fault → Prop}

/-! ## What each routine does -/

/-- A total postcondition with one outcome is an equation. -/
theorem eq_ok_of_wp {α : Type} {m : Kernel α} {a : α} {w' : World}
    (h : wp m env w (fun b u => b = a ∧ u = w') fun _ => False) : m env w = .ok (a, w') := by
  obtain ⟨b, u, hret, rfl, rfl⟩ := exists_ok_of_wp h fun _ => id
  exact hret

theorem eq_error_of_wp {α : Type} {m : Kernel α} {x : Fault}
    (h : wp m env w (fun _ _ => False) fun y => y = x) : m env w = .error x := by
  unfold wp at h
  split at h
  · exact h.elim
  · rename_i hret
    rw [hret, h]

/-- The allocation at the head of `rcu_list_insert` and `rcu_list_replace` fails. -/
theorem newElement_fails (hfail : env.kmallocFails w.mem.brk = true) :
    newElement key msg size env w =
      .ok (none, { w with mem := withoutBlock w.mem, trace := w.trace ++ [.maySleep] }) := by
  refine eq_ok_of_wp ?_
  simp [newElement, kmallocElement, hfail, withMem, withoutBlock]

/-- It succeeds. -/
theorem newElement_succeeds (hok : env.kmallocFails w.mem.brk = false) :
    newElement key msg size env w =
      .ok (some w.mem.brk, { w with
        mem := withElement w.mem ⟨key, msg, size⟩, trace := w.trace ++ [.maySleep] }) := by
  refine eq_ok_of_wp ?_
  simp [newElement, kmallocElement, hok, withMem, withElement]

/-- The world after a mutator that took the lock, relinked the list and released the lock. -/
def committed (w : World) (l : Addr) (s : TAGService) (r : Relinked) : World where
  mem := relinkMem w.mem l s r
  irq := w.irq
  flags := w.irq
  trace := w.trace ++ [.listLock l, .listUnlock l]

/-- The world after an element was freed. -/
def freed (b : Addr) (w : World) : World :=
  { w with mem := { w.mem with elements := Function.update w.mem.elements b none } }

theorem rcuListInsert_noMemory (hfail : env.kmallocFails w.mem.brk = true) :
    rcuListInsert l key msg size env w =
      .ok (0, { w with mem := withoutBlock w.mem, trace := w.trace ++ [.maySleep] }) :=
  bind_apply_of_ok (newElement_fails hfail)

/-- The world in which a new element is allocated. -/
def allocated (w : World) (key : Int32) (msg : Ptr) (size : Nat) : World :=
  { w with mem := withElement w.mem ⟨key, msg, size⟩, trace := w.trace ++ [.maySleep] }

theorem rcuListInsert_eq (hs : w.mem.services l = some s)
    (hok : env.kmallocFails w.mem.brk = false)
    (hgrace : s.levels.standing s.levels.epoch ≤ 0) :
    rcuListInsert l key msg size env w =
      .ok (1, committed (allocated w key msg size) l s
        (relinkInsert (withElement w.mem ⟨key, msg, size⟩).elements s.levels.head
          w.mem.brk)) := by
  refine (bind_apply_of_ok (newElement_succeeds hok)).trans (eq_ok_of_wp ?_)
  have hs' : (withElement w.mem ⟨key, msg, size⟩).services l = some s := hs
  simp [storeRelinked, hs', withMem, hgrace, committed, allocated, relinkMem,
    relisted]

theorem rcuListInsert_spins (hs : w.mem.services l = some s)
    (hok : env.kmallocFails w.mem.brk = false)
    (hgrace : 0 < s.levels.standing s.levels.epoch) :
    rcuListInsert l key msg size env w = .error .spin := by
  refine (bind_apply_of_ok (newElement_succeeds hok)).trans (eq_error_of_wp ?_)
  have hs' : (withElement w.mem ⟨key, msg, size⟩).services l = some s := hs
  simp [storeRelinked, hs', withMem, hgrace]

theorem rcuListReplace_noMemory (hfail : env.kmallocFails w.mem.brk = true) :
    rcuListReplace l key msg size env w =
      .ok (0, { w with mem := withoutBlock w.mem, trace := w.trace ++ [.maySleep] }) :=
  bind_apply_of_ok (newElement_fails hfail)

/-- The world an early return of `rcu_list_replace` leaves. -/
def abandoned (w : World) (l : Addr) (key : Int32) (msg : Ptr) (size : Nat) : World where
  mem := withElement w.mem ⟨key, msg, size⟩
  irq := false
  flags := w.irq
  trace := w.trace ++ [.maySleep, .listLock l]

/-- The early returns of `rcu_list_replace`: the lock is taken and stays so. -/
theorem rcuListReplace_early (hs : w.mem.services l = some s)
    (hok : env.kmallocFails w.mem.brk = false)
    (hr : relinkReplace (withElement w.mem ⟨key, msg, size⟩).elements (w.mem.brk + 1)
      s.levels.head key w.mem.brk = .ok none) :
    rcuListReplace l key msg size env w =
      .ok (0, abandoned w l key msg size) := by
  refine (bind_apply_of_ok (newElement_succeeds hok)).trans (eq_ok_of_wp ?_)
  have hs' : (withElement w.mem ⟨key, msg, size⟩).services l = some s := hs
  have hbrk : (withElement w.mem ⟨key, msg, size⟩).brk = w.mem.brk + 1 := rfl
  simp [hs', hbrk, hr, abandoned]

theorem rcuListReplace_eq {b : Addr} (hs : w.mem.services l = some s)
    (hok : env.kmallocFails w.mem.brk = false)
    (hr : relinkReplace (withElement w.mem ⟨key, msg, size⟩).elements (w.mem.brk + 1)
      s.levels.head key w.mem.brk = .ok (some r)) (hb : r.removed = some b)
    (hgrace : s.levels.standing s.levels.epoch ≤ 0) :
    rcuListReplace l key msg size env w =
      .ok (1, freed b (committed (allocated w key msg size) l s r)) := by
  refine (bind_apply_of_ok (newElement_succeeds hok)).trans (eq_ok_of_wp ?_)
  have hs' : (withElement w.mem ⟨key, msg, size⟩).services l = some s := hs
  have hbrk : (withElement w.mem ⟨key, msg, size⟩).brk = w.mem.brk + 1 := rfl
  simp [storeRelinked, hs', hbrk, hr, hb, withMem, hgrace, kfreeElement, freed,
    committed, allocated, relinkMem, relisted]

theorem rcuListReplace_spins (hs : w.mem.services l = some s)
    (hok : env.kmallocFails w.mem.brk = false)
    (hr : relinkReplace (withElement w.mem ⟨key, msg, size⟩).elements (w.mem.brk + 1)
      s.levels.head key w.mem.brk = .ok (some r))
    (hgrace : 0 < s.levels.standing s.levels.epoch) :
    rcuListReplace l key msg size env w = .error .spin := by
  refine (bind_apply_of_ok (newElement_succeeds hok)).trans (eq_error_of_wp ?_)
  have hs' : (withElement w.mem ⟨key, msg, size⟩).services l = some s := hs
  have hbrk : (withElement w.mem ⟨key, msg, size⟩).brk = w.mem.brk + 1 := rfl
  simp [storeRelinked, hs', hbrk, hr, withMem, not_le.mpr hgrace]

/-- Both reader counters are waited for by `rcu_list_remove`. -/
theorem rcuListRemove_eq (env : Env) (hs : w.mem.services l = some s)
    (hr : relinkRemove w.mem.elements w.mem.brk s.levels.head key = .ok r)
    (hgrace : ∀ e, s.levels.standing e ≤ 0) :
    rcuListRemove l key env w =
      match r.removed with
      | some b => .ok (1, freed b (committed w l s r))
      | none => .ok (0, committed w l s r) := by
  have hnext := hgrace (s.levels.epoch + 1)
  have hold := hgrace s.levels.epoch
  cases hb : r.removed with
  | none =>
      refine eq_ok_of_wp ?_
      simp [rcuListRemove, storeRelinked, hs, hr, hb, withMem, hnext, hold, committed, relinkMem,
        relisted]
  | some b =>
      refine eq_ok_of_wp ?_
      simp [rcuListRemove, storeRelinked, hs, hr, hb, withMem, hnext, hold, kfreeElement, freed,
        committed, relinkMem, relisted]

theorem rcuListRemove_spins {e : Fin 2} (env : Env) (hs : w.mem.services l = some s)
    (hr : relinkRemove w.mem.elements w.mem.brk s.levels.head key = .ok r)
    (hgrace : 0 < s.levels.standing e) : rcuListRemove l key env w = .error .spin := by
  refine eq_error_of_wp ?_
  simp [rcuListRemove, storeRelinked, hs, hr, withMem]
  intro hnext hold
  have he : e = s.levels.epoch + 1 ∨ e = s.levels.epoch := by omega
  rcases he with rfl | rfl
  · exact absurd hnext (not_le.mpr hgrace)
  · exact absurd hold (not_le.mpr hgrace)

/-! ## A list and its changes -/

/-- The list in the record `s` at `l` has its elements at `xs`, with the entries `es`. -/
structure ListIn (l : Addr) (m : Mem) (s : TAGService) (xs : List Addr) (es : List Entry) :
    Prop where
  record : m.services l = some s
  list : ListRep m s.levels.head xs es
  fresh : FreshAbove m

theorem ListIn.lt_brk (h : ListIn l m s xs es) (ha : a ∈ xs) : a < m.brk :=
  h.list.lt_brk h.fresh ha

/-- The elements of the list, and a new one, lie below the next name. -/
theorem ListIn.lt_succ (h : ListIn l m s xs es) (hcells : ∀ b ∈ xs', b ∈ xs ∨ b = m.brk) :
    ∀ b ∈ xs', b < m.brk + 1 := by
  intro b hb
  rcases hcells b hb with hin | rfl
  · exact Nat.lt_succ_of_lt (h.lt_brk hin)
  · exact Nat.lt_succ_self _

theorem ListIn.noBlock (h : ListIn l m s xs es) : ListIn l (withoutBlock m) s xs es :=
  ⟨h.record, h.list.congr fun _ _ => rfl, withoutBlock_fresh h.fresh⟩

theorem ListIn.alloc (h : ListIn l m s xs es) (x : Entry) :
    ListIn l (withElement m x) s xs es :=
  ⟨h.record, withElement_rep h.list h.fresh x, withElement_fresh h.fresh x⟩

/-- A relinking is taken over with the next epoch. -/
theorem ListIn.relink (h : ListIn l m s xs es) (hspec : r.Spec m.elements xs')
    (hlt : ∀ b ∈ xs', b < m.brk) (hes : xs'.map (entryAt m.elements) = es'.map some) :
    ListIn l (relinkMem m l s r) (relisted s r.head (s.levels.epoch + 1)) xs' es' where
  record := by simp [relinkMem]
  list := relinkMem_rep hspec hes
  fresh := by
    intro b hge
    obtain ⟨hsv, hel, hbuf⟩ := h.fresh b hge
    have hne : b ≠ l := fun hbl => by
      rw [hbl, h.record] at hsv
      cases hsv
    have hout : b ∉ xs' := fun hb => Nat.not_lt.mpr hge (hlt b hb)
    exact ⟨by simp [relinkMem, hne, hsv], (hspec.frame b hout).trans hel, hbuf⟩

/-- An element outside the list is freed. -/
theorem ListIn.kfree (h : ListIn l m s xs es) (ha : a ∉ xs) :
    ListIn l { m with elements := Function.update m.elements a none } s xs es where
  record := h.record
  list := h.list.congr fun b hb => by
    have hne : b ≠ a := fun hba => ha (hba ▸ hb)
    simp [hne]
  fresh := by
    intro b hge
    obtain ⟨hsv, hel, hbuf⟩ := h.fresh b hge
    refine ⟨hsv, ?_, hbuf⟩
    by_cases hba : b = a <;> simp [hba, hel]

/-! ## The relinkings, on the entries -/

/-- Where the first entry with the key is, and the element that carries it. -/
theorem ListIn.first (h : ListIn l m s xs es) (hkey : ∃ x ∈ es, hasLevel key x) :
    ∃ pre a post epre x epost, xs = pre ++ a :: post ∧ es = epre ++ x :: epost ∧
      (∀ b ∈ pre, ¬ LevelIs m.elements key b) ∧ LevelIs m.elements key a ∧
      (∀ y ∈ epre, hasLevel key y = false) ∧ hasLevel key x = true ∧
      pre.map (entryAt m.elements) = epre.map some ∧
      post.map (entryAt m.elements) = epost.map some := by
  obtain ⟨epre, x, epost, rfl, hpre, hx⟩ := exists_first hkey
  obtain ⟨pre, a, post, rfl, hpreE, haE, hpostE⟩ := h.list.cut
  have ha : LevelIs m.elements key a :=
    levelIs_iff_entryAt.mpr ⟨x, haE, by simpa [hasLevel] using hx⟩
  exact ⟨pre, a, post, epre, x, epost, rfl, rfl, not_levelIs_of_entries hpreE hpre, ha, hpre, hx,
    hpreE, hpostE⟩

theorem ListIn.insertion (h : ListIn l m s xs es) (x : Entry) :
    (relinkInsert (withElement m x).elements s.levels.head m.brk).Spec (withElement m x).elements
        (m.brk :: xs) ∧
      (m.brk :: xs).map (entryAt (withElement m x).elements) = (x :: es).map some := by
  have hnew : m.brk ∉ xs := fun hm => Nat.lt_irrefl _ (h.lt_brk hm)
  have hrep := withElement_rep h.list h.fresh x
  refine ⟨relinkInsert_spec hrep.seg (by simp [withElement]) hnew, ?_⟩
  rw [List.map_cons, List.map_cons, hrep.entries]
  simp [entryAt, withElement, Element.entry]

/-- A list without the key. -/
theorem ListIn.relinkReplace_absent (h : ListIn l m s xs es) {x : Entry}
    (hkey : ∀ y ∈ es, hasLevel x.level y = false) :
    relinkReplace (withElement m x).elements (m.brk + 1) s.levels.head x.level m.brk = .ok none :=
  have h' := h.alloc x
  relinkReplace_of_absent m.brk h'.list.seg (not_levelIs_of_entries h'.list.entries hkey)
    (h'.list.length_le h'.fresh)

/-- In `ys` the address `b` has taken the place that `a` has in `xs`. -/
structure Exchanges (xs ys : List Addr) (a b : Addr) : Prop where
  mem : a ∈ xs
  gone : a ∉ ys
  new : b ∈ ys
  cells : ∀ c ∈ ys, c ∈ xs ∨ c = b
  kept : ∀ c ∈ xs, c ≠ a → c ∈ ys

theorem exchanges_middle {pre post : List Addr} {a b : Addr} (h : (pre ++ a :: post).Nodup)
    (hb : b ∉ pre ++ a :: post) : Exchanges (pre ++ a :: post) (pre ++ b :: post) a b where
  mem := by simp
  gone := by
    have hrest : a ∉ pre ++ post := (List.nodup_cons.mp (List.nodup_middle.mp h)).1
    have hab : a ≠ b := by
      rintro rfl
      exact hb (by simp)
    simpa [hab] using hrest
  new := by simp
  cells := by
    intro c hc
    simp only [List.mem_append, List.mem_cons] at hc ⊢
    tauto
  kept := by
    intro c hc hca
    simp only [List.mem_append, List.mem_cons] at hc ⊢
    tauto

/-- A list with the key: the new element takes the place of the first one with it. -/
theorem ListIn.relinkReplace_present (h : ListIn l m s xs es) {x : Entry}
    (hkey : ∃ y ∈ es, hasLevel x.level y) :
    ∃ r b xs', relinkReplace (withElement m x).elements (m.brk + 1) s.levels.head x.level m.brk =
        .ok (some r) ∧ r.removed = some b ∧ Exchanges xs xs' b m.brk ∧
      r.Spec (withElement m x).elements xs' ∧
      xs'.map (entryAt (withElement m x).elements) =
        (replaceFirst (hasLevel x.level) x es).map some := by
  have hnew : m.brk ∉ xs := fun hm => Nat.lt_irrefl _ (h.lt_brk hm)
  have h' := h.alloc x
  obtain ⟨pre, a, post, epre, y, epost, rfl, rfl, hpre, ha, hepre, hy, hpreE, hpostE⟩ :=
    h'.first hkey
  have hlen : pre.length ≤ m.brk + 1 :=
    (List.prefix_append pre _).length_le.trans (h'.list.length_le h'.fresh)
  obtain ⟨r, hr, hremoved, hspec⟩ := relinkReplace_of_first h'.list.seg hpre ha
    (by simp [withElement]) hnew hlen
  refine ⟨r, a, pre ++ m.brk :: post, hr, hremoved, ?_, hspec, ?_⟩
  · exact exchanges_middle h.list.seg.nodup hnew
  · rw [List.map_append, List.map_cons, hpreE, hpostE, replaceFirst_append hepre hy,
      List.map_append, List.map_cons]
    simp [entryAt, withElement, Element.entry]

theorem ListIn.relinkRemove_absent (h : ListIn l m s xs es)
    (hkey : ∀ y ∈ es, hasLevel key y = false) :
    relinkRemove m.elements m.brk s.levels.head key =
      .ok { elements := m.elements, head := s.levels.head, removed := none } :=
  relinkRemove_of_absent h.list.seg (not_levelIs_of_entries h.list.entries hkey)
    (h.list.length_le h.fresh)

theorem ListIn.relinkRemove_present (h : ListIn l m s xs es) (hkey : ∃ y ∈ es, hasLevel key y) :
    ∃ r b xs', relinkRemove m.elements m.brk s.levels.head key = .ok r ∧ r.removed = some b ∧
      b ∉ xs' ∧ (∀ c ∈ xs', c < m.brk) ∧ r.Spec m.elements xs' ∧
      xs'.map (entryAt m.elements) = (es.eraseP (hasLevel key)).map some := by
  obtain ⟨pre, a, post, epre, y, epost, rfl, rfl, hpre, ha, hepre, hy, hpreE, hpostE⟩ :=
    h.first hkey
  have hlen : pre.length ≤ m.brk :=
    (List.prefix_append pre _).length_le.trans (h.list.length_le h.fresh)
  obtain ⟨r, hr, hremoved, hspec⟩ := relinkRemove_of_first h.list.seg hpre ha hlen
  refine ⟨r, a, pre ++ post, hr, hremoved, ?_, ?_, hspec, ?_⟩
  · exact (List.nodup_cons.mp (List.nodup_middle.mp h.list.seg.nodup)).1
  · intro c hc
    refine h.lt_brk ?_
    rcases List.mem_append.mp hc with hin | hin <;> simp [hin]
  · have herase : (epre ++ y :: epost).eraseP (hasLevel key) = epre ++ epost := by
      rw [List.eraseP_append_right _ fun b hb => by simp [hepre b hb],
        List.eraseP_cons_of_pos hy]
    rw [List.map_append, hpreE, hpostE, herase, List.map_append]

/-! ## The rules for a quiet list -/

/-- The elements in memory are those of the new list and those that were there outside the old
one: none is left behind. -/
def Tight (m m' : Mem) (xs xs' : List Addr) : Prop :=
  ∀ b, (m'.elements b).isSome → b ∈ xs' ∨ b ∉ xs ∧ (m.elements b).isSome

theorem Tight.refl : Tight m m xs xs := fun b hb => (Decidable.em (b ∈ xs)).imp_right (⟨·, hb⟩)

theorem Tight.trans (h : Tight m m' xs xs') (h' : Tight m' m'' xs' xs'') : Tight m m'' xs xs'' := by
  intro b hb
  rcases h' b hb with hmem | ⟨hnot, hb'⟩
  · exact Or.inl hmem
  · exact (h b hb').elim (fun hmem => absurd hmem hnot) Or.inr

/-- A relinked list that has the new element is tight, but for an old element outside it. -/
theorem relink_tight {r : Relinked} (hspec : r.Spec (withElement m x).elements xs')
    (hnew : m.brk ∈ xs') {b : Addr} (hb : (r.elements b).isSome) (hkept : b ∈ xs → b ∈ xs') :
    b ∈ xs' ∨ b ∉ xs ∧ (m.elements b).isSome := by
  by_cases hmem : b ∈ xs'
  · exact Or.inl hmem
  · have hne : b ≠ m.brk := fun hbk => hmem (hbk ▸ hnew)
    have hold : r.elements b = m.elements b := by
      rw [hspec.frame b hmem]
      simp [withElement, hne]
    exact Or.inr ⟨fun hxs => hmem (hkept hxs), hold ▸ hb⟩

/-- The list of a record, and its representation. -/
theorem ListAt.listIn (h : ListAt m l s xs es) (hf : FreshAbove m) :
    ∃ head epoch, ListIn l m (relisted s head epoch) xs es := by
  obtain ⟨head, epoch, hs, hrep⟩ := h
  exact ⟨head, epoch, hs, hrep, hf⟩

/-- `rcu_list_insert` on a quiet list puts the entry in front, if there is memory for it. -/
theorem rcuListInsert_tight (h : ListAt w.mem l s xs es) (hq : Quiet s.levels)
    (hf : FreshAbove w.mem) :
    wp (rcuListInsert l key msg size) env w (fun r w' => ∃ xs',
      ListStep w.mem w'.mem l xs xs' ∧ Tight w.mem w'.mem xs xs' ∧
      if env.kmallocFails w.mem.brk then r = 0 ∧ ListAt w'.mem l s xs' es
      else r = 1 ∧ ListAt w'.mem l s xs' (⟨key, msg, size⟩ :: es)) E := by
  cases hmem : env.kmallocFails w.mem.brk with
  | true =>
      apply wp_of_eq (rcuListInsert_noMemory hmem)
      exact ⟨xs, withoutBlock_step hf, Tight.refl, rfl, withoutBlock_listAt h⟩
  | false =>
      obtain ⟨head, epoch, hin⟩ := h.listIn hf
      obtain ⟨hspec, hentries⟩ := hin.insertion ⟨key, msg, size⟩
      apply wp_of_eq (rcuListInsert_eq hin.record hmem (hq _))
      refine ⟨w.mem.brk :: xs, ?_, ?_, rfl, relinkMem_listAt hspec hentries⟩
      · refine relinkMem_step hf (hf.service_lt hin.record) (fun b => hin.lt_brk) ?_ hspec
        intro b hb
        exact (List.mem_cons.mp hb).symm
      · intro b hb
        exact relink_tight hspec List.mem_cons_self hb (List.mem_cons_of_mem _)

/-- How `rcu_list_replace` leaves the memory `m`: without a new element, with one it did not put in
the list, or with the new one in the place of the first entry with the key. -/
inductive Replaced (fails : Bool) (m : Mem) (l : Addr) (s : TAGService) (xs : List Addr)
    (es : List Entry) (x : Entry) : Int → Mem → Prop
  | noMemory : fails = true → Replaced fails m l s xs es x 0 (withoutBlock m)
  | absent : fails = false → (∀ y ∈ es, hasLevel x.level y = false) →
      Replaced fails m l s xs es x 0 (withElement m x)
  | hit (m' : Mem) (xs' : List Addr) (epre : List Entry) (y : Entry) (epost : List Entry) :
      fails = false → es = epre ++ y :: epost → (∀ z ∈ epre, hasLevel x.level z = false) →
      hasLevel x.level y = true → ListStep m m' l xs xs' → Tight m m' xs xs' →
      ListAt m' l s xs' (epre ++ x :: epost) → Replaced fails m l s xs es x 1 m'

/-- `rcu_list_replace` on a quiet list. -/
theorem rcuListReplace_cases (h : ListAt w.mem l s xs es) (hq : Quiet s.levels)
    (hf : FreshAbove w.mem) :
    wp (rcuListReplace l key msg size) env w (fun r w' =>
      Replaced (env.kmallocFails w.mem.brk) w.mem l s xs es ⟨key, msg, size⟩ r w'.mem) E := by
  cases hmem : env.kmallocFails w.mem.brk with
  | true => exact wp_of_eq (rcuListReplace_noMemory hmem) (.noMemory rfl)
  | false =>
      obtain ⟨head, epoch, hin⟩ := h.listIn hf
      by_cases hkey : ∃ y ∈ es, hasLevel key y
      · obtain ⟨r, a, xs', hr, hremoved, hexchanges, hspec, hentries⟩ :=
          hin.relinkReplace_present (x := ⟨key, msg, size⟩) hkey
        obtain ⟨epre, y, epost, rfl, hpre, hy⟩ := exists_first hkey
        rw [replaceFirst_append hpre hy] at hentries
        apply wp_of_eq (rcuListReplace_eq hin.record hmem hr hremoved (hq _))
        have hstep := relinkMem_step (s := relisted s head epoch) hf (hf.service_lt hin.record)
          (fun b => hin.lt_brk) hexchanges.cells hspec
        refine .hit _ xs' epre y epost rfl rfl hpre hy (hstep.kfree hexchanges.mem) ?_
          ((relinkMem_listAt hspec hentries).kfree hexchanges.gone)
        intro b hb
        have hlive : (Function.update r.elements a none b).isSome := hb
        have hba : b ≠ a := by
          rintro rfl
          simp at hlive
        rw [Function.update_of_ne hba] at hlive
        exact relink_tight hspec hexchanges.new hlive fun hmem => hexchanges.kept b hmem hba
      · have hnone : ∀ y ∈ es, hasLevel key y = false := by simpa using hkey
        have habsent := hin.relinkReplace_absent (x := ⟨key, msg, size⟩) hnone
        exact wp_of_eq (rcuListReplace_early hin.record hmem habsent) (.absent rfl hnone)

/-- `rcu_list_replace` on a quiet list substitutes the first entry with the key. Without memory, or
without the key, the list stays as it is. -/
theorem rcuListReplace_spec (h : ListAt w.mem l s xs es) (hq : Quiet s.levels)
    (hf : FreshAbove w.mem) :
    wp (rcuListReplace l key msg size) env w (fun r w' => ∃ xs',
      ListStep w.mem w'.mem l xs xs' ∧
      if env.kmallocFails w.mem.brk = false ∧ ∃ x ∈ es, hasLevel key x then
        r = 1 ∧ ListAt w'.mem l s xs' (replaceFirst (hasLevel key) ⟨key, msg, size⟩ es)
      else r = 0 ∧ ListAt w'.mem l s xs' es) E := by
  refine wp_imp (rcuListReplace_cases h hq hf) fun r w' hr => ?_
  generalize w'.mem = m' at hr
  cases hr with
  | noMemory hfail =>
    refine ⟨xs, withoutBlock_step hf, ?_⟩
    rw [if_neg (by simp [hfail])]
    exact ⟨rfl, withoutBlock_listAt h⟩
  | absent hok hnone =>
    obtain ⟨head, epoch, hs, hrep⟩ := h
    refine ⟨xs, withElement_step hf _, ?_⟩
    rw [if_neg fun hhit => by
      obtain ⟨_, x, hx, hkey⟩ := hhit
      simp [hnone x hx] at hkey]
    exact ⟨rfl, head, epoch, hs, withElement_rep hrep hf _⟩
  | hit _ xs' epre y epost hok hes hpre hy hstep _ hlist =>
    refine ⟨xs', hstep, ?_⟩
    rw [if_pos ⟨hok, y, by simp [hes], hy⟩, hes, replaceFirst_append hpre hy]
    exact ⟨rfl, hlist⟩

end TagMessaging.Serial
