/-
# TagMessaging.Serial.Execution -- the four calls make the changes of the list

One specification for each call over a memory that is `Formed`, whatever allocations fail. A call
stops only for a null pointer, which a failed allocation leads to; an index leaves its array only
when a `tag_receive` strays. By induction every state that the calls reach is formed.
-/
import TagMessaging.Serial.Change

namespace TagMessaging.Serial

open TagMessaging.Lib.Effect TagMessaging.Lib.Transition TagMessaging.Lib.FirstMatch
open TagMessaging.Model

variable {env : Env} {c : Call} {w w' : World} {m m' : Mem} {P P' : Parts} {a : Answer}
variable {i j : Fin minSysTagServices} {l b : Addr} {s : TAGService} {key tag level : Int32}
variable {size : Nat} {bytes : List UInt8} {E : Fault → Prop} {d : Done} {ls : List Done}

theorem Same.refl : Same m m := ⟨rfl, rfl, rfl, rfl, le_refl _⟩

/-! ## Searches and buffers -/

/-- A search of the table meets no freed record. -/
theorem Formed.wp_findService {test : TAGService → Bool} {Q : Ptr → World → Prop}
    (h : Formed m P) (hm : w.mem = m) (hnone : findSlot test m = none → Q none w)
    (hsome : ∀ i l s, findSlot test m = some i → m.tagServices i = some l →
      m.services l = some s → test s = true → Q (some l) w) :
    wp (findService test (List.finRange minSysTagServices)) env w Q E := by
  subst hm
  refine findService_spec (fun i l hi hnone => ?_) ?_
  · obtain ⟨s, hs, _⟩ := h.record hi
    simp [hs] at hnone
  · change Q ((findSlot test w.mem).bind _) w
    cases hfind : findSlot test w.mem with
    | none => exact hnone hfind
    | some i =>
      obtain ⟨l, s, hl, hs, htest⟩ := findSlot_eq_some hfind
      simpa [hl] using hsome i l s hfind hl hs htest

/-- `vzalloc` and `copy_from_user`, to the byte. -/
theorem wp_takeOver {user : Nat → UInt8} {Q : Ptr → Nat → World → Prop}
    (hE : ¬ (size = 0 ∨ env.kmallocFails w.mem.brk = false) → E .nullPointer)
    (hQ : size = 0 ∨ env.kmallocFails w.mem.brk = false → ∀ bytes t,
      Q (takenPtr w.mem size) (min env.notCopied size)
        { w with mem := takenMem w.mem size bytes, trace := t }) :
    wp (vzalloc size) env w (fun buf w₁ =>
      wp (copyFromUser buf user size) env w₁ (Q buf) E) E := by
  simp only [vzalloc, wp_bind, wp_ask, wp_readMem, wp_emit]
  by_cases hzero : size = 0
  · rw [if_pos (Or.inl hzero)]
    simp only [copyFromUser, wp_bind, wp_modifyMem, wp_pure, wp_ask, wp_emit]
    rw [if_pos hzero]
    simpa [takenPtr, takenMem, hzero, withMem, withoutBlock] using
      hQ (Or.inl hzero) [] (w.trace ++ [.maySleep, .maySleep])
  · cases hfail : env.kmallocFails w.mem.brk with
    | true =>
      rw [if_pos (Or.inr rfl)]
      simp only [copyFromUser, wp_bind, wp_modifyMem, wp_pure, wp_ask, wp_emit]
      rw [if_neg hzero]
      exact hE (by simp [hzero, hfail])
    | false =>
      rw [if_neg (by simp [hzero])]
      simp only [copyFromUser, wp_bind, wp_modifyMem, wp_pure, wp_ask, wp_emit]
      simpa [takenPtr, takenMem, hzero, withMem] using
        hQ (Or.inr hfail) ((List.range (size - min env.notCopied size)).map user ++
          List.replicate (min env.notCopied size) 0) (w.trace ++ [.maySleep, .maySleep])

/-- Freeing the buffer of a rejected message undoes its allocation. -/
theorem wp_vfree_taken {Q : Unit → World → Prop} (hf : FreshAbove m)
    (hw : w.mem = takenMem m size bytes) (hQ : ∀ w', Same m w'.mem → Q () w') :
    wp (vfree (takenPtr m size)) env w Q E := by
  unfold takenPtr
  by_cases hzero : size = 0
  · rw [if_pos hzero]
    refine hQ w ?_
    rw [hw, takenMem, if_pos hzero]
    exact ⟨rfl, rfl, rfl, rfl, Nat.le_succ _⟩
  · rw [if_neg hzero]
    refine hQ _ ?_
    show Same m { w.mem with buffers := Function.update w.mem.buffers m.brk none }
    rw [hw, takenMem, if_neg hzero]
    refine ⟨rfl, rfl, rfl, ?_, Nat.le_succ _⟩
    simp [← (hf m.brk (le_refl _)).2.2]

/-! ## `tag_send` -/

theorem findSlot_takenMem (test : TAGService → Bool) :
    findSlot test (takenMem m size bytes) = findSlot test m := by
  simp [findSlot, slotService]

/-- From the list operation on. -/
theorem Sending.finish (h : Formed w.mem P) (hm : w.mem = takenMem m size bytes)
    {es : List Entry} (hsend : Sending env c m P level size bytes i l s es) :
    wp (rcuListReplace l level (takenPtr m size) size) env w (fun res w₁ =>
      wp (if res ≠ 1 then do
            modulePut
            pure Errno.EBADMSG.neg
          else do
            let i ← levelIndex level
            let list ← loadList l
            if list.readerQueue i = 0 then
              modulePut
              pure 0
            else
              wakeUpAll l i
              modulePut
              pure 0) env w₁
        (fun r w' => ∃ P', Change env c m P (.ofRet r) w'.mem P') E) E := by
  obtain ⟨head, epoch, hs, hrep⟩ := hsend.seat.list
  have hat : ListAt w.mem l s (P.cells i) es := hm ▸ hsend.seat.list
  refine wp_imp (rcuListReplace_cases hat hsend.seat.quiet h.fresh) fun r w₁ hr => ?_
  rw [hm] at hr
  generalize hm' : w₁.mem = m' at hr
  have hlost : ∀ {m'}, w₁.mem = m' →
      Replaced (env.kmallocFails (takenMem m size bytes).brk) (takenMem m size bytes) l s
        (P.cells i) es ⟨level, takenPtr m size, size⟩ 0 m' →
      wp (do modulePut; pure Errno.EBADMSG.neg) env w₁
        (fun r w' => ∃ P', Change env c m P (.ofRet r) w'.mem P') E := by
    rintro _ rfl hrep
    exact ⟨P, .unstored hsend hrep (Errno.neg_lt_zero _)⟩
  cases hr with
  | noMemory hfail =>
    rw [if_pos (by simp)]
    exact hlost hm' (.noMemory hfail)
  | absent hok hnone =>
    rw [if_pos (by simp)]
    exact hlost hm' (.absent hok hnone)
  | hit _ xs' epre y epost hok hes hpre hy hstep htight hlist =>
    subst hm'
    subst hes
    -- that the element was found puts the level inside the range
    have hseat := hsend.seat_stored hy hlist
    have hlevel : InLevel level := hseat.inLevel ⟨level, takenPtr m size, size⟩ (by simp)
    have hindex : levelIndex level = pure (indexOf level.toInt hlevel) := dif_pos hlevel
    have hlist' := hlist
    obtain ⟨head', epoch', hs', _⟩ := hlist'
    rw [if_neg (by simp), hindex, wp_bind, wp_pure, wp_bind]
    refine wp_loadList_of hs' ?_
    rw [if_pos (show (relisted s head' epoch').levels.readerQueue _ = 0 from
      hsend.seat.noSleeper _)]
    exact ⟨_, .stored hsend hok hpre hy hstep htight hlist⟩

theorem tagSend_change {buffer : Option (Nat → UInt8)} (h : Formed w.mem P)
    (hE : E .nullPointer) :
    wp (tagSend tag level buffer size) env w (fun r w' =>
      ∃ P', Change env (.tagSend tag level buffer size) w.mem P (.ofRet r) w'.mem P') E := by
  simp only [tagSend, wp_bind, wp_ask, wp_tryModuleGet]
  cases hlive : env.moduleLive with
  | false => exact ⟨P, .refused (Errno.neg_lt_zero _) Same.refl⟩
  | true =>
    rw [if_neg (by simp)]
    by_cases hsize : size > maxMessageSize
    · rw [if_pos hsize]
      exact ⟨P, .refused (Errno.neg_lt_zero _) Same.refl⟩
    · rw [if_neg hsize]
      cases buffer with
      | none => exact ⟨P, .refused (Errno.neg_lt_zero _) Same.refl⟩
      | some user =>
        simp only [wp_bind]
        refine wp_takeOver (fun _ => hE) fun _ bytes t => ?_
        have h₁ : Formed (takenMem w.mem size bytes) P := h.taken size bytes
        by_cases hleft : min env.notCopied size ≠ 0
        · rw [if_pos hleft]
          exact ⟨P, .unsent rfl hlive (not_lt.mp hsize) (Or.inl hleft) (Errno.neg_lt_zero _)⟩
        · rw [if_neg hleft]
          simp only [wp_bind, wp_searchLockIrqsave]
          refine h₁.wp_findService rfl (fun hnone => ?_) fun i l s hfind hi hs htest => ?_
          · rw [findSlot_takenMem] at hnone
            exact ⟨P, .unsent rfl hlive (not_lt.mp hsize) (Or.inr hnone) (Errno.neg_lt_zero _)⟩
          · simp only [wp_bind, wp_searchUnlockIrqrestore]
            refine wp_loadService_of hs ?_
            by_cases hvalid : validServiceOperation env.caller s = true
            · rw [if_neg (by simp [hvalid])]
              by_cases hdeep : levelTooDeep level = true
              · rw [if_pos hdeep, wp_bind]
                refine wp_vfree_taken h.fresh rfl fun w₂ hsame => ?_
                exact ⟨P, .refused (Errno.neg_lt_zero _) hsame⟩
              · rw [if_neg hdeep, wp_bind]
                obtain ⟨s₁, es, hs₁, _, hseat, _⟩ := (h₁.seat i l hi).record
                obtain rfl := Option.some.inj (hs.symm.trans hs₁)
                rw [takenMem_tagServices] at hi
                rw [takenMem_services] at hs
                have htag : s.tag = tag.toUInt32 := of_decide_eq_true htest
                exact Sending.finish h₁ rfl
                  ⟨⟨tag, user, rfl⟩, hlive, not_lt.mp hsize, not_not.mp hleft,
                    ⟨hi, hs, htag, hvalid⟩, by simpa using hdeep, hseat⟩
            · rw [if_pos (by simpa using hvalid), wp_bind]
              refine wp_vfree_taken h.fresh rfl fun w₂ hsame => ?_
              exact ⟨P, .refused (Errno.neg_lt_zero _) hsame⟩

/-! ## `tag_receive` -/

/-- A message is read from its buffer; only a size without a buffer leads to a null pointer. -/
theorem wp_loadMessage_of {e : Element} {bSize : Nat} {Q : List UInt8 → World → Prop}
    (hE : E .nullPointer) (hbuf : ∀ b, e.message = some b → (w.mem.buffers b).isSome)
    (hQ : ∀ bytes, Q bytes w) : wp (loadMessage e.message bSize) env w Q E := by
  unfold loadMessage
  by_cases hzero : bSize = 0
  · rw [if_pos hzero]
    exact hQ []
  · rw [if_neg hzero]
    cases hmsg : e.message with
    | none => exact hE
    | some b =>
      obtain ⟨bytes, hbytes⟩ := Option.isSome_iff_exists.mp (hbuf b hmsg)
      simpa [hbytes] using hQ bytes

/-- `rcu_list_search` gives `NULL` or an element of the list, whose message is one of the slot's. -/
theorem Formed.wp_search (h : Formed m P) (hm : w.mem = m) (hi : m.tagServices i = some l)
    (hs : m.services l = some s) (hlevel : InLevel level) :
    wp (rcuListSearch l level) env w (fun p w' => (∃ s', Touched m w'.mem l s s') ∧
      ∀ a, p = some a → a ∈ P.cells i ∧
        ∃ e, w'.mem.elements a = some e ∧ ∀ b, e.message = some b → b ∈ P.bufs i) E := by
  subst hm
  obtain ⟨s₁, es, hs₁, hrep, hseat, hbs⟩ := (h.seat i l hi).record
  obtain rfl := Option.some.inj (hs.symm.trans hs₁)
  refine wp_imp (rcuListSearch_spec hrep hs hseat.quiet h.fresh hlevel) fun p w' => ?_
  rintro ⟨⟨s', ht⟩, hfound⟩
  refine ⟨⟨s', ht⟩, ?_⟩
  rintro a rfl
  cases hend : env.waitEnd with
  | signal => simp [hend] at hfound
  | woken =>
    simp only [hend] at hfound
    cases hfirst : es.find? (hasLevel level) with
    | none => simp [hfirst] at hfound
    | some x =>
      simp only [hfirst] at hfound
      obtain ⟨b, hb, hab, hx⟩ := hfound
      obtain rfl := Option.some.inj hab
      obtain ⟨e, he, rfl⟩ := Option.map_eq_some_iff.mp hx
      refine ⟨hb, e, by rw [ht.mem]; exact he, fun c hc => ?_⟩
      rw [← hbs]
      exact List.mem_filterMap.mpr ⟨e.entry, List.mem_of_find?_eq_some hfirst, hc⟩

theorem tagReceive_change {bufferNull : Bool} (h : Formed w.mem P) (hE : E .nullPointer)
    (hstray : ¬ Strays w.mem env (.tagReceive tag level bufferNull size)) :
    wp (tagReceive tag level bufferNull size) env w (fun r w' =>
      ∃ P', Change env (.tagReceive tag level bufferNull size) w.mem P ⟨r.1, r.2⟩ w'.mem P') E := by
  simp only [tagReceive, wp_bind, wp_ask, wp_tryModuleGet]
  cases hlive : env.moduleLive with
  | false => exact ⟨P, .refused (Errno.neg_lt_zero _) Same.refl⟩
  | true =>
    rw [if_neg (by simp)]
    by_cases hargs : size > maxMessageSize ∨ bufferNull = true
    · rw [if_pos hargs]
      exact ⟨P, .refused (Errno.neg_lt_zero _) Same.refl⟩
    · rw [if_neg hargs]
      simp only [wp_bind, wp_searchLockIrqsave]
      refine h.wp_findService rfl (fun hnone => ?_) fun i l s hfind hi hs htest => ?_
      · exact ⟨P, .refused (Errno.neg_lt_zero _) Same.refl⟩
      · simp only [wp_bind, wp_searchUnlockIrqrestore]
        refine wp_loadService_of hs ?_
        by_cases hvalid : validServiceOperation env.caller s = true
        · rw [if_neg (by simp [hvalid])]
          by_cases hdeep : levelTooDeep level = true
          · rw [if_pos hdeep]
            exact ⟨P, .refused (Errno.neg_lt_zero _) Same.refl⟩
          · rw [if_neg hdeep]
            simp only [not_or, Bool.not_eq_true] at hargs
            have hdeep' : ¬ level.toInt ≥ levelDeep := mt levelTooDeep_iff.mpr hdeep
            have hneg : ¬ level.toInt < 0 := fun hneg => hstray ⟨hlive, Nat.le_of_not_gt hargs.1,
              hargs.2, hneg, i, s, hfind, by simp [slotService, hi, hs], hvalid⟩
            have hlevel : InLevel level := ⟨not_lt.mp hneg, not_le.mp hdeep'⟩
            have htag : s.tag = tag.toUInt32 := of_decide_eq_true htest
            have hserved : Served env (.tagReceive tag level bufferNull size) w.mem i l s :=
              ⟨hi, hs, htag, hvalid⟩
            refine wp_seq (h.wp_search rfl hi hs hlevel) fun p w' => ?_
            rintro ⟨⟨s', ht⟩, hfound⟩
            have hchange : ∀ a, Change env (.tagReceive tag level bufferNull size) w.mem P a
                w'.mem P := fun a => .touched (fun _ _ _ hc => by cases hc) hserved ht
            cases p with
            | none => exact ⟨P, hchange _⟩
            | some a =>
              obtain ⟨_, e, he, hbufs⟩ := hfound a rfl
              simp only [wp_bind, wp_readMem, id, derefElement_some he, wp_lift_ok]
              refine wp_loadMessage_of hE (fun b hb => ?_) fun bs => ⟨P, hchange _⟩
              rw [ht.mem]
              exact h.stored i b (hbufs b hb)
        · rw [if_pos (by simpa using hvalid)]
          exact ⟨P, .refused (Errno.neg_lt_zero _) Same.refl⟩

/-! ## `tag_get` -/

/-- `new_TAG_Service` for a key that is private or not in the table, and what its callers add to
the counter. -/
theorem newTAGService_change {permission : Int32} {i : Fin minSysTagServices}
    (h : Formed w.mem P) (hE : E .nullPointer) (hfree : freeSlot w.mem = some i)
    (hnew : key ≠ tagIpcPrivate → ∀ j, keyAt w.mem j ≠ some key) :
    wp (newTAGService key env.caller.tgid permission) env w (fun p w' =>
      ∃ l s, p = some l ∧ w'.mem.services l = some s ∧ ∀ a, ∃ P',
        Change env (.tagGet key cmdCreate permission) w.mem P a
          { w'.mem with serviceCount := w'.mem.serviceCount + 1 } P') E := by
  rw [wp_newTAGService, hfree]
  refine wp_imp (fillSlot_grown h.fresh fun _ => hE) fun p w' => ?_
  rintro ⟨rfl, xs, es, hext, hslots, _, hxs, hlist, hgrown, ⟨ks, rfl⟩, _⟩
  have hvacant : w.mem.tagServices i = none := by simpa using List.find?_some hfree
  have hlist' := hlist
  obtain ⟨head, epoch, hs, hrep⟩ := hlist'
  refine ⟨w.mem.brk, _, rfl, hs, fun a => ⟨P.set i xs [], ?_⟩⟩
  refine .created rfl hvacant (le_refl _) hnew hs (hext.congr rfl rfl rfl rfl) hslots hxs
    ⟨_, ks.map emptyEntry, ⟨⟨head, epoch, hs, hrep.congr fun _ _ => rfl⟩, rfl, fun _ => le_refl _,
      fun _ => rfl, fun x hx => ?_⟩, ?_⟩ ⟨hgrown.services, hgrown.elements, hgrown.buffers⟩
  · obtain ⟨j, _, rfl⟩ := List.mem_map.mp hx
    have hj : (emptyEntry j).level.toInt = j := eq_ofNat_level_iff.mp rfl
    have hlt := j.isLt
    exact ⟨by omega, by omega⟩
  · simp [emptyEntry]

theorem keyAt_ne_of_findSlot (hnone : findSlot (fun s => s.key = key) m = none) :
    ∀ j, keyAt m j ≠ some key := by
  intro j hj
  obtain ⟨s, hs, rfl⟩ := Option.map_eq_some_iff.mp hj
  simpa using findSlot_eq_none hnone hs

theorem tagGetCreate_change {permission : Int32} (h : Formed w.mem P) (hE : E .nullPointer) :
    wp (tagGetCreate key permission) env w (fun r w' =>
      ∃ P', Change env (.tagGet key cmdCreate permission) w.mem P (.ofRet r) w'.mem P') E := by
  simp only [tagGetCreate, wp_bind, wp_ask, wp_readMem]
  by_cases hfull : w.mem.serviceCount ≥ UInt32.ofNat minSysTagServices
  · rw [if_pos hfull]
    exact ⟨P, .refused (Errno.neg_lt_zero _) Same.refl⟩
  · rw [if_neg hfull]
    -- from `new_TAG_Service` on, a table without a free slot is refused
    have hnone : ∀ {e : Errno} {w₁ : World}, w₁.mem = w.mem → ∃ P', Change env
        (.tagGet key cmdCreate permission) w.mem P (.ofRet e.neg) w₁.mem P' :=
      fun hw => ⟨P, hw ▸ .refused (Errno.neg_lt_zero _) Same.refl⟩
    by_cases hpriv : key = tagIpcPrivate
    · rw [if_pos hpriv]
      simp only [wp_bind, wp_searchLockIrqsave]
      cases hfree : freeSlot w.mem with
      | none =>
        refine wp_newTAGService.mpr ?_
        simp only [hfree]
        exact hnone rfl
      | some i =>
        refine wp_imp (newTAGService_change h hE hfree fun hne => absurd hpriv hne) fun p w' => ?_
        rintro ⟨l, s, rfl, hs, hchange⟩
        simp only [wp_bind, wp_searchUnlockIrqrestore, addServiceCount, wp_modifyMem, wp_modulePut]
        exact wp_loadService_of hs (hchange _)
    · rw [if_neg hpriv]
      simp only [wp_bind, wp_searchLockIrqsave]
      refine h.wp_findService rfl (fun habsent => ?_) fun i l s _ _ _ _ => hnone rfl
      simp only [wp_bind]
      cases hfree : freeSlot w.mem with
      | none =>
        refine wp_newTAGService.mpr ?_
        simp only [hfree]
        exact hnone rfl
      | some i =>
        refine wp_imp (newTAGService_change h hE hfree fun _ => keyAt_ne_of_findSlot habsent)
          fun p w' => ?_
        rintro ⟨l, s, rfl, hs, hchange⟩
        simp only [wp_bind, wp_searchUnlockIrqrestore, addServiceCount, wp_modifyMem, wp_modulePut]
        exact wp_loadService_of hs (hchange _)

theorem tagGetOpen_change {permission : Int32} (h : Formed w.mem P) :
    wp (tagGetOpen key) env w (fun r w' =>
      ∃ P', Change env (.tagGet key cmdOpen permission) w.mem P (.ofRet r) w'.mem P') E := by
  simp only [tagGetOpen, wp_bind, wp_ask]
  by_cases hpriv : key = tagIpcPrivate
  · rw [if_pos hpriv]
    exact ⟨P, .refused (Errno.neg_lt_zero _) Same.refl⟩
  · rw [if_neg hpriv]
    simp only [wp_bind, wp_searchLockIrqsave]
    refine h.wp_findService rfl (fun _ => ?_) fun i l s _ hi hs htest => ?_
    · exact ⟨P, .refused (Errno.neg_lt_zero _) Same.refl⟩
    · simp only [wp_bind, wp_searchUnlockIrqrestore]
      refine wp_loadService_of hs ?_
      by_cases hvalid : validServiceOperation env.caller s = true
      · rw [if_neg (by simp [hvalid])]
        have hkey : key = s.key := (of_decide_eq_true htest).symm
        exact ⟨P, .opened rfl hpriv ⟨hi, hs, ⟨rfl, hkey⟩, hvalid⟩⟩
      · rw [if_pos (by simpa using hvalid)]
        exact ⟨P, .refused (Errno.neg_lt_zero _) Same.refl⟩

theorem tagGet_change {command permission : Int32} (h : Formed w.mem P) (hE : E .nullPointer) :
    wp (tagGet key command permission) env w (fun r w' =>
      ∃ P', Change env (.tagGet key command permission) w.mem P (.ofRet r) w'.mem P') E := by
  have hrefused : ∀ {e : Errno} {w₁ : World}, w₁.mem = w.mem → ∃ P', Change env
      (.tagGet key command permission) w.mem P (.ofRet e.neg) w₁.mem P' :=
    fun hw => ⟨P, hw ▸ .refused (Errno.neg_lt_zero _) Same.refl⟩
  simp only [tagGet, wp_bind, wp_tryModuleGet]
  by_cases hlive : env.moduleLive = true
  · rw [if_neg (by simp [hlive])]
    by_cases hperm : permAmmisible permission ≠ 0
    · rw [if_pos hperm]
      exact hrefused rfl
    · rw [if_neg hperm]
      by_cases hkey : keyAmmissible key ≠ 0
      · rw [if_pos hkey]
        exact hrefused rfl
      · rw [if_neg hkey]
        by_cases hcreate : command = cmdCreate
        · rw [if_pos hcreate]
          subst hcreate
          exact tagGetCreate_change h hE
        · rw [if_neg hcreate]
          by_cases hopen : command = cmdOpen
          · rw [if_pos hopen]
            subst hopen
            exact tagGetOpen_change h
          · rw [if_neg hopen]
            exact hrefused rfl
  · rw [if_pos (by simpa using hlive)]
    exact hrefused rfl

/-! ## `tag_ctl` -/

theorem tagCtlAwakeAll_change {command : Int32} (h : Formed w.mem P) :
    wp (tagCtlAwakeAll tag) env w (fun r w' =>
      ∃ P', Change env (.tagCtl tag command) w.mem P (.ofRet r) w'.mem P') E := by
  simp only [tagCtlAwakeAll, wp_bind, wp_ask, wp_searchLockIrqsave]
  refine h.wp_findService rfl (fun _ => ?_) fun i l s _ hi hs htest => ?_
  · exact ⟨P, .refused (Errno.neg_lt_zero _) Same.refl⟩
  · simp only [wp_bind, wp_searchUnlockIrqrestore]
    refine wp_loadService_of hs ?_
    by_cases hvalid : validServiceOperation env.caller s = true
    · rw [if_neg (by simp [hvalid])]
      obtain ⟨s₁, _, hs₁, _, hseat, _⟩ := (h.seat i l hi).record
      obtain rfl := Option.some.inj (hs.symm.trans hs₁)
      have htag : s.tag = tag.toUInt32 := of_decide_eq_true htest
      refine wp_seq (wakeUpLevels_spec hs hseat.quiet) fun _ w' => ?_
      rintro ⟨s', ht⟩
      exact ⟨P, .touched (fun _ _ _ hc => by cases hc) ⟨hi, hs, htag, hvalid⟩ ht⟩
    · rw [if_pos (by simpa using hvalid)]
      exact ⟨P, .refused (Errno.neg_lt_zero _) Same.refl⟩

theorem tagCtlRemove_change (h : Formed w.mem P) (hE : E .nullPointer)
    (hlive : env.moduleLive = true) :
    wp (tagCtlRemove tag) env w (fun r w' =>
      ∃ P', Change env (.tagCtl tag cmdRemove) w.mem P (.ofRet r) w'.mem P') E := by
  simp only [tagCtlRemove, wp_bind, wp_ask, wp_searchLockIrqsave]
  refine h.wp_findService rfl (fun _ => ?_) fun i l s _ hi hs htest => ?_
  · exact ⟨P, .refused (Errno.neg_lt_zero _) Same.refl⟩
  · simp only [wp_bind]
    refine wp_loadService_of hs ?_
    by_cases hvalid : validServiceOperation env.caller s = true
    · rw [if_neg (by simp [hvalid])]
      by_cases hsleep : hasSleepers s = true
      · rw [if_pos hsleep]
        exact ⟨P, .refused (Errno.neg_lt_zero _) Same.refl⟩
      · rw [if_neg hsleep, wp_bind]
        have htag : s.tag = tag.toUInt32 := of_decide_eq_true htest
        have hserved : Served env (.tagCtl tag cmdRemove) w.mem i l s := ⟨hi, hs, htag, hvalid⟩
        refine wp_kmallocService (fun hok t => ?_) fun _ t => by simpa using hE
        set spare : TAGService := { env.staleService w.mem.brk with key := 0, tag := -1 }
          with hspare
        simp only [wp_bind, wp_storeService]
        refine ⟨fun hnone => by simp [withService] at hnone, fun s₁ hs₁ => ?_⟩
        obtain rfl : env.staleService w.mem.brk = s₁ := by simpa [withService] using hs₁
        refine initLevels_spec (m := w.mem) (s := spare) (by simp [hspare]) ?_ (le_refl _)
          fun w' xs es hext hslots _ _ _ _ => ?_
        · refine (withService_extends h.fresh spare).congr ?_ rfl rfl rfl
          simp [withService, hspare]
        · -- the record is read again after the scratch service was built
          have h' : Formed w'.mem P := h.extends hext hslots
          have hi' : w'.mem.tagServices i = some l := by rw [hslots]; exact hi
          obtain ⟨s', hs', htag'⟩ := h'.record hi'
          have hindex : slotIndex s'.tag = pure i := by
            have hnat : s'.tag.toNat = i := by rw [htag', toNat_ofNat_slot]
            simp only [slotIndex, hnat, i.isLt, dif_pos]
          refine wp_loadService_of hs' ?_
          rw [hindex]
          have hchange : Change env (.tagCtl tag cmdRemove) w.mem P (.ofRet 0)
              { w'.mem with
                tagServices := Function.update w'.mem.tagServices i none
                services := Function.update w'.mem.services l none
                serviceCount := w'.mem.serviceCount + -1 } (P.set i [] []) :=
            .removed rfl hlive hserved hext hslots
          simpa [loadSlot, storeSlot, kfreeService, addServiceCount, hi', withMem] using
            ⟨_, hchange⟩
    · rw [if_pos (by simpa using hvalid)]
      exact ⟨P, .refused (Errno.neg_lt_zero _) Same.refl⟩

theorem tagCtl_change {command : Int32} (h : Formed w.mem P) (hE : E .nullPointer) :
    wp (tagCtl tag command) env w (fun r w' =>
      ∃ P', Change env (.tagCtl tag command) w.mem P (.ofRet r) w'.mem P') E := by
  have hrefused : ∀ {e : Errno} {w₁ : World}, w₁.mem = w.mem → ∃ P', Change env
      (.tagCtl tag command) w.mem P (.ofRet e.neg) w₁.mem P' :=
    fun hw => ⟨P, hw ▸ .refused (Errno.neg_lt_zero _) Same.refl⟩
  simp only [tagCtl, wp_bind, wp_tryModuleGet]
  cases hlive : env.moduleLive with
  | false => exact hrefused rfl
  | true =>
    rw [if_neg (by simp)]
    by_cases hneg : tag < 0
    · rw [if_pos hneg]
      exact hrefused rfl
    · rw [if_neg hneg]
      by_cases hawake : command = cmdAwakeAll
      · rw [if_pos hawake]
        exact tagCtlAwakeAll_change h
      · rw [if_neg hawake]
        by_cases hremove : command = cmdRemove
        · rw [if_pos hremove]
          subst hremove
          exact tagCtlRemove_change h hE hlive
        · rw [if_neg hremove]
          exact hrefused rfl

/-! ## A call, and a sequence of calls -/

/-- Any call that does not stray, on any memory that is formed. -/
theorem routine_change (h : Formed w.mem P) (hstray : ¬ Strays w.mem env c)
    (hE : E .nullPointer) :
    wp c.routine env w (fun a w' => ∃ P', Change env c w.mem P a w'.mem P') E := by
  cases c with
  | tagGet key command permission =>
    refine wp_seq (tagGet_change h hE) fun r w' hr => ?_
    exact hr
  | tagSend tag level buffer size =>
    refine wp_seq (tagSend_change h hE) fun r w' hr => ?_
    exact hr
  | tagReceive tag level bufferNull size =>
    refine wp_seq (tagReceive_change h hE hstray) fun r w' hr => ?_
    exact hr
  | tagCtl tag command =>
    refine wp_seq (tagCtl_change h hE) fun r w' hr => ?_
    exact hr

/-- A call from start to return. -/
theorem exec_change (h : Formed w.mem P) (hstray : ¬ Strays w.mem env c) :
    wp c.exec env w (fun a w' => ∃ P', Change env c w.mem P a w'.mem P')
      (fun x => x = .nullPointer) :=
  routine_change (w := { w with trace := [] }) h hstray rfl

/-- A call that leaves its arrays has a stray level; the others return when they make a step. -/
theorem step_returns (h : Formed w.mem P) (hstray : ¬ Strays w.mem d.env d.call)
    (hstep : serial.step w d w') : d.call.exec d.env w = .ok (d.answer, w') := by
  rcases hstep with hret | ⟨i, hfault⟩
  · exact hret
  · have hwp := exec_change h hstray
    rw [wp, hfault] at hwp
    simp at hwp

/-- A step of the system from a memory that is formed. -/
theorem step_change (h : Formed w.mem P) (hstray : ¬ Strays w.mem d.env d.call)
    (hstep : serial.step w d w') : ∃ P', Change d.env d.call w.mem P d.answer w'.mem P' :=
  wp_of_ok (Q := fun a w' => ∃ P', Change d.env d.call w.mem P a w'.mem P')
    (step_returns h hstray hstep) (exec_change h hstray)

/-- The calls that stay inside their arrays. -/
def Inside (w : World) (d : Done) : Prop := ¬ Strays w.mem d.env d.call

/-- **In every state reached memory is formed.** -/
theorem reached_formed (h : Run serial Inside ls w) : ∃ P, Formed w.mem P := by
  refine h.invariant (I := fun w => ∃ P, Formed w.mem P)
    (fun w hw => ⟨_, hw ▸ emptyMem_formed⟩) fun w d w' hI hok hstep => ?_
  obtain ⟨P, hP⟩ := hI
  obtain ⟨P', hchange⟩ := step_change hP hok hstep
  exact ⟨P', hchange.formed hP⟩

end TagMessaging.Serial
