/-
# TagMessaging.Wakeup.Elements -- the messages and the elements of a level

Each `list_replace` of a level stores one more message there, in an element of the same number.
`Faithful` says that what is kept beside the threads and in the elements is so in the history: it
holds in every run. `Held` says that the elements in the list, and those that a receive has found
and not read to its end, are allocated: it holds in the runs in which no `kfree` comes before such a
read (`FreedAfterUse`).
-/
import TagMessaging.Wakeup.LostWakeup

namespace TagMessaging.Wakeup

open TagMessaging.Model TagMessaging.Lib.Transition

variable {τ : Type} {s s' : St τ} {t : τ} {p : Pc} {level : Fin levelDeep} {w : Waker}

/-! ## Messages by their position -/

/-- The elements are numbered as their messages are in the history, and the one in the list has the
message stored last. -/
def Current (s : St τ) : Prop :=
  (∀ level, (s.history level).length = s.current level + 1) ∧
    ∀ level j m, s.elements level j = some m → (s.history level)[j]? = some m

/-- A call of `tag_receive` that returned the message `m`. -/
def Receive.Returns (r : Receive) (m : Msg) (ret : Int) (bytes : Msg) : Prop :=
  ret = r.bSize m ∧ bytes = m.take (r.bSize m)

/-- The call began, and was woken by a `tag_send`, when no more than `now` messages were stored. -/
structure Receive.Before (r : Receive) (now : Nat) : Prop where
  began : r.began ≤ now
  sender : ∀ k, r.sender = some k → k < now

/-- What is kept beside a thread is so in the history. -/
def Pc.Recorded (history : Fin levelDeep → List Msg) : Pc → Prop
  | .entered r | .reset r | .queued r | .asleep r | .awakened r | .signalled r | .released r _ =>
      r.Before (history r.level).length
  | .found r _ j => r.Before (j + 1)
  | .copying r _ j bSize out =>
      r.Before (j + 1) ∧
        ∃ m, (history r.level)[j]? = some m ∧ bSize = r.bSize m ∧ out.length ≤ bSize ∧ out <+: m
  | .returned r e ret bytes seen =>
      r.Before seen ∧
        match e with
        | .signal => ret = Errno.EUCLEAN.neg ∧ bytes = []
        | .flag _ => ∃ m, (history r.level)[seen - 1]? = some m ∧ r.Returns m ret bytes
  | .replaced level removed => removed + 1 < (history level).length
  | .stored level k | .noticed level k | .flagged level (.send k) => k < (history level).length
  | _ => True

variable {history history' : Fin levelDeep → List Msg}

theorem Receive.Before.mono {r : Receive} {now now' : Nat} (h : r.Before now) (hle : now ≤ now') :
    r.Before now' :=
  ⟨le_trans h.began hle, fun k hk => lt_of_lt_of_le (h.sender k hk) hle⟩

theorem getElem?_of_prefix {xs ys : List Msg} {m : Msg} {i : Nat} (h : xs <+: ys)
    (hm : xs[i]? = some m) : ys[i]? = some m := by
  obtain ⟨zs, rfl⟩ := h
  rwa [List.getElem?_append_left (List.getElem?_eq_some_iff.mp hm).1]

/-- A history only grows, and what was so stays so. -/
theorem Pc.Recorded.grow (h : p.Recorded history) (hle : ∀ level, history level <+: history' level) :
    p.Recorded history' := by
  cases p with
  | idle | awaking level | wild => trivial
  | entered r | reset r | queued r | asleep r | awakened r | signalled r | released r w =>
      exact Receive.Before.mono h (hle r.level).length_le
  | found r w j => exact h
  | copying r w j bSize out =>
      obtain ⟨hbefore, m, hm, hout⟩ := h
      exact ⟨hbefore, m, getElem?_of_prefix (hle r.level) hm, hout⟩
  | returned r e ret bytes seen =>
      cases e with
      | signal => exact h
      | flag w =>
          obtain ⟨hbefore, m, hm, hret⟩ := h
          exact ⟨hbefore, m, getElem?_of_prefix (hle r.level) hm, hret⟩
  | replaced level removed => exact lt_of_lt_of_le h (hle level).length_le
  | stored level k | noticed level k => exact lt_of_lt_of_le h (hle level).length_le
  | flagged level w =>
      cases w with
      | send k => exact lt_of_lt_of_le h (hle level).length_le
      | awakeAll => trivial

/-- The send that wakes a receiver has stored its message. -/
theorem Pc.Recorded.wake (h : p.Recorded history)
    (hw : (Pc.flagged level w).Recorded history) : (p.wake level w).Recorded history := by
  apply Pc.wake_of (P := Pc.Recorded history) h
  intro r hl hp
  have hr : r.Before (history r.level).length := by
    rcases hp with rfl | rfl <;> exact h
  subst hl
  refine ⟨hr.began, fun k hk => ?_⟩
  cases hs : r.sender with
  | some k' => exact hr.sender k (by simpa [Receive.wake, hs] using hk)
  | none =>
      cases w with
      | send k' =>
          obtain rfl : k' = k := by simpa [Receive.wake, hs] using hk
          exact hw
      | awakeAll => simp [Receive.wake, hs] at hk

/-- `list_replace` numbers the new element with the new message. -/
theorem Current.listReplace (h : Current s) (level : Fin levelDeep) (m : Msg) :
    Current (s.listReplace level m) := by
  refine ⟨fun level' => ?_, fun level' j m' hj => ?_⟩
  · by_cases hl : level' = level
    · subst hl
      simp [St.listReplace, h.1]
    · simpa [St.listReplace, St.setElement, hl] using h.1 level'
  · by_cases hl : level' = level
    · subst hl
      by_cases hnew : j = s.current level' + 1
      · obtain rfl : m = m' := by simpa [St.listReplace, St.setElement, hnew] using hj
        rw [hnew, ← h.1 level']
        simp [St.listReplace]
      · have hold : s.elements level' j = some m' := by
          simpa [St.listReplace, St.setElement, hnew] using hj
        exact getElem?_of_prefix (by simp [St.listReplace]) (h.2 level' j m' hold)
    · have hold : s.elements level' j = some m' := by
        simpa [St.listReplace, St.setElement, hl] using hj
      simpa [St.listReplace, St.setElement, hl] using h.2 level' j m' hold

/-- `kfree` takes an element away and gives none another message. -/
theorem Current.kfree (h : Current s) (level : Fin levelDeep) (removed : Nat) :
    Current (s.kfree level removed) := by
  refine ⟨h.1, fun level' j m hj => h.2 level' j m ?_⟩
  by_cases hl : level' = level
  · subst hl
    by_cases hremoved : j = removed
    · simp [St.kfree, St.setElement, hremoved] at hj
    · simpa [St.kfree, St.setElement, hremoved] using hj
  · simpa [St.kfree, St.setElement, hl] using hj

theorem listReplace_extends (s : St τ) (level : Fin levelDeep) (m : Msg) (level' : Fin levelDeep) :
    s.history level' <+: (s.listReplace level m).history level' := by
  by_cases hl : level' = level
  · subst hl
    simp [St.listReplace]
  · simp [St.listReplace, St.setElement, hl]

/-- What the copy loop has after a round is what the message begins with. -/
theorem copied_prefix {m out : Msg} {bSize n : Nat} (hout : out <+: m) (hn : n ≤ bSize - out.length)
    (hlt : out.length < bSize) :
    (out ++ (m.drop out.length).take n).length ≤ bSize ∧
      out ++ (m.drop out.length).take n <+: m := by
  constructor
  · have htake : ((m.drop out.length).take n).length ≤ n := List.length_take_le ..
    rw [List.length_append]
    omega
  · obtain ⟨rest, rfl⟩ := hout
    rw [List.drop_left]
    exact List.prefix_append_right_inj out |>.mpr (List.take_prefix n rest)

/-! ## Elements that are read -/

/-- The thread has found the element number `j` of the level and has to read it still. -/
def Pc.Reads (level : Fin levelDeep) (j : Nat) : Pc → Prop
  | .found r _ i => r.level = level ∧ i = j
  | .copying r _ i bSize out => r.level = level ∧ i = j ∧ out.length < bSize
  | _ => False

/-- A `kfree` finds no receive that has to read the element still. -/
def FreedAfterUse (s : St τ) : τ × Act → Prop
  | (t, .advance) =>
      match s.pc t with
      | .replaced level removed => ∀ u, ¬ (s.pc u).Reads level removed
      | _ => True
  | _ => True

/-- What the thread will read is allocated, and what it will free is out of the list. -/
def Pc.Live (current : Fin levelDeep → Nat) (elements : Fin levelDeep → Nat → Option Msg) :
    Pc → Prop
  | .found r _ j => elements r.level j ≠ none
  | .copying r _ j bSize out => out.length < bSize → elements r.level j ≠ none
  | .replaced level removed => removed < current level
  | .wild => False
  | _ => True

/-- The elements in the list are allocated, and so are those that the threads read. -/
structure Held (s : St τ) : Prop where
  listed : ∀ level, s.elements level (s.current level) ≠ none
  live : ∀ u, (s.pc u).Live s.current s.elements

variable {current current' : Fin levelDeep → Nat}
variable {elements elements' : Fin levelDeep → Nat → Option Msg}

theorem Pc.Live.mono (h : p.Live current elements) (hle : ∀ level, current level ≤ current' level)
    (hread : ∀ level j, p.Reads level j → elements level j ≠ none → elements' level j ≠ none) :
    p.Live current' elements' := by
  cases p with
  | found r w j => exact hread r.level j ⟨rfl, rfl⟩ h
  | copying r w j bSize out => exact fun hlt => hread r.level j ⟨rfl, rfl, hlt⟩ (h hlt)
  | replaced level removed => exact lt_of_lt_of_le h (hle level)
  | _ => exact h

/-- `list_replace` adds an element and takes none away. -/
theorem listReplace_elements (s : St τ) (level : Fin levelDeep) (m : Msg) {level' : Fin levelDeep}
    {j : Nat} (h : s.elements level' j ≠ none) : (s.listReplace level m).elements level' j ≠ none := by
  by_cases hl : level' = level
  · subst hl
    by_cases hj : j = s.current level' + 1
    · simp [St.listReplace, St.setElement, hj]
    · simpa [St.listReplace, St.setElement, hj] using h
  · simpa [St.listReplace, St.setElement, hl] using h

/-- `kfree` takes away that element and no other. -/
theorem kfree_elements {level' : Fin levelDeep} {j removed : Nat}
    (hne : ¬ (level' = level ∧ removed = j)) (h : s.elements level' j ≠ none) :
    (s.kfree level removed).elements level' j ≠ none := by
  by_cases hl : level' = level
  · have hj : j ≠ removed := fun hj => hne ⟨hl, hj.symm⟩
    subst hl
    simpa [St.kfree, St.setElement, hj] using h
  · simpa [St.kfree, St.setElement, hl] using h

theorem Held.ne_wild (h : Held s) (u : τ) : s.pc u ≠ .wild := by
  intro hp
  have hu : (s.pc u).Live s.current s.elements := h.live u
  rw [hp] at hu
  exact hu

/-! ## Every step keeps both -/

variable [DecidableEq τ]

theorem Held.listReplace (h : Held s) (level : Fin levelDeep) (m : Msg) :
    Held ((s.listReplace level m).goto t (.replaced level (s.current level))) := by
  have hle : ∀ level', s.current level' ≤ (s.listReplace level m).current level' := by
    intro level'
    by_cases hl : level' = level
    · subst hl
      simp [St.listReplace]
    · simp [St.listReplace, hl]
  refine ⟨fun level' => ?_, forall_goto (s := s.listReplace level m) (fun u =>
    (h.live u).mono hle fun _ _ _ => listReplace_elements s level m) ?_⟩
  · show (s.listReplace level m).elements level' ((s.listReplace level m).current level') ≠ none
    by_cases hl : level' = level
    · subst hl
      simp [St.listReplace, St.setElement]
    · simpa [St.listReplace, St.setElement, hl] using h.listed level'
  · show s.current level < (s.listReplace level m).current level
    simp [St.listReplace]

/-- A `kfree` that meets the guard takes away neither the element in the list nor one that is
read. -/
theorem Held.kfree {removed : Nat} (h : Held s) (hremoved : removed < s.current level)
    (hunread : ∀ u, ¬ (s.pc u).Reads level removed) :
    Held ((s.kfree level removed).goto t (.stored level (removed + 1))) := by
  refine ⟨fun level' => ?_, forall_goto (s := s.kfree level removed) (fun u =>
    (h.live u).mono (fun _ => le_refl _) fun level' j hreads => kfree_elements ?_) trivial⟩
  · refine kfree_elements ?_ (h.listed level')
    rintro ⟨rfl, hj⟩
    exact absurd hj (Nat.ne_of_lt hremoved)
  · rintro ⟨rfl, rfl⟩
    exact hunread u hreads

/-- The histories are what the threads and the levels say of them. -/
structure Faithful (s : St τ) : Prop where
  current : Current s
  recorded : ∀ u, (s.pc u).Recorded s.history

variable [Fintype τ]

theorem recorded_advance (h : Faithful s) (hs : advance s t = some s') : Faithful s' := by
  have ht : (s.pc t).Recorded s.history := h.recorded t
  cases hp : s.pc t with simp only [advance, hp] at hs ht
  | idle | asleep r | wild => cases hs
  | entered r | reset r | awakened r =>
      obtain rfl := Option.some.inj hs
      exact ⟨h.current, forall_goto h.recorded ht⟩
  | queued r =>
      obtain rfl := Option.some.inj hs
      refine ⟨h.current, forall_goto h.recorded ?_⟩
      split <;> exact ht
  | signalled r =>
      obtain rfl := Option.some.inj hs
      exact ⟨h.current, forall_goto h.recorded ⟨ht, by simp⟩⟩
  | released r w =>
      obtain rfl := Option.some.inj hs
      refine ⟨h.current, forall_goto h.recorded ?_⟩
      have hbefore : r.Before (s.history r.level).length := ht
      rwa [h.current.1] at hbefore
  | found r w j =>
      obtain rfl := Option.some.inj hs
      refine ⟨h.current, forall_goto h.recorded ?_⟩
      cases helement : s.elements r.level j with
      | none => trivial
      | some m =>
          exact ⟨ht, m, h.current.2 _ _ _ helement, rfl, Nat.zero_le _, List.nil_prefix⟩
  | copying r w j bSize out =>
      obtain ⟨hdone, ⟨⟩⟩ := Option.ite_none_left_eq_some.mp hs
      obtain ⟨hbefore, m, hm, rfl, hle, hout⟩ := ht
      have hlength : out.length = r.bSize m := le_antisymm hle (not_lt.mp hdone)
      have hbytes : out = m.take (r.bSize m) := by
        rw [← hlength]
        exact List.prefix_iff_eq_take.mp hout
      exact ⟨h.current, forall_goto h.recorded ⟨hbefore, m, hm, rfl, hbytes⟩⟩
  | returned r e ret bytes seen =>
      obtain rfl := Option.some.inj hs
      exact ⟨h.current, forall_goto h.recorded trivial⟩
  | replaced level removed =>
      obtain rfl := Option.some.inj hs
      exact ⟨h.current.kfree level removed, forall_goto (s := s.kfree level removed) h.recorded ht⟩
  | stored level k =>
      obtain rfl := Option.some.inj hs
      refine ⟨h.current, forall_goto h.recorded ?_⟩
      split
      · exact ht
      · trivial
  | noticed level k | awaking level =>
      obtain rfl := Option.some.inj hs
      exact ⟨h.current, forall_goto h.recorded ht⟩
  | flagged level w =>
      obtain rfl := Option.some.inj hs
      refine ⟨h.current, forall_goto (fun u => (h.recorded u).wake ht) ?_⟩
      exact Waker.next_of (P := Pc.Recorded s.history) trivial fun _ => trivial

theorem recorded_step {l : τ × Act} (h : Faithful s) (hs : step s l = some s') : Faithful s' := by
  obtain ⟨t, act⟩ := l
  cases act with
  | advance => exact recorded_advance h hs
  | receive level size =>
      obtain ⟨_, ⟨⟩⟩ := Option.ite_none_right_eq_some.mp hs
      exact ⟨h.current, forall_goto h.recorded ⟨le_refl _, by simp⟩⟩
  | copied n =>
      have ht : (s.pc t).Recorded s.history := h.recorded t
      cases hp : s.pc t with simp only [step, hp] at hs ht
      | copying r w j bSize out =>
          obtain ⟨⟨hlt, hn⟩, ⟨⟩⟩ := Option.ite_none_right_eq_some.mp hs
          obtain ⟨hbefore, m, hm, hsize, -, hout⟩ := ht
          refine ⟨h.current, forall_goto h.recorded ?_⟩
          cases helement : s.elements r.level j with
          | none => trivial
          | some m' =>
              obtain rfl : m' = m :=
                Option.some.inj ((h.current.2 _ _ _ helement).symm.trans hm)
              exact ⟨hbefore, m', hm, hsize, copied_prefix hout hn hlt⟩
      | _ => cases hs
  | send level m =>
      obtain ⟨_, ⟨⟩⟩ := Option.ite_none_right_eq_some.mp hs
      refine ⟨h.current.listReplace level m, forall_goto (s := s.listReplace level m)
        (fun u => (h.recorded u).grow (listReplace_extends s level m)) ?_⟩
      show s.current level + 1 < ((s.listReplace level m).history level).length
      simp [St.listReplace, h.current.1]
  | awakeAll =>
      obtain ⟨_, ⟨⟩⟩ := Option.ite_none_right_eq_some.mp hs
      exact ⟨h.current, forall_goto h.recorded trivial⟩
  | signal =>
      have ht : (s.pc t).Recorded s.history := h.recorded t
      cases hp : s.pc t with simp only [step, hp] at hs ht
      | asleep r =>
          obtain rfl := Option.some.inj hs
          refine ⟨h.current, forall_goto h.recorded ?_⟩
          split <;> exact ht
      | _ => cases hs

theorem faithful_reached {ok : St τ → τ × Act → Prop} (h : Reached (service τ) ok s) :
    Faithful s := by
  refine h.invariant ?_ fun _ _ _ hi _ hs => recorded_step hi hs
  rintro _ rfl
  refine ⟨⟨fun _ => rfl, fun _ j m hj => ?_⟩, fun _ => trivial⟩
  obtain ⟨rfl, rfl⟩ : j = 0 ∧ [] = m := by simpa [initial] using hj
  rfl

theorem held_advance (h : Held s) (hok : FreedAfterUse s (t, .advance))
    (hs : advance s t = some s') : Held s' := by
  have ht : (s.pc t).Live s.current s.elements := h.live t
  cases hp : s.pc t with simp only [advance, hp] at hs ht
  | idle | asleep r | wild => cases hs
  | entered r | reset r | awakened r | signalled r | returned r e ret bytes seen
  | noticed level k | awaking level =>
      obtain rfl := Option.some.inj hs
      exact ⟨h.listed, forall_goto h.live trivial⟩
  | queued r =>
      obtain rfl := Option.some.inj hs
      refine ⟨h.listed, forall_goto h.live ?_⟩
      split <;> trivial
  | released r w =>
      obtain rfl := Option.some.inj hs
      exact ⟨h.listed, forall_goto h.live (h.listed r.level)⟩
  | found r w j =>
      obtain rfl := Option.some.inj hs
      refine ⟨h.listed, forall_goto h.live ?_⟩
      cases helement : s.elements r.level j with
      | none => exact ht helement
      | some m => exact fun _ => ht
  | copying r w j bSize out =>
      obtain ⟨_, ⟨⟩⟩ := Option.ite_none_left_eq_some.mp hs
      exact ⟨h.listed, forall_goto h.live trivial⟩
  | replaced level removed =>
      obtain rfl := Option.some.inj hs
      have hunread : ∀ u, ¬ (s.pc u).Reads level removed := by simpa [FreedAfterUse, hp] using hok
      exact h.kfree ht hunread
  | stored level k =>
      obtain rfl := Option.some.inj hs
      refine ⟨h.listed, forall_goto h.live ?_⟩
      split <;> trivial
  | flagged level w =>
      obtain rfl := Option.some.inj hs
      have hlive : Pc.Live s.current s.elements (w.next level) :=
        Waker.next_of (P := Pc.Live s.current s.elements) trivial fun _ => trivial
      refine ⟨h.listed, forall_goto (fun u => ?_) hlive⟩
      exact Pc.wake_of (P := Pc.Live s.current s.elements) (h.live u) fun _ _ _ => trivial

theorem held_step {l : τ × Act} (h : Held s) (hok : FreedAfterUse s l) (hs : step s l = some s') :
    Held s' := by
  obtain ⟨t, act⟩ := l
  cases act with
  | advance => exact held_advance h hok hs
  | receive level size | awakeAll =>
      obtain ⟨_, ⟨⟩⟩ := Option.ite_none_right_eq_some.mp hs
      exact ⟨h.listed, forall_goto h.live trivial⟩
  | copied n =>
      have ht : (s.pc t).Live s.current s.elements := h.live t
      cases hp : s.pc t with simp only [step, hp] at hs ht
      | copying r w j bSize out =>
          obtain ⟨⟨hlt, _⟩, ⟨⟩⟩ := Option.ite_none_right_eq_some.mp hs
          refine ⟨h.listed, forall_goto h.live ?_⟩
          cases helement : s.elements r.level j with
          | none => exact ht hlt helement
          | some m => exact fun _ => ht hlt
      | _ => cases hs
  | send level m =>
      obtain ⟨_, ⟨⟩⟩ := Option.ite_none_right_eq_some.mp hs
      exact h.listReplace level m
  | signal =>
      cases hp : s.pc t with simp only [step, hp] at hs
      | asleep r =>
          obtain rfl := Option.some.inj hs
          refine ⟨h.listed, forall_goto h.live ?_⟩
          split <;> trivial
      | _ => cases hs

/-- No call reads a freed element, in a run in which none is freed before it is read. -/
theorem held_reached (h : Reached (service τ) FreedAfterUse s) : Held s := by
  refine h.invariant ?_ fun _ _ _ hi hok hs => held_step hi hok hs
  rintro _ rfl
  exact ⟨fun _ => by simp [initial], fun _ => trivial⟩

end TagMessaging.Wakeup
