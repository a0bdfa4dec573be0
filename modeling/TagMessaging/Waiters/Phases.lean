/-
# TagMessaging.Waiters.Phases -- the updates stand where the source has them

Two facts about `Waiters.Steps`. The phase of a thread agrees with its place in the list (`Fits`):
the increment comes after the reset of the flag and before the first test of it, the decrement after
that of `standing`, on the level of the search and on every way out. And the list does not see the
counters: leaving them out, every run is one of `Rcu.rcuList`.
-/
import TagMessaging.Waiters.Steps

namespace TagMessaging.Waiters

open TagMessaging.Model TagMessaging.Lib.Transition

variable {τ : Type} {s s' : St τ} {t u : τ} {i : Fin levelDeep}

/-! ## Phases and places -/

/-- The search is between the reset of its flag and the decrement of `standing`. -/
def Within : Rcu.Pc → Prop
  | .queued _ _ _ | .asleep _ _ _ | .signalled _ | .woken _ _ | .counted _ _ | .walking _ _ _
  | .leaving _ _ | .lost _ => True
  | _ => False

/-- The place is one of a search on the level `i`, as far as it shows. -/
def OnLevel (i : Fin levelDeep) : Rcu.Pc → Prop
  | .queued key j _ | .asleep key j _ => j = i ∧ Rcu.readyIndex key = some i
  | .woken key _ | .counted key _ | .walking key _ _ => Rcu.readyIndex key = some i
  | _ => True

/-- The phase agrees with the place. -/
def Phase.Fits (p : Rcu.Pc) : Phase → Prop
  | .outside => ¬ Within p
  | .raise i | .raising i _ => ∃ key e, p = .queued key i e ∧ Rcu.readyIndex key = some i
  | .inside i => Within p ∧ OnLevel i p
  | .lower _ | .lowering _ _ => ∃ q, p = .returned q

theorem within_wake (j : Fin levelDeep) (p : Rcu.Pc) : Within (p.wake j) ↔ Within p :=
  Rcu.wake_iff fun _ _ _ => Iff.rfl

theorem onLevel_wake (j : Fin levelDeep) (p : Rcu.Pc) : OnLevel i (p.wake j) ↔ OnLevel i p :=
  Rcu.wake_iff fun _ _ _ => Iff.rfl

/-- A wake-up moves no thread across an update. -/
theorem Phase.Fits.wake {phase : Phase} {p : Rcu.Pc} (h : phase.Fits p) (j : Fin levelDeep) :
    phase.Fits (p.wake j) := by
  cases phase with
  | outside => exact fun hw => h ((within_wake j p).mp hw)
  | inside i => exact ⟨(within_wake j p).mpr h.1, (onLevel_wake j p).mpr h.2⟩
  | raise i | raising i v =>
      obtain ⟨key, e, rfl, hkey⟩ := h
      exact ⟨key, e, rfl, hkey⟩
  | lower i | lowering i v =>
      obtain ⟨q, rfl⟩ := h
      exact ⟨q, rfl⟩

theorem hop_inside (r : Rcu.St τ) {key : Int32} (e : Fin 2) (q : Ptr)
    (hkey : Rcu.readyIndex key = some i) : (Phase.inside i).Fits (r.hop key e q) := by
  cases q with
  | none => exact ⟨trivial, trivial⟩
  | some a =>
      unfold Rcu.St.hop
      dsimp only
      split
      · exact ⟨trivial, trivial⟩
      · split
        · exact ⟨trivial, trivial⟩
        · exact ⟨trivial, hkey⟩

variable [DecidableEq τ]

/-- A thread on its way through a search goes on, or lowers `standing` and has the counter to
lower. -/
theorem fits_inside {r : Rcu.St τ} (h : (Phase.inside i).Fits (s.pc t))
    (hs : Rcu.advance s.toSt t = some r) : ((Phase.inside i).next (s.pc t)).Fits (r.pc t) := by
  obtain ⟨hw, hi⟩ := h
  cases hp : s.pc t with simp only [Rcu.advance, hp] at hs hw hi
  | queued key j e =>
      obtain rfl := Option.some.inj hs
      rw [Rcu.goto_pc_self]
      show (Phase.inside i).Fits _
      split
      · exact ⟨trivial, hi.2⟩
      · exact ⟨trivial, hi⟩
  | signalled e =>
      obtain rfl := Option.some.inj hs
      exact ⟨none, Rcu.goto_pc_self ..⟩
  | leaving e q =>
      obtain rfl := Option.some.inj hs
      exact ⟨q, Rcu.goto_pc_self ..⟩
  | woken key e | counted key e =>
      obtain rfl := Option.some.inj hs
      rw [Rcu.goto_pc_self]
      exact ⟨trivial, hi⟩
  | walking key e q =>
      obtain rfl := Option.some.inj hs
      rw [Rcu.goto_pc_self]
      exact hop_inside s.toSt e q hi
  | asleep key j e | lost e => cases hs
  | _ => exact hw.elim

/-- A thread outside of the updates stays outside, or resets the flag of a search and has the
counter to raise. -/
theorem fits_outside {r : Rcu.St τ} (h : Phase.outside.Fits (s.pc t))
    (hs : Rcu.advance s.toSt t = some r) : (Phase.outside.next (s.pc t)).Fits (r.pc t) := by
  cases hp : s.pc t with simp only [Rcu.advance, hp] at hs h
  | sampled key e =>
      -- the one step into a wait: the increment of `waiters` is next
      show ((Rcu.readyIndex key).elim Phase.outside Phase.raise).Fits _
      cases hkey : Rcu.readyIndex key with
      | none =>
          simp only [hkey] at hs
          obtain rfl := Option.some.inj hs
          rw [Rcu.goto_pc_self]
          exact id
      | some j =>
          simp only [hkey] at hs
          obtain rfl := Option.some.inj hs
          exact ⟨key, e, Rcu.goto_pc_self .., hkey⟩
  | idle | wild => cases hs
  | locked c =>
      obtain rfl := Option.some.inj hs
      show ¬ Within _
      unfold Rcu.St.relink
      split
      · rw [Rcu.goto_pc_self]
        exact id
      · rw [Rcu.goto_pc_self]
        exact id
      · rw [Rcu.goto_pc_self]
        cases c <;> exact id
  | prepared c =>
      obtain ⟨_, ⟨⟩⟩ := Option.ite_none_right_eq_some.mp hs
      show ¬ Within _
      rw [Rcu.goto_pc_self]
      exact id
  | unlinked removed g | flipped removed g =>
      obtain ⟨_, ⟨⟩⟩ := Option.ite_none_left_eq_some.mp hs
      show ¬ Within _
      rw [Rcu.goto_pc_self]
      exact id
  | notifying j =>
      obtain rfl := Option.some.inj hs
      show ¬ Within (if t = t then _ else _)
      rw [if_pos rfl]
      exact id
  | returned q | relinked removed g | drained removed | unlocked removed =>
      obtain rfl := Option.some.inj hs
      show ¬ Within _
      rw [Rcu.goto_pc_self]
      exact id
  | _ => exact absurd trivial h

/-- The first step of a call, and a signal, keep the phase. -/
theorem fits_call {act : Rcu.Act} {r : Rcu.St τ} {phase : Phase} (h : phase.Fits (s.pc t))
    (hs : Rcu.step s.toSt (t, act) = some r) (hact : act ≠ .advance) : phase.Fits (r.pc t) := by
  -- The thread was idle, so it is outside; or it was asleep, and is in the search still.
  have begun : ∀ {p : Rcu.Pc}, s.pc t = .idle → ¬ Within p → phase.Fits p := by
    intro p hp hw
    rw [hp] at h
    cases phase with
    | outside => exact hw
    | inside i => exact h.1.elim
    | raise i | raising i v =>
        obtain ⟨key, e, hq, _⟩ := h
        cases hq
    | lower i | lowering i v =>
        obtain ⟨q, hq⟩ := h
        cases hq
  cases act with
  | advance => exact absurd rfl hact
  | search key | notify j =>
      obtain ⟨hp, ⟨⟩⟩ := Option.ite_none_right_eq_some.mp hs
      rw [Rcu.goto_pc_self]
      exact begun hp id
  | write op kmallocFails =>
      obtain ⟨hp, ⟨⟩⟩ := Option.ite_none_right_eq_some.mp hs
      unfold Rcu.St.write
      split
      · rw [Rcu.goto_pc_self]
        exact begun hp id
      · split
        · exact h
        · rw [Rcu.goto_pc_self]
          exact begun hp id
  | signal =>
      cases hp : s.pc t with simp only [Rcu.step, hp] at hs h
      | asleep key j e =>
          obtain rfl := Option.some.inj hs
          rw [Rcu.goto_pc_self]
          cases phase with
          | outside => exact absurd trivial h
          | inside i =>
              split
              · exact ⟨trivial, h.2.2⟩
              · exact ⟨trivial, trivial⟩
          | raise i | raising i v =>
              obtain ⟨key', e', hq, _⟩ := h
              cases hq
          | lower i | lowering i v =>
              obtain ⟨q, hq⟩ := h
              cases hq
      | _ => cases hs

/-- Thread `t` turns to a phase that agrees with where it is; the others are where they were, or were
woken. -/
theorem fits_turn {r : Rcu.St τ} {p : Phase} (h : ∀ u, (s.phase u).Fits (s.pc u))
    (hother : ∀ u, u ≠ t → r.pc u = s.pc u ∨ ∃ j, r.pc u = (s.pc u).wake j)
    (hp : p.Fits (r.pc t)) : ∀ u, (Function.update s.phase t p u).Fits (r.pc u) := by
  intro u
  by_cases hu : u = t
  · subst hu
    rw [Function.update_self]
    exact hp
  · rw [Function.update_of_ne hu]
    rcases hother u hu with hpc | ⟨j, hpc⟩
    · rw [hpc]
      exact h u
    · rw [hpc]
      exact (h u).wake j

theorem fits_advance (h : ∀ u, (s.phase u).Fits (s.pc u)) (hs : advance s t = some s') :
    ∀ u, (s'.phase u).Fits (s'.pc u) := by
  have ht : (s.phase t).Fits (s.pc t) := h t
  have stays : ∀ u, u ≠ t → s.pc u = s.pc u ∨ ∃ j, s.pc u = (s.pc u).wake j :=
    fun u _ => Or.inl rfl
  cases hp : s.phase t with simp only [advance, hp] at hs ht
  | raise i | lower i =>
      obtain rfl := Option.some.inj hs
      exact fits_turn h stays ht
  | raising i v =>
      obtain rfl := Option.some.inj hs
      obtain ⟨key, e, hpc, hkey⟩ := ht
      refine fits_turn h stays ?_
      show (Phase.inside i).Fits (s.pc t)
      rw [hpc]
      exact ⟨trivial, rfl, hkey⟩
  | lowering i v =>
      obtain rfl := Option.some.inj hs
      obtain ⟨q, hpc⟩ := ht
      refine fits_turn h stays ?_
      show Phase.outside.Fits (s.pc t)
      rw [hpc]
      exact id
  | outside =>
      obtain ⟨r, hr, rfl⟩ := Option.map_eq_some_iff.mp hs
      show ∀ u, (Function.update s.phase t _ u).Fits (r.pc u)
      exact fits_turn h (fun u hu => Rcu.pc_advance hr hu) (fits_outside ht hr)
  | inside i =>
      obtain ⟨r, hr, rfl⟩ := Option.map_eq_some_iff.mp hs
      show ∀ u, (Function.update s.phase t _ u).Fits (r.pc u)
      exact fits_turn h (fun u hu => Rcu.pc_advance hr hu) (fits_inside ht hr)

/-- What a step is: one of the thread's own updates and statements, or a call or a signal that only
the list sees. -/
theorem step_cases {l : τ × Rcu.Act} (hs : step s l = some s') :
    (∃ t, l = (t, .advance) ∧ advance s t = some s') ∨
      ∃ t act r, l = (t, act) ∧ act ≠ .advance ∧ Rcu.step s.toSt (t, act) = some r ∧
        s' = { s with toSt := r } := by
  obtain ⟨t, act⟩ := l
  by_cases hact : act = .advance
  · subst hact
    exact Or.inl ⟨t, rfl, hs⟩
  · have hmap : (Rcu.step s.toSt (t, act)).map (fun list => ({ s with toSt := list } : St τ)) =
        some s' := by
      cases act with
      | advance => exact absurd rfl hact
      | _ => exact hs
    obtain ⟨r, hr, rfl⟩ := Option.map_eq_some_iff.mp hmap
    exact Or.inr ⟨t, act, r, rfl, hact, hr, rfl⟩

theorem fits_step {l : τ × Rcu.Act} (h : ∀ u, (s.phase u).Fits (s.pc u))
    (hs : step s l = some s') : ∀ u, (s'.phase u).Fits (s'.pc u) := by
  rcases step_cases hs with ⟨t, rfl, hadv⟩ | ⟨t, act, r, rfl, hact, hr, rfl⟩
  · exact fits_advance h hadv
  · have hkept : Function.update s.phase t (s.phase t) = s.phase := Function.update_eq_self t s.phase
    have hfits := fits_turn h (fun u hu => Or.inl (Rcu.pc_call hr hact hu)) (fits_call (h t) hr hact)
    rw [hkept] at hfits
    exact hfits

/-- In every run each thread makes its updates where `rcu_list_search` has them: what stands between
an increment and a decrement is a search on that level. -/
theorem phases_fit {ok : St τ → τ × Rcu.Act → Prop} (h : Reached (countedList τ) ok s) :
    ∀ u, (s.phase u).Fits (s.pc u) := by
  refine h.invariant (I := fun s => ∀ u, (s.phase u).Fits (s.pc u)) ?_ fun _ _ _ hi _ hs =>
    fits_step hi hs
  rintro _ rfl u
  exact id

/-! ## The list without its counters -/

/-- The list with other counters. -/
def withWaiters (r : Rcu.St τ) (w : Fin levelDeep → Int) : Rcu.St τ :=
  { r with list := { r.list with waiters := w } }

/-- No statement of the list reads or stores a counter. -/
theorem advance_withWaiters (r : Rcu.St τ) (w : Fin levelDeep → Int) :
    Rcu.advance (withWaiters r w) t = (Rcu.advance r t).map (withWaiters · w) := by
  have hpc : (withWaiters r w).pc t = r.pc t := rfl
  cases hp : r.pc t with simp only [Rcu.advance, hp, hpc]
  | sampled key e => cases Rcu.readyIndex key <;> rfl
  | prepared c =>
      show (if r.lock = none then _ else _) = _
      split <;> rfl
  | unlinked removed g =>
      show (if r.list.standing (g + 1) > 0 then _ else _) = _
      split <;> rfl
  | flipped removed g =>
      show (if r.list.standing g > 0 then _ else _) = _
      split <;> rfl
  | locked c =>
      have hrelink : c.relink (withWaiters r w) = c.relink r := by cases c <;> rfl
      unfold Rcu.St.relink
      rw [hrelink]
      cases c.relink r with
      | error f => rfl
      | ok o => cases o <;> rfl
  | unlocked removed => cases removed <;> rfl
  | _ => rfl

theorem step_withWaiters (r : Rcu.St τ) (w : Fin levelDeep → Int) (l : τ × Rcu.Act) :
    Rcu.step (withWaiters r w) l = (Rcu.step r l).map (withWaiters · w) := by
  obtain ⟨t, act⟩ := l
  cases act with
  | advance => exact advance_withWaiters r w
  | search key | notify i =>
      show (if r.pc t = .idle then _ else _) = Option.map _ (if r.pc t = .idle then _ else _)
      split <;> rfl
  | write op kmallocFails =>
      show (if r.pc t = .idle then _ else _) = Option.map _ (if r.pc t = .idle then _ else _)
      split
      · show some _ = some _
        unfold Rcu.St.write
        cases op.entry with
        | none => rfl
        | some x => cases kmallocFails <;> rfl
      · rfl
  | signal =>
      have hpc : (withWaiters r w).pc t = r.pc t := rfl
      cases hp : r.pc t with
        (simp only [Rcu.step, hp, hpc]; rfl)

/-- So a step of the list leaves them alone. -/
theorem waiters_kept {r r' : Rcu.St τ} {l : τ × Rcu.Act} (hs : Rcu.step r l = some r') :
    r'.list.waiters = r.list.waiters := by
  have hself : Rcu.step (withWaiters r r.list.waiters) l = some r' := hs
  rw [step_withWaiters, hs] at hself
  exact (congrArg (fun r => r.list.waiters) (Option.some.inj hself)).symm

/-- The finer model refines `Rcu.rcuList`: what it reaches is reached there, but for the counters. -/
theorem reached_rcuList {ok : St τ → τ × Rcu.Act → Prop} (h : Reached (countedList τ) ok s) :
    Reached (Rcu.rcuList τ) Always (withWaiters s.toSt fun _ => 0) := by
  refine h.invariant (I := fun s => Reached (Rcu.rcuList τ) Always (withWaiters s.toSt fun _ => 0))
    ?_ fun s l s' hi _ hs => ?_
  · rintro _ rfl
    exact .start rfl
  · have listStep : ∀ {l : τ × Rcu.Act} {r : Rcu.St τ}, Rcu.step s.toSt l = some r →
        Reached (Rcu.rcuList τ) Always (withWaiters r fun _ => 0) := by
      intro l r hr
      refine hi.step trivial (l := l) ?_
      show Rcu.step _ l = some _
      rw [step_withWaiters, hr]
      rfl
    rcases step_cases hs with ⟨t, rfl, hadv⟩ | ⟨t, act, r, rfl, hact, hr, rfl⟩
    · cases hp : s.phase t with simp only [advance, hp] at hadv
      | raise i | raising i v | lower i | lowering i v =>
          obtain rfl := Option.some.inj hadv
          exact hi
      | outside | inside i =>
          obtain ⟨r, hr, rfl⟩ := Option.map_eq_some_iff.mp hadv
          exact listStep (l := (t, .advance)) hr
    · exact listStep hr

end TagMessaging.Waiters
