/-
# TagMessaging.Rcu.Counters -- the reader counters, and the guard

`standing[e]` is raised and lowered by the readers that sampled the epoch `e`. A wait that a signal
ends lowers it for a reader that never raised it, and that is the only step after which a counter
falls behind the number of readers between their increment and their decrement: `shortfall` says by
how much it does, and `shortfall_step` that it never recovers. As long as no wait ends so, each
counter is that number (`Counts`).

`Covered` is the guard on a step under which the grace period works. It excludes the signal, the
levels outside the array of flags, and the relinking of `rcu_list_replace` while a reader that
sampled an earlier epoch is in the list: that writer is going to wait for the current epoch only.
-/
import TagMessaging.Rcu.Steps
import TagMessaging.Lib.Tally

namespace TagMessaging.Rcu

open TagMessaging.Model TagMessaging.Lib.Tally

variable {τ : Type} {s s' : St τ} {t : τ} {p : Pc}

/-! ## The guard -/

/-- A step stays clear of the two races and of the levels there are not: no wait is ended by a
signal, no search resets a flag outside the array, and where `rcu_list_replace` relinks, every
reader in the list is counted in the epoch the list is in. -/
def Covered (s : St τ) : τ × Act → Prop
  | (t, .signal) =>
      match s.pc t with
      | .asleep _ i _ => s.list.ready i = 1
      | _ => True
  | (t, .advance) =>
      match s.pc t with
      | .sampled key _ => (readyIndex key).isSome
      | .locked (.replace _ _) => ∀ u, ¬ (s.pc u).CountedIn (s.list.epoch + 1)
      | _ => True
  | _ => True

/-! ## The counters -/

/-- What a thread contributes to `standing[e]`. -/
def counts (e : Fin 2) (p : Pc) : Int := if p.CountedIn e then 1 else 0

theorem counts_nonneg (e : Fin 2) (p : Pc) : 0 ≤ counts e p := by
  unfold counts
  split <;> decide

/-- A wake-up changes nothing that does not tell a thread asleep from one in the queue. -/
theorem wake_iff {P : Pc → Prop} {i : Fin levelDeep}
    (hP : ∀ key j e, P (.asleep key j e) ↔ P (.queued key j e)) : P (p.wake i) ↔ P p := by
  cases p with
  | asleep key j e =>
      by_cases hj : j = i
      · simp [Pc.wake, hj, hP]
      · simp [Pc.wake, hj]
  | _ => exact Iff.rfl

theorem counts_wake (e : Fin 2) (i : Fin levelDeep) (p : Pc) :
    counts e (p.wake i) = counts e p := by
  have hiff : (p.wake i).CountedIn e ↔ p.CountedIn e := wake_iff fun _ _ _ => Iff.rfl
  simp [counts, hiff]

/-- Only a woken reader raises a counter, and only a counted one lowers it. -/
theorem counts_hop (s : St τ) (key : Int32) (e e' : Fin 2) (q : Ptr) :
    counts e' (s.hop key e q) = counts e' (.walking key e q) := by
  cases q with
  | none => rfl
  | some a =>
      cases hel : s.elements a with
      | none => simp [St.hop, hel, counts, Pc.CountedIn]
      | some el => by_cases hl : el.level = key <;> simp [St.hop, hel, hl, counts, Pc.CountedIn]

theorem counts_relinked (e g : Fin 2) (c : Change) (q : Ptr) :
    counts e (c.relinked q g) = 0 := by
  cases c <;> rfl

section Counters

variable [Fintype τ] {e : Fin 2}

/-- Each counter is the number of readers between their increment and their decrement. -/
def Counts (s : St τ) : Prop := ∀ e, s.list.standing e = tally (counts e) s.pc

/-- By how much `standing[e]` falls behind the readers counted in it. -/
def shortfall (s : St τ) (e : Fin 2) : Int := tally (counts e) s.pc - s.list.standing e

/-- No wait was ended by a signal. -/
def Unsignalled (s : St τ) : Prop := ∀ t e, s.pc t ≠ .signalled e

theorem counts_iff_shortfall : Counts s ↔ ∀ e, shortfall s e = 0 :=
  forall_congr' fun _ => eq_comm.trans sub_eq_zero.symm

/-- A counter that lets a writer through has no reader counted in it. -/
theorem Counts.not_countedIn (h : Counts s) (he : s.list.standing e ≤ 0) (u : τ) :
    ¬ (s.pc u).CountedIn e := by
  intro hu
  have hle : counts e (s.pc u) ≤ tally (counts e) s.pc := le_tally (counts_nonneg e) u
  rw [← h e, counts, if_pos hu] at hle
  omega

theorem counts_initial : Counts (initial : St τ) :=
  fun e => (tally_eq_zero fun _ => by simp [initial, counts, Pc.CountedIn]).symm

variable [DecidableEq τ] {s₁ : St τ}

/-- A step that leaves `standing[e]` alone and goes on to a place that counts alike. -/
theorem shortfall_goto (hpc : s₁.pc = s.pc) (hst : s₁.list.standing = s.list.standing)
    (hp : counts e p = counts e (s.pc t)) : shortfall (s₁.goto t p) e = shortfall s e := by
  show tally (counts e) (Function.update s₁.pc t p) - s₁.list.standing e = _
  rw [hpc, hst, tally_update_of_eq hp]
  rfl

/-- A step from a place that counts nobody to one that counts nobody. -/
theorem shortfall_pass (hpc : s₁.pc = s.pc) (hst : s₁.list.standing = s.list.standing)
    (hold : ¬ (s.pc t).CountedIn e) (hnew : ¬ p.CountedIn e) :
    shortfall (s₁.goto t p) e = shortfall s e :=
  shortfall_goto hpc hst (by simp [counts, hold, hnew])

/-- A step that changes `standing[e₀]` by `d`. -/
theorem shortfall_goto_add (e₀ : Fin 2) (d : Int) :
    shortfall ((s.addStanding e₀ d).goto t p) e =
      shortfall s e + (counts e p - counts e (s.pc t)) - if e = e₀ then d else 0 := by
  have hsum : tally (counts e) (Function.update s.pc t p) =
      tally (counts e) s.pc - counts e (s.pc t) + counts e p := tally_update t p
  show tally (counts e) (Function.update s.pc t p) -
    Function.update s.list.standing e₀ (s.list.standing e₀ + d) e = _
  rw [hsum, shortfall, Function.update_apply]
  split
  · next he =>
      subst he
      ring
  · ring

/-- The relinking of a writer counts nobody. -/
theorem shortfall_relink {c : Change} (hp : s.pc t = .locked c) :
    shortfall (s.relink t c) e = shortfall s e := by
  have hold : counts e (s.pc t) = 0 := by simp [hp, counts, Pc.CountedIn]
  unfold St.relink
  split
  · exact shortfall_goto rfl rfl hold.symm
  · exact shortfall_goto rfl rfl hold.symm
  · exact shortfall_goto rfl rfl ((counts_relinked e _ c _).trans hold.symm)

theorem shortfall_write {op : Write} {kmallocFails : Bool} (hp : s.pc t = .idle) :
    shortfall (s.write t op kmallocFails) e = shortfall s e := by
  have hold : ¬ (s.pc t).CountedIn e := by simp [hp, Pc.CountedIn]
  unfold St.write
  split
  · exact shortfall_pass rfl rfl hold (by simp [Pc.CountedIn])
  · split
    · rfl
    · exact shortfall_pass rfl rfl hold (by simp [Pc.CountedIn])

/-- The step lowers `standing[e]` for a reader that never raised it. -/
def Spoils (s : St τ) (e : Fin 2) : τ × Act → Prop
  | (t, .advance) => s.pc t = .signalled e
  | _ => False

instance Spoils.decidable (s : St τ) (e : Fin 2) (l : τ × Act) : Decidable (Spoils s e l) := by
  obtain ⟨t, act⟩ := l
  rcases act <;> dsimp only [Spoils] <;> infer_instance

theorem shortfall_advance (hs : advance s t = some s') (e : Fin 2) :
    shortfall s' e = shortfall s e + if s.pc t = .signalled e then 1 else 0 := by
  have pass : ∀ {s₁ : St τ} {p : Pc}, (∀ e, s.pc t ≠ .signalled e) → s₁.pc = s.pc →
      s₁.list.standing = s.list.standing → counts e p = counts e (s.pc t) →
      shortfall (s₁.goto t p) e = shortfall s e + if s.pc t = .signalled e then 1 else 0 := by
    intro s₁ p hu hpc hst hp
    rw [shortfall_goto hpc hst hp, if_neg (hu e), add_zero]
  cases hp : s.pc t with simp only [advance, hp] at hs
  | idle | asleep key i e' | lost e' | wild => cases hs
  | signalled e' =>
      obtain rfl := Option.some.inj hs
      -- a reader that a signal has ended lowers a counter it did not raise
      rw [shortfall_goto_add]
      by_cases he : e = e'
      · simp [hp, he, counts, Pc.CountedIn]
      · simp [hp, he, Ne.symm he, counts, Pc.CountedIn]
  | woken key e' =>
      obtain rfl := Option.some.inj hs
      rw [shortfall_goto_add]
      simp [hp, counts, Pc.CountedIn, eq_comm]
  | leaving e' q =>
      obtain rfl := Option.some.inj hs
      rw [shortfall_goto_add]
      by_cases he : e = e'
      · simp [hp, he, counts, Pc.CountedIn]
      · simp [hp, he, Ne.symm he, counts, Pc.CountedIn]
  | sampled key e' =>
      split at hs <;> obtain rfl := Option.some.inj hs <;>
        exact hp ▸ pass (by simp [hp]) rfl rfl (by simp [hp, counts, Pc.CountedIn])
  | queued key i e' =>
      obtain rfl := Option.some.inj hs
      refine hp ▸ pass (by simp [hp]) rfl rfl ?_
      rw [hp]
      split <;> rfl
  | counted key e' =>
      obtain rfl := Option.some.inj hs
      exact hp ▸ pass (by simp [hp]) rfl rfl (by rw [hp]; rfl)
  | walking key e' q =>
      obtain rfl := Option.some.inj hs
      exact hp ▸ pass (by simp [hp]) rfl rfl (by rw [hp, counts_hop])
  | notifying i =>
      obtain rfl := Option.some.inj hs
      rw [if_neg (by simp), add_zero]
      -- the threads it wakes are as little counted as when they slept
      refine congrArg (· - s.list.standing e) (Finset.sum_congr rfl fun u _ => ?_)
      by_cases hut : u = t
      · simp [hut, hp, counts, Pc.CountedIn]
      · simp only [hut, if_false]
        exact counts_wake e i (s.pc u)
  | locked c =>
      obtain rfl := Option.some.inj hs
      rw [shortfall_relink hp, if_neg (by simp), add_zero]
  | prepared c =>
      obtain ⟨_, ⟨⟩⟩ := Option.ite_none_right_eq_some.mp hs
      exact hp ▸ pass (by simp [hp]) rfl rfl (by simp [hp, counts, Pc.CountedIn])
  | unlinked removed g | flipped removed g =>
      obtain ⟨_, ⟨⟩⟩ := Option.ite_none_left_eq_some.mp hs
      exact hp ▸ pass (by simp [hp]) rfl rfl (by simp [hp, counts, Pc.CountedIn])
  | returned q | relinked removed g | drained removed =>
      obtain rfl := Option.some.inj hs
      exact hp ▸ pass (by simp [hp]) rfl rfl (by simp [hp, counts, Pc.CountedIn])
  | unlocked removed =>
      obtain rfl := Option.some.inj hs
      cases removed <;>
        exact hp ▸ pass (by simp [hp]) rfl rfl (by simp [hp, counts, Pc.CountedIn])

/-- What one step does to a counter: nothing can make up for a wait that a signal ended. -/
theorem shortfall_step {l : τ × Act} (hs : step s l = some s') (e : Fin 2) :
    shortfall s' e = shortfall s e + if Spoils s e l then 1 else 0 := by
  obtain ⟨t, act⟩ := l
  cases act with
  | advance => exact shortfall_advance hs e
  | search key =>
      obtain ⟨hp, ⟨⟩⟩ := Option.ite_none_right_eq_some.mp hs
      rw [shortfall_pass rfl rfl (by simp [hp, Pc.CountedIn]) (by simp [Pc.CountedIn])]
      simp [Spoils]
  | write op kmallocFails =>
      obtain ⟨hp, ⟨⟩⟩ := Option.ite_none_right_eq_some.mp hs
      rw [shortfall_write hp]
      simp [Spoils]
  | notify i =>
      obtain ⟨hp, ⟨⟩⟩ := Option.ite_none_right_eq_some.mp hs
      have hpass : shortfall ((s.setReady i 1).goto t (.notifying i)) e = shortfall s e :=
        shortfall_pass rfl rfl (by simp [hp, Pc.CountedIn]) (by simp [Pc.CountedIn])
      rw [hpass]
      simp [Spoils]
  | signal =>
      cases hp : s.pc t with simp only [step, hp] at hs
      | asleep key i e' =>
          obtain rfl := Option.some.inj hs
          rw [shortfall_goto rfl rfl (by rw [hp]; split <;> rfl)]
          simp [Spoils]
      | _ => cases hs

theorem Counts.step {l : τ × Act} (h : Counts s) (hu : Unsignalled s) (hs : step s l = some s') :
    Counts s' := by
  rw [counts_iff_shortfall] at h ⊢
  intro e
  have hspoils : ¬ Spoils s e l := by
    obtain ⟨t, act⟩ := l
    cases act with
    | advance => exact hu t e
    | _ => exact id
  rw [shortfall_step hs e, h e, if_neg hspoils, add_zero]

end Counters

end TagMessaging.Rcu
