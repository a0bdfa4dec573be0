/-
# TagMessaging.Rcu.Progress -- the work that is left

Without new calls and signals each statement lowers the number of statements the threads have still
to execute. A relinking does not lengthen the way of a reader (`InvAt.rest_step`), and a
`wake_up_all` is paid for by the thread that executes it. A reader in the list is never held up, and
a `write_lock` that is held has its holder in the critical section, as long as no
`rcu_list_replace` returns early.
-/
import TagMessaging.Rcu.Searches

namespace TagMessaging.Rcu

open TagMessaging.Model TagMessaging.Lib.Transition TagMessaging.Lib.Segment TagMessaging.Lib.Tally

/-! ## The work that is left -/

variable {elements : Addr → Option Element} {q : Ptr} {zs xs : List Addr} {fuel brk threads : Nat}

variable {τ : Type} {s s' : St τ} {t u : τ} {e : Fin 2} {key : Int32} {l : AtomicList τ}

variable [DecidableEq τ]

/-! ## One statement -/

/-- The relinking is not the early return of `rcu_list_replace`, which finds no element with the
key. -/
def goesOn : Except Fault (Option Relinked) → Bool
  | .ok none => false
  | _ => true

/-- The step is not that early return. -/
def Present (s : St τ) : τ × Act → Prop
  | (t, .advance) =>
      match s.pc t with
      | .locked c => goesOn (c.relink s) = true
      | _ => True
  | _ => True

/-- A lock that is held is held by a writer in its critical section. -/
def LockKept (s : St τ) : Prop := ∀ v, s.lock = some v → (s.pc v).InSection

/-- A thread outside the critical sections that stays outside. -/
theorem LockKept.goto {s₁ : St τ} {p : Pc} (h : LockKept s) (hlock : s₁.lock = s.lock)
    (hpc : s₁.pc = s.pc) (ht : (s.pc t).InSection → p.InSection) : LockKept (s₁.goto t p) := by
  intro v hv
  have hin := h v (hlock ▸ hv)
  rw [goto_pc, hpc]
  split
  · next hvt => exact ht (hvt ▸ hin)
  · exact hin

theorem InvAt.lockKept_advance (hat : InvAt s xs) (h : LockKept s) (hfound : Present s (t, .advance))
    (hs : Rcu.advance s t = some s') : LockKept s' := by
  cases hp : s.pc t with simp only [Rcu.advance, hp] at hs
  | idle | asleep key i e | lost e | wild => cases hs
  | sampled key e =>
      split at hs <;> obtain rfl := Option.some.inj hs <;>
        exact h.goto rfl rfl (by simp [hp, Pc.InSection])
  | notifying i =>
      obtain rfl := Option.some.inj hs
      intro v hv
      have hin := h v hv
      have hne : v ≠ t := by
        rintro rfl
        simp [hp, Pc.InSection] at hin
      simp only [hne, if_false]
      exact (wake_iff fun _ _ _ => Iff.rfl).mpr hin
  | prepared c =>
      obtain ⟨_, ⟨⟩⟩ := Option.ite_none_right_eq_some.mp hs
      intro v hv
      obtain rfl : t = v := Option.some.inj hv
      rw [goto_pc_self]
      trivial
  | locked c =>
      obtain rfl := Option.some.inj hs
      rcases hat.edit hp with ⟨_, _, _, hr, _⟩ | ⟨r, ys, hr, _, _⟩
      · -- a replacement that finds nothing keeps the lock: the guard excludes it
        simp [Present, hp, hr, goesOn] at hfound
      · simp only [St.relink, hr]
        apply h.goto rfl rfl
        intro _
        cases c <;> trivial
  | unlinked removed g | flipped removed g =>
      obtain ⟨_, ⟨⟩⟩ := Option.ite_none_left_eq_some.mp hs
      exact h.goto rfl rfl fun _ => trivial
  | relinked removed g =>
      obtain rfl := Option.some.inj hs
      exact h.goto rfl rfl fun _ => trivial
  | drained removed =>
      obtain rfl := Option.some.inj hs
      intro v hv
      cases hv
  | unlocked removed =>
      obtain rfl := Option.some.inj hs
      cases removed <;> exact h.goto rfl rfl (by simp [hp, Pc.InSection])
  | _ =>
      obtain rfl := Option.some.inj hs
      exact h.goto rfl rfl (by simp [hp, Pc.InSection])

theorem InvAt.lockKept_step {lab : τ × Act} (hat : InvAt s xs) (h : LockKept s)
    (hfound : Present s lab) (hs : Rcu.step s lab = some s') : LockKept s' := by
  rcases lab with ⟨t, act⟩
  cases act with
  | advance => exact hat.lockKept_advance h hfound hs
  | search key =>
      obtain ⟨hp, ⟨⟩⟩ := Option.ite_none_right_eq_some.mp hs
      exact h.goto rfl rfl (by simp [hp, Pc.InSection])
  | notify i =>
      obtain ⟨hp, ⟨⟩⟩ := Option.ite_none_right_eq_some.mp hs
      exact h.goto rfl rfl (by simp [hp, Pc.InSection])
  | signal =>
      cases hp : s.pc t with simp only [Rcu.step, hp] at hs
      | asleep key i e =>
          obtain rfl := Option.some.inj hs
          exact h.goto rfl rfl (by simp [hp, Pc.InSection])
      | _ => cases hs
  | write op kmallocFails =>
      obtain ⟨hp, ⟨⟩⟩ := Option.ite_none_right_eq_some.mp hs
      unfold St.write
      split
      · exact h.goto rfl rfl (by simp [hp, Pc.InSection])
      · split
        · exact h
        · exact h.goto rfl rfl (by simp [hp, Pc.InSection])

instance Present.decidable (s : St τ) (lab : τ × Act) : Decidable (Present s lab) := by
  obtain ⟨t, act⟩ := lab
  rcases act <;> dsimp only [Present] <;> first | infer_instance | (split <;> infer_instance)

end TagMessaging.Rcu
