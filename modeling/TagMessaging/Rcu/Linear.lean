/-
# TagMessaging.Rcu.Linear -- writers and searches take effect at one moment

The runs are those of `HalfLinked`, in which an inner replacement links its element in with two
stores. Between the two the list is cut off behind the new element; the list that counts is the one
with the second store done. Along every run under the guard it is that of the atomic object, state
by state (`writes_atomic`), and what a search returns is what the sequential walk of it answers at
some moment of the search (`search_linearizable`). A reader that follows the link before it is
stored is told that an element is not there which always was: the guard asks that none does.
-/
import TagMessaging.Rcu.HalfLinked

namespace TagMessaging.Rcu

open TagMessaging.Model TagMessaging.Lib.Transition TagMessaging.Lib.Segment

variable {τ : Type} {s : St τ} {f f' f₀ : Halves τ} {t u : τ} {e : Fin 2} {key : Int32} {p : Ptr}
variable {l : AtomicList τ} {ls : List (τ × Act)}

/-- The object that a state in halves stands for. -/
def Halves.Shows (f : Halves τ) (l : AtomicList τ) : Prop := Represents f.full l

theorem Halves.full_pc (f : Halves τ) : f.full.pc = f.list.pc := by
  unfold Halves.full
  split <;> rfl

variable [DecidableEq τ] [Fintype τ]

/-! ## Writers -/

/-- A step in halves is one of the object; the second store is none that the object sees. -/
theorem Halves.Shows.step {lab : τ × Act} (hstands : f.Stands) (h : f.Shows l)
    (hok : Published f lab) (hs : f.step lab = some f') :
    ∃ l', AtomicList.Step l lab l' ∧ f'.Shows l' := by
  obtain ⟨t, act⟩ := lab
  rcases (hstands.step hok hs).2 with ⟨_, hcoarse⟩ | ⟨hact, hfull⟩
  · obtain ⟨⟨_, xs, hat⟩, _⟩ := sound_of_reached hstands.reached
    exact Represents.step hat h hcoarse
  · obtain rfl : act = .advance := hact
    refine ⟨l, .advance t, ?_⟩
    show Represents f'.full l
    rw [hfull]
    exact h

/-- **The writers refine the atomic list.** Every run under the guard, for any number of threads,
goes side by side with one of the object under the same labels. In every state of the two, the
entries of the object are those along the list with the pending store done, and its pending writes
are those between their call and their relinking. -/
theorem writes_atomic (h : Run (halves τ) Published ls f) :
    ∃ l, Run ((halves τ).paired (atomicList τ) Halves.Shows) (fun x lab => Published x.1 lab) ls
      (f, l) := by
  have hrun := h.simulate_paired (T := atomicList τ) (P := fun f l => f.Stands ∧ f.Shows l)
    (Q := Halves.Shows) (fun _ _ hrel => hrel.2) ?_ ?_
  · obtain ⟨l, hpaired, _⟩ := hrun
    exact ⟨l, hpaired⟩
  · intro f hf
    refine ⟨AtomicList.initial, rfl, Halves.stands_initial hf, ?_⟩
    obtain rfl := hf
    exact represents_initial
  · rintro f lab f' l ⟨hstands, hshows⟩ hok hs
    obtain ⟨l', hstep, hshows'⟩ := hshows.step hstands hok hs
    exact ⟨l', hstep, (hstands.step hok hs).1, hshows'⟩

/-- Thread 1 has done the first store of a replacement: the list is cut off behind the new element,
the object has all three entries, the new one among them. -/
theorem writes_atomic_halfway : ∃ (f : Halves (Fin 3)) (l : AtomicList (Fin 3)),
    (f.half = some (1, 3, some 0) ∧ nextOf f.list.elements 3 = some none) ∧
      Run ((halves (Fin 3)).paired (atomicList (Fin 3)) Halves.Shows)
        (fun x lab => Published x.1 lab) (overtaken 3 level3) (f, l) ∧
      Run (atomicList (Fin 3)) Always (overtaken 3 level3) l ∧ f.Shows l := by
  obtain ⟨f, hrun, hp⟩ : ∃ f : Halves (Fin 3),
      Run (halves (Fin 3)) Published (overtaken 3 level3) f ∧
        (f.half = some (1, 3, some 0) ∧ nextOf f.list.elements 3 = some none) :=
    exists_run_of_replay Halves.step _ (overtaken 3 level3) (by decide +kernel)
  obtain ⟨l, hpaired⟩ := writes_atomic hrun
  exact ⟨f, l, hp, hpaired, hpaired.second, hpaired.related⟩

/-! ## Searches -/

/-- A search seeks all the way from its count on. -/
theorem Halves.seeks_of_path (h₀ : f₀.Stands) (hstart : f₀.list.pc u = .counted key e)
    (hpath : Path (halves τ) Published f₀ ls f)
    (hown : ∀ lab ∈ ls, lab.1 = u → lab.2 = .advance) :
    f.Stands ∧ Seeks f.full.elements key e
      (fun p => Sometime (halves τ) Published (fun f => Answers key p f.full) f₀ ls f)
      (f.full.pc u) := by
  induction hpath with
  | refl =>
      refine ⟨h₀, ?_⟩
      rw [full_pc, hstart]
      exact ⟨rfl, rfl⟩
  | @step ls f₁ f₂ lab hpath hok hs ih =>
      obtain ⟨hstands, hseeks⟩ := ih fun lab hlab => hown lab (List.mem_append_left _ hlab)
      obtain ⟨hstands', hmakes⟩ := hstands.step hok hs
      refine ⟨hstands', ?_⟩
      have hlater : ∀ p, Sometime (halves τ) Published (fun f => Answers key p f.full) f₀ ls f₁ →
          Sometime (halves τ) Published (fun f => Answers key p f.full) f₀ (ls ++ [lab]) f₂ :=
        fun p hp => hp.step hok hs
      rcases hmakes with ⟨hcovered, hcoarse⟩ | ⟨_, hfull⟩
      · refine hseeks.step (sound_of_reached hstands.reached) hcovered hcoarse ?_ hlater ?_
        · exact hown lab (List.mem_append_right ls List.mem_cons_self)
        · exact fun p hp => .now (hpath.step hok hs) hp
      · -- the second store: the list that counts is the same
        rw [hfull]
        exact hseeks.mono hlater

/-- **Searches are linearizable.** In every run under the guard, for any number of threads: what
`rcu_list_search` returns is what the sequential search of the list, with the pending store done,
answers in some state between the one in which the reader is counted and the one in which it
returns. -/
theorem search_linearizable (h₀ : Reached (halves τ) Published f₀)
    (hstart : f₀.list.pc u = .counted key e) (hpath : Path (halves τ) Published f₀ ls f)
    (hown : ∀ lab ∈ ls, lab.1 = u → lab.2 = .advance) (hend : f.list.pc u = .returned p) :
    Sometime (halves τ) Published (fun f => Answers key p f.full) f₀ ls f := by
  obtain ⟨_, hseeks⟩ := Halves.seeks_of_path (Halves.stands_of_reached h₀) hstart hpath hown
  rw [Halves.full_pc, hend] at hseeks
  exact hseeks

/-- Thread 0 has loaded the head when thread 1 does the first store of a replacement; it returns the
new element before the second store. -/
theorem search_linearizable_halfway : ∃ f₀ f : Halves (Fin 3),
    f₀.list.pc 0 = .counted 3 1 ∧ f.list.pc 0 = .returned (some 3) ∧
    f.half = some (1, 3, some 0) ∧
    Sometime (halves (Fin 3)) Published (fun f => Answers 3 (some 3) f.full) f₀
      (statements 0 1 ++ (1, .write (.replace ⟨3, none, 1⟩) false) :: statements 1 2 ++
        statements 0 3) f := by
  obtain ⟨f₀, h₀, hstart, hrest⟩ : ∃ f₀ : Halves (Fin 3), Reached (halves (Fin 3)) Published f₀ ∧
      f₀.list.pc 0 = .counted 3 1 ∧ ((replay Published Halves.step f₀
        (statements 0 1 ++ (1, .write (.replace ⟨3, none, 1⟩) false) :: statements 1 2 ++
          statements 0 3)).any fun f =>
          decide (f.list.pc 0 = .returned (some 3) ∧ f.half = some (1, 3, some 0))) = true :=
    exists_reached_of_replay Halves.step _
      (threeInserted ++ (0, .search 3) :: statements 0 2 ++ (2, .notify level3) :: statements 2 1 ++
        statements 0 2)
      (by decide +kernel)
  obtain ⟨f, hpath, hend, hhalf⟩ := exists_path_of_replay hrest
  exact ⟨f₀, f, hstart, hend, hhalf, search_linearizable h₀ hstart hpath (by decide) hend⟩

end TagMessaging.Rcu
