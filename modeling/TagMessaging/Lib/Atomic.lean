/-
# TagMessaging.Lib.Atomic -- sleeping while a lock is held

The trace of one thread over named spin locks: it acquires them, releases them, and does things that
may put it to sleep. `Awake` says that nothing of the last kind comes while a lock is held. `Watch`
is the monitor that follows the trace and remembers whether it has seen that, and `awake_iff` that
it is right. With the monitor a routine has a specification of its own: what it turns the watch
before it into.
-/
import Mathlib

namespace TagMessaging.Lib.Atomic

variable {κ : Type*} [DecidableEq κ]

/-- One thing the thread does. -/
inductive Op (κ : Type*) where
  | acquire (k : κ)
  | release (k : κ)
  /-- An operation that may sleep. -/
  | sleep
  deriving DecidableEq

/-- The locks held, newest first, after one more operation. -/
def hold (held : List κ) : Op κ → List κ
  | .acquire k => k :: held
  | .release k => held.erase k
  | .sleep => held

/-- The locks held after the operations. -/
def heldAfter (ops : List (Op κ)) : List κ := ops.foldl hold []

/-- No operation that may sleep comes while a lock is held. -/
def Awake (ops : List (Op κ)) : Prop := ∀ pre, pre ++ [.sleep] <+: ops → heldAfter pre = []

/-! ## The monitor -/

/-- The locks held, and whether an operation that may sleep has come while one was. -/
structure Watch (κ : Type*) where
  held : List κ
  slept : Bool
  deriving DecidableEq

/-- Before anything was done. -/
def Watch.start : Watch κ := { held := [], slept := false }

/-- The watch after one more operation. -/
def Watch.see (k : Watch κ) : Op κ → Watch κ
  | .acquire l => { k with held := l :: k.held }
  | .release l => { k with held := k.held.erase l }
  | .sleep => { k with slept := k.slept || !k.held.isEmpty }

/-- The watch after the operations. -/
def watch (ops : List (Op κ)) : Watch κ := ops.foldl Watch.see .start

variable {k : Watch κ} {ops : List (Op κ)}

theorem watch_concat (ops : List (Op κ)) (op : Op κ) : watch (ops ++ [op]) = (watch ops).see op :=
  List.foldl_concat ..

/-- The locks of the watch are the locks held. -/
theorem watch_held (ops : List (Op κ)) : (watch ops).held = heldAfter ops := by
  induction ops using List.reverseRecOn with
  | nil => rfl
  | append_singleton ops op ih =>
      have hheld : heldAfter (ops ++ [op]) = hold (heldAfter ops) op := List.foldl_concat ..
      rw [watch_concat, hheld, ← ih]
      cases op <;> rfl

/-- The monitor is right. -/
theorem awake_iff : Awake ops ↔ (watch ops).slept = false := by
  induction ops using List.reverseRecOn with
  | nil =>
      refine iff_of_true (fun pre hpre => ?_) rfl
      have hlen := hpre.length_le
      simp at hlen
  | append_singleton ops op ih =>
      have hsplit : Awake (ops ++ [op]) ↔ Awake ops ∧ (op = .sleep → heldAfter ops = []) := by
        constructor
        · intro h
          refine ⟨fun pre hpre => h pre (hpre.trans (List.prefix_append ..)), ?_⟩
          rintro rfl
          exact h ops (List.prefix_refl _)
        · rintro ⟨hold, hlast⟩ pre hpre
          rcases List.prefix_concat_iff.mp hpre with heq | hpre
          · obtain ⟨rfl, hop⟩ := List.append_inj' heq rfl
            exact hlast (List.singleton_inj.mp hop).symm
          · exact hold pre hpre
      rw [hsplit, ih, watch_concat, ← watch_held]
      cases op with
      | acquire l | release l => simp [Watch.see]
      | sleep => simp [Watch.see]

/-! ## What a routine does to a watch -/

/-- Sleeping twice shows no more than sleeping once. -/
theorem see_sleep_sleep (k : Watch κ) : (k.see .sleep).see .sleep = k.see .sleep := by
  simp [Watch.see]

/-- A lock released right away. -/
theorem see_acquire_release (k : Watch κ) (l : κ) : (k.see (.acquire l)).see (.release l) = k := by
  simp [Watch.see]

/-- Sleeping with no lock held. -/
theorem see_sleep_of_free (h : k.held = []) : k.see .sleep = k := by
  show ({ held := k.held, slept := k.slept || !k.held.isEmpty } : Watch κ) = k
  rw [h, List.isEmpty_nil, Bool.not_true, Bool.or_false, ← h]

theorem slept_of_held {l : κ} : ((k.see (.acquire l)).see .sleep).slept = true := by
  simp [Watch.see]

/-- A sleep under a lock stays seen. -/
theorem see_slept (op : Op κ) (h : k.slept = true) : (k.see op).slept = true := by
  cases op <;> simp [Watch.see, h]

@[simp] theorem see_acquire_slept (l : κ) : (k.see (.acquire l)).slept = k.slept := rfl

@[simp] theorem see_release_slept (l : κ) : (k.see (.release l)).slept = k.slept := rfl

end TagMessaging.Lib.Atomic
