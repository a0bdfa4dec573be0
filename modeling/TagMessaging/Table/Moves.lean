/-
# TagMessaging.Table.Moves -- what one step of a thread can do to the table

The inversion of `step`. Most of what a call does, a receiver's wait or the 32 wake-ups of
`AWAKE_ALL`, leaves the table and the lock alone: these steps are one constructor of `Move`. Each
step that matters to the table or to the lock has a constructor of its own, with all it reads.
-/
import TagMessaging.Table.Steps

namespace TagMessaging.Table

open TagMessaging.Model TagMessaging.Lib.Transition TagMessaging.Lib.RwLock

variable {τ : Type} {s s' : St τ} {t : τ} {p q : Pc} {a b : Addr}

/-! ## Places -/

/-- `REMOVE` never gives the lock up before its permission check. -/
def Pc.Misplaced : Pc → Prop
  | .holding _ (.remove _) _ => True
  | _ => False

/-- A call that holds no lock and owes the counter nothing. -/
def Pc.Outside : Pc → Prop
  | .holding _ (.remove _) _ => False
  | .idle | .creating .. | .created _ | .looking .. | .holding .. | .opening _ | .sending ..
  | .replaced .. | .noticed .. | .receiving .. | .queued .. | .awakened .. | .left _ | .waking ..
  | .awoken | .wild => True
  | _ => False

/-- A call that may end at its next step and change nothing: an outside one, or one that keeps the
lock it holds, as `REMOVE` does when it refuses and `CREATE` when it finds no slot. -/
def Pc.Stops : Pc → Prop
  | .writing .. | .choosing .. | .reading .. | .found .. | .checked _ | .unused _ | .loaded .. =>
      True
  | p => p.Outside

theorem Pc.Outside.stops (h : p.Outside) : p.Stops := by
  cases p <;> trivial

theorem outside_start (a : Addr) {op : Op} (h : ∀ tag, op ≠ .remove tag) :
    (op.start a).Outside := by
  cases op with
  | remove tag => exact absurd rfl (h tag)
  | _ => trivial

theorem outside_nextLevel (level : Fin levelDeep) (a : Addr) : (nextLevel level a).Outside := by
  unfold nextLevel
  split <;> trivial

theorem wake_eq_or_outside (level : Fin levelDeep) (b : Addr) (p : Pc) :
    p.wake level b = p ∨ p.Stops ∧ (p.wake level b).Outside := by
  by_cases hp : p = .queued level b
  · right
    subst hp
    simp [Pc.wake, Pc.Stops, Pc.Outside]
  · left
    simp [Pc.wake, hp]

variable [DecidableEq τ]

/-! ## Moves -/

/-- What a step of thread `t` does. -/
inductive Move (s : St τ) (t : τ) : St τ → Prop
  /-- The table, the lock and the counter stay. -/
  | outside (pc : τ → Pc) (h : ∀ u, pc u = s.pc u ∨ (s.pc u).Stops ∧ (pc u).Outside) :
      Move s t { s with pc := pc }
  | enter {c key perm} (hp : s.pc t = .creating c key perm)
      (hcount : s.serviceCount < UInt32.ofNat minSysTagServices) :
      Move s t (s.goto t (.admitted c key perm))
  | writeLock {c key perm} (hp : s.pc t = .admitted c key perm)
      (hgrant : s.lock.Grants .writeLock) :
      Move s t ((s.lockOp .writeLock).goto t (.writing c key perm))
  | search {c key perm} (hp : s.pc t = .writing c key perm)
      (hnone : key ≠ tagIpcPrivate → Table.search s (fun service => service.key = key)
        (List.finRange minSysTagServices) = some none) :
      Move s t (s.goto t (.choosing c key perm))
  | refuse {c key perm} (hp : s.pc t = .writing c key perm) : Move s t (s.goto t .refused)
  | choose {c key perm i} (hp : s.pc t = .choosing c key perm) (hfree : freeSlot s = some i) :
      Move s t (s.goto t (.filling c key perm i))
  | fill {c key perm i} (hp : s.pc t = .filling c key perm i) :
      Move s t ((s.fill i (newService c key perm i)).goto t (.filled key s.brk))
  | count {key} {a : Addr} (hp : s.pc t = .filled key a) (hkey : key ≠ tagIpcPrivate) :
      Move s t ((s.addCount 1).goto t (.counted a))
  /-- A private service: the lock goes before the counter. -/
  | unlock {a : Addr} (hp : s.pc t = .filled tagIpcPrivate a) :
      Move s t ((s.lockOp .writeUnlock).goto t (.unlocked a))
  | raise {a : Addr} (hp : s.pc t = .unlocked a) : Move s t ((s.addCount 1).goto t (.created a))
  | writeUnlock {q : Pc} (hp : s.pc t = .refused ∨ ∃ a, s.pc t = .counted a) (hq : q.Outside) :
      Move s t ((s.lockOp .writeUnlock).goto t q)
  | readLock {c op} (hp : s.pc t = .looking c op) (hgrant : s.lock.Grants .readLock) :
      Move s t ((s.lockOp .readLock).goto t (.reading c op))
  | find {c op} {q : Pc} (hp : s.pc t = .reading c op) (hq : q = .missed ∨ ∃ a, q = .found c op a) :
      Move s t (s.goto t q)
  | readUnlock {q : Pc} (hp : s.pc t = .missed ∨ ∃ c op a, s.pc t = .found c op a)
      (hq : q.Outside) :
      Move s t ((s.lockOp .readUnlock).goto t q)
  | permit {c tag} {a : Addr} {service} (hp : s.pc t = .found c (.remove tag) a)
      (hservice : s.services a = some service) (hvalid : validServiceOperation c service = true) :
      Move s t (s.goto t (.checked a))
  | look {a : Addr} (hp : s.pc t = .checked a) (hsleepers : ¬ HasSleepers s a) :
      Move s t (s.goto t (.unused a))
  | load {a : Addr} {service i} (hp : s.pc t = .unused a) (hservice : s.services a = some service)
      (hindex : tagIndex service = some i) : Move s t (s.goto t (.loaded a (s.slots i)))
  | clear {a : Addr} {tmp service i} (hp : s.pc t = .loaded a tmp)
      (hservice : s.services a = some service) (hindex : tagIndex service = some i) :
      Move s t ((s.clear i).goto t (.cleared a tmp))
  | kfree {a : Addr} {tmp} (hp : s.pc t = .cleared a tmp) :
      Move s t ((s.kfree tmp).goto t (.freed a))
  | discount {a : Addr} (hp : s.pc t = .freed a) :
      Move s t ((s.addCount (-1)).goto t (.discounted a))
  | finish {a : Addr} (hp : s.pc t = .discounted a) :
      Move s t ({ s.lockOp .readUnlock with
        removals := Function.update s.removals a (s.removals a + 1) }.goto t .idle)
  /-- The stray `write_unlock` of `AWAKE_ALL`. -/
  | stray (hp : s.pc t = .awoken) : Move s t ((s.lockOp .writeUnlock).goto t .idle)

/-- A thread that stops, or goes on outside. -/
theorem Move.goto (hp : (s.pc t).Stops) (hq : q.Outside) : Move s t (s.goto t q) := by
  refine .outside _ fun u => ?_
  by_cases hu : u = t
  · subst hu
    exact .inr ⟨hp, by simpa using hq⟩
  · exact .inl (by simp [hu])

theorem Move.wakeAll {level : Fin levelDeep} (hp : (s.pc t).Outside) (hq : q.Outside) :
    Move s t ((s.wakeAll level b).goto t q) := by
  refine .outside _ fun u => ?_
  by_cases hu : u = t
  · subst hu
    exact .inr ⟨hp.stops, by simpa using hq⟩
  · simpa [St.wakeAll, hu] using wake_eq_or_outside level b (s.pc u)

/-- An access to a record: it is there, or the thread stops. -/
theorem Move.access {next : TAGService → St τ} (hp : (s.pc t).Stops)
    (hnext : ∀ service, s.services a = some service → Move s t (next service)) :
    Move s t (s.access t a next) := by
  unfold St.access
  split
  · exact .goto hp trivial
  · exact hnext _ ‹_›

theorem Move.accessSlot {next : Fin minSysTagServices → St τ} (hp : (s.pc t).Stops)
    (hnext : ∀ service i, s.services a = some service → tagIndex service = some i →
      Move s t (next i)) :
    Move s t (s.accessSlot t a next) := by
  refine .access hp fun service hservice => ?_
  split
  · exact .goto hp trivial
  · exact hnext _ _ hservice ‹_›

variable [Fintype τ]

theorem move_advance (hheld : ¬ (s.pc t).Misplaced) (hs : advance s t = some s') : Move s t s' := by
  have stops : ∀ {p}, s.pc t = p → p.Stops → (s.pc t).Stops := by
    rintro p rfl hp
    exact hp
  cases hp : s.pc t with simp only [advance, hp] at hs
  | idle | wild => cases hs
  | creating c key perm =>
      obtain rfl := Option.some.inj hs
      split
      · exact .goto (stops hp trivial) trivial
      · exact .enter hp (UInt32.not_le.mp ‹_›)
  | admitted c key perm =>
      obtain ⟨hgrant, ⟨⟩⟩ := Option.ite_none_right_eq_some.mp hs
      exact .writeLock hp hgrant
  | looking c op =>
      obtain ⟨hgrant, ⟨⟩⟩ := Option.ite_none_right_eq_some.mp hs
      exact .readLock hp hgrant
  | writing c key perm =>
      split at hs <;> obtain rfl := Option.some.inj hs
      · exact .search hp (absurd ‹_›)
      · unfold St.lookup
        split
        · exact .goto (stops hp trivial) trivial
        · rename_i r hr
          cases r with
          | none => exact .search hp fun _ => hr
          | some a => exact .refuse hp
  | refused =>
      obtain rfl := Option.some.inj hs
      exact .writeUnlock (.inl hp) trivial
  | choosing c key perm =>
      split at hs <;> obtain rfl := Option.some.inj hs
      · exact .goto (stops hp trivial) trivial
      · exact .choose hp ‹_›
  | filling c key perm i =>
      obtain rfl := Option.some.inj hs
      exact .fill hp
  | filled key a =>
      split at hs <;> obtain rfl := Option.some.inj hs
      · subst_vars
        exact .unlock hp
      · exact .count hp ‹_›
  | counted a =>
      obtain rfl := Option.some.inj hs
      exact .writeUnlock (.inr ⟨a, hp⟩) trivial
  | unlocked a =>
      obtain rfl := Option.some.inj hs
      exact .raise hp
  | missed =>
      obtain rfl := Option.some.inj hs
      exact .readUnlock (.inl hp) trivial
  | reading c op =>
      obtain rfl := Option.some.inj hs
      unfold St.lookup
      split
      · exact .goto (stops hp trivial) trivial
      · rename_i r hr
        cases r with
        | none => exact .find hp (.inl rfl)
        | some a => exact .find hp (.inr ⟨a, rfl⟩)
  | found c op a =>
      cases op with
      | remove tag =>
          obtain rfl := Option.some.inj hs
          refine .access (stops hp trivial) fun service hservice => ?_
          split
          · exact .permit hp hservice ‹_›
          · exact .goto (stops hp trivial) trivial
      | «open» key | send tag level | receive tag level | awakeAll tag =>
          obtain rfl := Option.some.inj hs
          exact .readUnlock (.inr ⟨_, _, _, hp⟩) trivial
  | holding c op a =>
      obtain rfl := Option.some.inj hs
      -- no `REMOVE` gives the lock up before its check
      have hop : ∀ tag, op ≠ .remove tag := by
        rintro tag rfl
        exact hheld (hp ▸ trivial)
      have hstops : (s.pc t).Stops := stops hp (by cases op <;> first | trivial | exact hop _ rfl)
      refine .access hstops fun service hservice => ?_
      split
      · exact .goto hstops (outside_start a hop)
      · exact .goto hstops trivial
  | created a | opening a | left a | sending level a | receiving level a | queued level a
  | awakened level a =>
      obtain rfl := Option.some.inj hs
      exact .access (stops hp trivial) fun _ _ => .goto (stops hp trivial) trivial
  | replaced level a =>
      obtain rfl := Option.some.inj hs
      refine .access (stops hp trivial) fun _ _ => .goto (stops hp trivial) ?_
      split <;> trivial
  | noticed level a =>
      obtain rfl := Option.some.inj hs
      exact .access (stops hp trivial) fun _ _ => .wakeAll (by rw [hp]; trivial) trivial
  | waking level a =>
      obtain rfl := Option.some.inj hs
      exact .access (stops hp trivial) fun _ _ =>
        .wakeAll (by rw [hp]; trivial) (outside_nextLevel level a)
  | awoken =>
      obtain rfl := Option.some.inj hs
      exact .stray hp
  | checked a =>
      obtain rfl := Option.some.inj hs
      refine .access (stops hp trivial) fun _ _ => ?_
      split
      · exact .goto (stops hp trivial) trivial
      · exact .look hp ‹_›
  | unused a =>
      obtain rfl := Option.some.inj hs
      exact .accessSlot (stops hp trivial) fun _ _ hservice hindex => .load hp hservice hindex
  | loaded a tmp =>
      obtain rfl := Option.some.inj hs
      exact .accessSlot (stops hp trivial) fun _ _ hservice hindex => .clear hp hservice hindex
  | cleared a tmp =>
      obtain rfl := Option.some.inj hs
      exact .kfree hp
  | freed a =>
      obtain rfl := Option.some.inj hs
      exact .discount hp
  | discounted a =>
      obtain rfl := Option.some.inj hs
      exact .finish hp

/-- Every step is a move. No call is ever misplaced (`Locked.held`). -/
theorem move_of_step {l : τ × Act} (hheld : ¬ (s.pc l.1).Misplaced) (hs : step s l = some s') :
    Move s l.1 s' := by
  obtain ⟨t, act⟩ := l
  cases act with
  | advance => exact move_advance hheld hs
  | create c key perm | call c op =>
      obtain ⟨hp, ⟨⟩⟩ := Option.ite_none_right_eq_some.mp hs
      exact .goto (by rw [hp]; trivial) trivial
  | sleepAgain =>
      cases hp : s.pc t with simp only [step, hp] at hs
      | awakened level a =>
          obtain rfl := Option.some.inj hs
          have hstops : (s.pc t).Stops := by rw [hp]; trivial
          exact .access hstops fun _ _ => .goto hstops trivial
      | _ => cases hs

end TagMessaging.Table
