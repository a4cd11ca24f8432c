import Xv6.Kernel.Model
import Xv6.Lib.Runs

namespace Xv6.Sleep

open Kernel (ProcState)
open Function (update)

inductive Chan (L : Type)
  | lock (l : L)
  | other
  deriving DecidableEq

/-- The next thing a process does. `acquire`, `sleepAcquire`, `wakeAcquire`, `killAcquire` and `yieldAcquire` are at
an `acquire` of a spin lock. In `asleep` and `resumed` the process is inside `sched`, or back from it with
`ptable.lock` still held. `wakeup` is called from `releasesleep`, which holds the spin lock
of a sleep lock, or by itself. -/
inductive Pc (P L : Type)
  | idle
  | acquire (l : L)
  | test (l : L)
  | sleepAcquire (l : L)
  | sleepRelease (l : L)
  | sleepSched (l : L)
  | asleep (l : L)
  | releaseAcquire (l : L)
  | clear (l : L)
  | release (l : L)
  | wakeAcquire (chan : Chan L) (lk : Option L)
  | wakeAll (chan : Chan L) (lk : Option L)
  | killAcquire (q : P)
  | killSet (q : P)
  | yieldAcquire
  | yieldSched
  | resumed

variable {P C L : Type}

def Pc.spins : Pc P L → Option L
  | .test l | .sleepAcquire l | .sleepRelease l | .clear l | .release l => some l
  | .wakeAcquire _ lk | .wakeAll _ lk => lk
  | _ => none

def Pc.tables : Pc P L → Bool
  | .sleepRelease _ | .sleepSched _ | .wakeAll _ _ | .killSet _ | .yieldSched => true
  | _ => false

def Pc.suspended : Pc P L → Bool
  | .asleep _ | .resumed => true
  | _ => false

structure Sleeplock where
  locked : Bool
  pid : Nat

/-- `spin` tells who holds the spin lock of each sleep lock; `ptable` who holds `ptable.lock`, a process or the
scheduler of a CPU. `owns` records which locks a process has been given by `acquiresleep` and has not given
back; the kernel does not keep it. -/
structure State (P C L : Type) where
  spin : L → Option P
  lk : L → Sleeplock
  ptable : Option (P ⊕ C)
  proc : C → Option P
  state : P → ProcState
  chan : P → Option (Chan L)
  killed : P → Bool
  pid : P → Nat
  pc : P → Pc P L
  owns : P → L → Bool

/-- All locks are free and every process is about to run for the first time, in `forkret`. -/
def start (pid : P → Nat) : State P C L where
  spin := fun _ => none
  lk := fun _ => ⟨false, 0⟩
  ptable := none
  proc := fun _ => none
  state := fun _ => .runnable
  chan := fun _ => none
  killed := fun _ => false
  pid := pid
  pc := fun _ => .resumed
  owns := fun _ _ => false

inductive Call (P L : Type)
  | acquiresleep (l : L)
  | releasesleep (l : L)
  | wakeup (chan : Chan L)
  | kill (q : P)
  | yield

def Call.entry : Call P L → Pc P L
  | .acquiresleep l => .acquire l
  | .releasesleep l => .releaseAcquire l
  | .wakeup chan => .wakeAcquire chan none
  | .kill q => .killAcquire q
  | .yield => .yieldAcquire

inductive Act (P C L : Type)
  | call (c : C) (k : Call P L)
  | run (c : C)
  | schedule (c : C)
  | dispatch (c : C) (p : P)
  | rest (c : C)

namespace State

variable [DecidableEq P] [DecidableEq C] [DecidableEq L]

def goto (s : State P C L) (p : P) (pc : Pc P L) : State P C L := { s with pc := update s.pc p pc }

def sched (s : State P C L) (c : C) : State P C L :=
  { s with proc := update s.proc c none, ptable := some (.inr c) }

def wakeup1 (s : State P C L) (chan : Chan L) : State P C L :=
  { s with state := fun p => if s.state p = .sleeping ∧ s.chan p = some chan then .runnable else s.state p }

def setSpin (s : State P C L) (l : L) (o : Option P) : State P C L := { s with spin := update s.spin l o }

def setLk (s : State P C L) (p : P) (l : L) (locked : Bool) (pid : Nat) : State P C L :=
  { s with
    lk := update s.lk l ⟨locked, pid⟩
    owns := update s.owns p (update (s.owns p) l locked) }

def setState (s : State P C L) (p : P) (st : ProcState) : State P C L :=
  { s with state := update s.state p st }

def setChan (s : State P C L) (p : P) (chan : Option (Chan L)) : State P C L :=
  { s with chan := update s.chan p chan }

def lockTable (s : State P C L) (o : P ⊕ C) : Option (State P C L) :=
  if s.ptable.isSome then none else some { s with ptable := some o }

def lockSpin (s : State P C L) (l : L) (p : P) : Option (State P C L) :=
  if (s.spin l).isSome then none else some (s.setSpin l (some p))

end State

variable [DecidableEq P] [DecidableEq C] [DecidableEq L]

def runProc (s : State P C L) (c : C) (p : P) : Pc P L → Option (State P C L)
  | .idle => none
  -- acquiresleep
  | .acquire l => (s.lockSpin l p).map (·.goto p (.test l))
  | .test l =>
      if (s.lk l).locked then some (s.goto p (.sleepAcquire l))
      else some (((s.setLk p l true (s.pid p)).setSpin l none).goto p .idle)
  -- sleep
  | .sleepAcquire l => (s.lockTable (.inl p)).map (·.goto p (.sleepRelease l))
  | .sleepRelease l => some ((s.setSpin l none).goto p (.sleepSched l))
  | .sleepSched l => some ((((s.setChan p (some (.lock l))).setState p .sleeping).sched c).goto p (.asleep l))
  | .asleep l => some ({ s.setChan p none with ptable := none }.goto p (.acquire l))
  -- releasesleep
  | .releaseAcquire l => (s.lockSpin l p).map (·.goto p (.clear l))
  | .clear l => some ((s.setLk p l false 0).goto p (.wakeAcquire (.lock l) (some l)))
  | .release l => some ((s.setSpin l none).goto p .idle)
  -- wakeup
  | .wakeAcquire chan lk => (s.lockTable (.inl p)).map (·.goto p (.wakeAll chan lk))
  | .wakeAll chan lk => some ({ s.wakeup1 chan with ptable := none }.goto p (lk.elim .idle .release))
  -- kill
  | .killAcquire q => (s.lockTable (.inl p)).map (·.goto p (.killSet q))
  | .killSet q =>
      some ({ s.setState q (if s.state q = ProcState.sleeping then .runnable else s.state q) with
        killed := update s.killed q true, ptable := none }.goto p .idle)
  -- yield, and the first time in forkret
  | .yieldAcquire => (s.lockTable (.inl p)).map (·.goto p .yieldSched)
  | .yieldSched => some (((s.setState p .runnable).sched c).goto p .resumed)
  | .resumed => some ({ s with ptable := none }.goto p .idle)

def Call.Allowed (s : State P C L) (p : P) : Call P L → Prop
  | .releasesleep l => s.owns p l = true
  | _ => True

instance (s : State P C L) (p : P) (k : Call P L) : Decidable (k.Allowed s p) := by
  unfold Call.Allowed
  split <;> infer_instance

def isIdle : Pc P L → Bool
  | .idle => true
  | _ => false

/-- One step of a CPU: its process calls a function or goes on, or its scheduler takes `ptable.lock`, switches to a
process, or releases the lock. -/
def step (s : State P C L) : Act P C L → Option (State P C L)
  | .call c k => (s.proc c).bind fun p =>
      if isIdle (s.pc p) ∧ k.Allowed s p then some (s.goto p k.entry) else none
  | .run c => (s.proc c).bind fun p => runProc s c p (s.pc p)
  | .schedule c => if (s.proc c).isSome then none else s.lockTable (.inr c)
  | .dispatch c p =>
      if s.ptable = some (.inr c) ∧ s.state p = .runnable then
        some { s.setState p .running with proc := update s.proc c (some p), ptable := some (.inl p) }
      else none
  | .rest c => if s.ptable = some (.inr c) then some { s with ptable := none } else none

inductive Step (s : State P C L) : Act P C L → State P C L → Prop
  | call (c p) (k : Call P L) (hc : s.proc c = some p) (hpc : s.pc p = .idle) (hk : k.Allowed s p) :
      Step s (.call c k) (s.goto p k.entry)
  | acquire (c p l) (hc : s.proc c = some p) (hpc : s.pc p = .acquire l) (hl : s.spin l = none) :
      Step s (.run c) ((s.setSpin l (some p)).goto p (.test l))
  | wait (c p l) (hc : s.proc c = some p) (hpc : s.pc p = .test l) (hl : (s.lk l).locked = true) :
      Step s (.run c) (s.goto p (.sleepAcquire l))
  | take (c p l) (hc : s.proc c = some p) (hpc : s.pc p = .test l) (hl : (s.lk l).locked = false) :
      Step s (.run c) (((s.setLk p l true (s.pid p)).setSpin l none).goto p .idle)
  | sleepAcquire (c p l) (hc : s.proc c = some p) (hpc : s.pc p = .sleepAcquire l) (ht : s.ptable = none) :
      Step s (.run c) ({ s with ptable := some (.inl p) }.goto p (.sleepRelease l))
  | sleepRelease (c p l) (hc : s.proc c = some p) (hpc : s.pc p = .sleepRelease l) :
      Step s (.run c) ((s.setSpin l none).goto p (.sleepSched l))
  | sleepSched (c p l) (hc : s.proc c = some p) (hpc : s.pc p = .sleepSched l) :
      Step s (.run c) ((((s.setChan p (some (.lock l))).setState p .sleeping).sched c).goto p (.asleep l))
  | awake (c p l) (hc : s.proc c = some p) (hpc : s.pc p = .asleep l) :
      Step s (.run c) ({ s.setChan p none with ptable := none }.goto p (.acquire l))
  | releaseAcquire (c p l) (hc : s.proc c = some p) (hpc : s.pc p = .releaseAcquire l) (hl : s.spin l = none) :
      Step s (.run c) ((s.setSpin l (some p)).goto p (.clear l))
  | clear (c p l) (hc : s.proc c = some p) (hpc : s.pc p = .clear l) :
      Step s (.run c) ((s.setLk p l false 0).goto p (.wakeAcquire (.lock l) (some l)))
  | release (c p l) (hc : s.proc c = some p) (hpc : s.pc p = .release l) :
      Step s (.run c) ((s.setSpin l none).goto p .idle)
  | wakeAcquire (c p chan lk) (hc : s.proc c = some p) (hpc : s.pc p = .wakeAcquire chan lk)
      (ht : s.ptable = none) :
      Step s (.run c) ({ s with ptable := some (.inl p) }.goto p (.wakeAll chan lk))
  | wakeAll (c p chan lk) (hc : s.proc c = some p) (hpc : s.pc p = .wakeAll chan lk) :
      Step s (.run c) ({ s.wakeup1 chan with ptable := none }.goto p (lk.elim .idle .release))
  | killAcquire (c p q) (hc : s.proc c = some p) (hpc : s.pc p = .killAcquire q) (ht : s.ptable = none) :
      Step s (.run c) ({ s with ptable := some (.inl p) }.goto p (.killSet q))
  | killSet (c p q) (hc : s.proc c = some p) (hpc : s.pc p = .killSet q) :
      Step s (.run c) ({ s.setState q (if s.state q = ProcState.sleeping then .runnable else s.state q) with
        killed := update s.killed q true, ptable := none }.goto p .idle)
  | yieldAcquire (c p) (hc : s.proc c = some p) (hpc : s.pc p = .yieldAcquire) (ht : s.ptable = none) :
      Step s (.run c) ({ s with ptable := some (.inl p) }.goto p .yieldSched)
  | yieldSched (c p) (hc : s.proc c = some p) (hpc : s.pc p = .yieldSched) :
      Step s (.run c) (((s.setState p .runnable).sched c).goto p .resumed)
  | resumed (c p) (hc : s.proc c = some p) (hpc : s.pc p = .resumed) :
      Step s (.run c) ({ s with ptable := none }.goto p .idle)
  | schedule (c) (hc : s.proc c = none) (ht : s.ptable = none) :
      Step s (.schedule c) { s with ptable := some (.inr c) }
  | dispatch (c p) (ht : s.ptable = some (.inr c)) (hp : s.state p = .runnable) :
      Step s (.dispatch c p)
        { s.setState p .running with proc := update s.proc c (some p), ptable := some (.inl p) }
  | rest (c) (ht : s.ptable = some (.inr c)) : Step s (.rest c) { s with ptable := none }

omit [DecidableEq P] [DecidableEq C] [DecidableEq L] in
theorem lockTable_eq_some {s t : State P C L} {o : P ⊕ C} (h : s.lockTable o = some t) :
    s.ptable = none ∧ t = { s with ptable := some o } := by
  simp only [State.lockTable, Option.ite_none_left_eq_some, Option.not_isSome_iff_eq_none, Option.some.injEq] at h
  exact ⟨h.1, h.2.symm⟩

omit [DecidableEq P] [DecidableEq C] in
theorem lockSpin_eq_some {s t : State P C L} {l : L} {p : P} (h : s.lockSpin l p = some t) :
    s.spin l = none ∧ t = s.setSpin l (some p) := by
  simp only [State.lockSpin, Option.ite_none_left_eq_some, Option.not_isSome_iff_eq_none, Option.some.injEq] at h
  exact ⟨h.1, h.2.symm⟩

theorem runProc_cases {s t : State P C L} {c : C} {p : P} (hc : s.proc c = some p)
    (h : runProc s c p (s.pc p) = some t) : Step s (.run c) t := by
  have table {pc : Pc P L} (h : (s.lockTable (.inl p)).map (·.goto p pc) = some t) :
      s.ptable = none ∧ { s with ptable := some (.inl p) }.goto p pc = t := by
    obtain ⟨u, hu, rfl⟩ := Option.map_eq_some_iff.mp h
    obtain ⟨ht, rfl⟩ := lockTable_eq_some hu
    exact ⟨ht, rfl⟩
  have spin {l : L} {pc : Pc P L} (h : (s.lockSpin l p).map (·.goto p pc) = some t) :
      s.spin l = none ∧ (s.setSpin l (some p)).goto p pc = t := by
    obtain ⟨u, hu, rfl⟩ := Option.map_eq_some_iff.mp h
    obtain ⟨hl, rfl⟩ := lockSpin_eq_some hu
    exact ⟨hl, rfl⟩
  cases hpc : s.pc p with
  | idle =>
      rw [hpc] at h
      cases h
  | test l =>
      rw [hpc, runProc] at h
      split at h
      next hl => exact Option.some.inj h ▸ .wait c p l hc hpc hl
      next hl => exact Option.some.inj h ▸ .take c p l hc hpc (Bool.eq_false_iff.mpr hl)
  | acquire l =>
      rw [hpc, runProc] at h
      exact (spin h).2 ▸ .acquire c p l hc hpc (spin h).1
  | releaseAcquire l =>
      rw [hpc, runProc] at h
      exact (spin h).2 ▸ .releaseAcquire c p l hc hpc (spin h).1
  | sleepAcquire l =>
      rw [hpc, runProc] at h
      exact (table h).2 ▸ .sleepAcquire c p l hc hpc (table h).1
  | wakeAcquire chan lk =>
      rw [hpc, runProc] at h
      exact (table h).2 ▸ .wakeAcquire c p chan lk hc hpc (table h).1
  | killAcquire q =>
      rw [hpc, runProc] at h
      exact (table h).2 ▸ .killAcquire c p q hc hpc (table h).1
  | yieldAcquire =>
      rw [hpc, runProc] at h
      exact (table h).2 ▸ .yieldAcquire c p hc hpc (table h).1
  | sleepRelease l =>
      rw [hpc] at h
      exact Option.some.inj h ▸ .sleepRelease c p l hc hpc
  | sleepSched l =>
      rw [hpc] at h
      exact Option.some.inj h ▸ .sleepSched c p l hc hpc
  | asleep l =>
      rw [hpc] at h
      exact Option.some.inj h ▸ .awake c p l hc hpc
  | clear l =>
      rw [hpc] at h
      exact Option.some.inj h ▸ .clear c p l hc hpc
  | release l =>
      rw [hpc] at h
      exact Option.some.inj h ▸ .release c p l hc hpc
  | wakeAll chan lk =>
      rw [hpc] at h
      exact Option.some.inj h ▸ .wakeAll c p chan lk hc hpc
  | killSet q =>
      rw [hpc] at h
      exact Option.some.inj h ▸ .killSet c p q hc hpc
  | yieldSched =>
      rw [hpc] at h
      exact Option.some.inj h ▸ .yieldSched c p hc hpc
  | resumed =>
      rw [hpc] at h
      exact Option.some.inj h ▸ .resumed c p hc hpc

theorem step_cases {s t : State P C L} {a : Act P C L} (h : step s a = some t) : Step s a t := by
  cases a with
  | call c k =>
      obtain ⟨p, hc, h⟩ := Option.bind_eq_some_iff.mp h
      simp only [Option.ite_none_right_eq_some, Option.some.injEq] at h
      obtain ⟨⟨hidle, hk⟩, rfl⟩ := h
      have hpc : s.pc p = .idle := by
        cases hpc : s.pc p <;> first | rfl | (rw [hpc] at hidle; cases hidle)
      exact .call c p k hc hpc hk
  | run c =>
      obtain ⟨p, hc, h⟩ := Option.bind_eq_some_iff.mp h
      exact runProc_cases hc h
  | schedule c =>
      simp only [step, Option.ite_none_left_eq_some, Option.not_isSome_iff_eq_none] at h
      obtain ⟨ht, rfl⟩ := lockTable_eq_some h.2
      exact .schedule c h.1 ht
  | dispatch c p =>
      simp only [step, Option.ite_none_right_eq_some, Option.some.injEq] at h
      exact h.2 ▸ .dispatch c p h.1.1 h.1.2
  | rest c =>
      simp only [step, Option.ite_none_right_eq_some, Option.some.injEq] at h
      exact h.2 ▸ .rest c h.1

end Xv6.Sleep
