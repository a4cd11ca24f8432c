import Xv6.Kernel.Model
import Xv6.Lib.Runs

namespace Xv6.Sleep.Missed

open Kernel (ProcState)

/-- The calls that sleep in a loop under a spin lock of their own. Pipes are numbered. -/
inductive Call
  | piperead (k : Nat)
  | pipewrite (k : Nat)
  | consoleread
  | sysSleep
  deriving DecidableEq

inductive Lock
  | pipe (k : Nat)
  | input
  | ticks
  deriving DecidableEq

inductive Chan (P : Type)
  | nread (k : Nat)
  | nwrite (k : Nat)
  | inputR
  | ticks
  | proc (p : P)
  | other
  deriving DecidableEq

def Call.lock : Call → Lock
  | .piperead k | .pipewrite k => .pipe k
  | .consoleread => .input
  | .sysSleep => .ticks

def Call.chan {P : Type} : Call → Chan P
  | .piperead k => .nread k
  | .pipewrite k => .nwrite k
  | .consoleread => .inputR
  | .sysSleep => .ticks

/-- Where a process is: at the `acquire` of the lock, at the condition of the `while`, before the test of
`proc->killed`, after it, after the `wakeup` that `pipewrite` makes before it sleeps, or inside `sleep`. In
`wait` it is at the top of the loop or inside `sleep`. -/
inductive Pc
  | user
  | enter (c : Call)
  | loop (c : Call)
  | body (c : Call)
  | tested (c : Call)
  | woke (c : Call)
  | asleep (c : Call)
  | waiting
  | waitAsleep
  deriving DecidableEq

def Pc.holds : Pc → Option Lock
  | .loop c | .body c | .tested c | .woke c => some c.lock
  | _ => none

structure Proc (P : Type) where
  state : ProcState
  killed : Bool
  chan : Option (Chan P)
  pc : Pc
  deriving DecidableEq

structure State (P : Type) where
  proc : P → Proc P
  lock : Lock → Option P

variable {P : Type} [DecidableEq P]

def start : State P := ⟨fun _ => ⟨.runnable, false, none, .user⟩, fun _ => none⟩

namespace State

def setProc (s : State P) (p : P) (x : Proc P) : State P := { s with proc := Function.update s.proc p x }

def goto (s : State P) (p : P) (pc : Pc) : State P := s.setProc p { s.proc p with pc }

def setLock (s : State P) (l : Lock) (o : Option P) : State P := { s with lock := Function.update s.lock l o }

def wakeup (s : State P) (chan : Chan P) : State P :=
  { s with proc := fun q =>
      if (s.proc q).state = .sleeping ∧ (s.proc q).chan = some chan then { s.proc q with state := .runnable }
      else s.proc q }

/-- The part of `sleep` under `ptable.lock`, up to `sched`. -/
def sleep (s : State P) (p : P) (chan : Chan P) (pc : Pc) : State P :=
  s.setProc p { s.proc p with state := .sleeping, chan := some chan, pc }

def kill (s : State P) (q : P) : State P :=
  s.setProc q
    { s.proc q with
      killed := true
      state := if (s.proc q).state = .sleeping then .runnable else (s.proc q).state }

end State

/-- Steps of a process. The conditions of the loops depend on data that other processes change under the lock;
how they come out is part of the step. Everything under `ptable.lock` is one step. -/
inductive Act (P : Type)
  /-- A call is made. -/
  | call (p : P) (c : Call)
  | acquire (p : P)
  /-- The condition of the `while`. If it does not hold, the call goes on to its next round or returns. -/
  | test (p : P) (blocked more : Bool)
  /-- The test of `proc->killed`, in `pipewrite` after that of `p->readopen`. -/
  | check (p : P) (readopen : Bool)
  /-- `wakeup(&p->nread)` in `pipewrite` -/
  | wake (p : P)
  | sleep (p : P)
  /-- `sched` has returned to `sleep`. -/
  | resume (p : P)
  | wait (p : P)
  /-- One round of the loop in `wait`, with what it finds: a zombie, or no child. -/
  | scan (p : P) (zombie havekids : Bool)
  | kill (p q : P)
  | fault (p : P)
  /-- A `wakeup` in other code or in an interrupt. -/
  | wakeup (chan : Chan P)
  | dispatch (p : P)
  | yield (p : P)

/-- The round of `wait` after the search of the table. -/
def scan (s : State P) (p : P) (zombie havekids : Bool) : State P :=
  if zombie then s.goto p .user
  else if havekids = false ∨ (s.proc p).killed = true then s.goto p .user
  else s.sleep p (.proc p) .waitAsleep

def runProc (s : State P) (p : P) : Act P → Pc → Option (State P)
  | .call _ c, .user => some (s.goto p (.enter c))
  | .acquire _, .enter c =>
      if s.lock c.lock = none then some ((s.setLock c.lock (some p)).goto p (.loop c)) else none
  | .test _ true _, .loop c => some (s.goto p (.body c))
  | .test _ false true, .loop c => some (s.goto p (.loop c))
  | .test _ false false, .loop c => some ((s.setLock c.lock none).goto p .user)
  | .check _ readopen, .body (.pipewrite k) =>
      if readopen = false ∨ (s.proc p).killed = true then some ((s.setLock (.pipe k) none).goto p .user)
      else some (s.goto p (.tested (.pipewrite k)))
  | .check _ _, .body c =>
      if (s.proc p).killed = true then some ((s.setLock c.lock none).goto p .user) else some (s.goto p (.tested c))
  | .wake _, .tested (.pipewrite k) => some ((s.wakeup (.nread k)).goto p (.woke (.pipewrite k)))
  | .sleep _, .tested (.pipewrite _) => none
  | .sleep _, .tested c | .sleep _, .woke c => some ((s.setLock c.lock none).sleep p c.chan (.asleep c))
  | .resume _, .asleep c => some (s.setProc p { s.proc p with chan := none, pc := .enter c })
  | .resume _, .waitAsleep => some (s.setProc p { s.proc p with chan := none, pc := .waiting })
  | .wait _, .user => some (s.goto p .waiting)
  | .scan _ zombie havekids, .waiting => some (scan s p zombie havekids)
  | .kill _ q, .user => some (s.kill q)
  | .fault _, .user => some (s.setProc p { s.proc p with killed := true })
  | .yield _, pc => if pc.holds = none then some (s.setProc p { s.proc p with state := .runnable }) else none
  | _, _ => none

def Act.actor : Act P → Option P
  | .call p _ | .acquire p | .test p _ _ | .check p _ | .wake p | .sleep p | .resume p | .wait p | .scan p
      _ _ | .kill p _
  | .fault p | .yield p => some p
  | .wakeup _ | .dispatch _ => none

def step (s : State P) (a : Act P) : Option (State P) :=
  match a, a.actor with
  | .wakeup chan, _ => some (s.wakeup chan)
  | .dispatch p, _ =>
      if (s.proc p).state = .runnable then some (s.setProc p { s.proc p with state := .running }) else none
  | a, some p => if (s.proc p).state = .running then runProc s p a (s.proc p).pc else none
  | _, none => none

def Pc.late : Pc → Bool
  | .tested _ | .woke _ => true
  | _ => false

def Clear (s : State P) : Act P → Prop
  | .kill _ q => (s.proc q).pc.late = false
  | _ => True

instance (s : State P) (a : Act P) : Decidable (Clear s a) :=
  match a with
  | .kill _ _ => inferInstanceAs (Decidable (_ = _))
  | .call _ _ | .acquire _ | .test _ _ _ | .check _ _ | .wake _ | .sleep _ | .resume _ | .wait _ | .scan _
      _ _ | .fault _
  | .wakeup _ | .dispatch _ | .yield _ => .isTrue trivial

def Proc.Heeds (x : Proc P) : Prop := x.killed = true → x.state ≠ .sleeping ∧ x.pc.late = false

def Heeded (s : State P) : Prop := ∀ q, (s.proc q).Heeds

variable {s t : State P} {p : P}

theorem heeded_setProc {x : Proc P} (h : Heeded s) (hx : x.Heeds) : Heeded (s.setProc p x) := by
  intro q
  by_cases hq : q = p
  · subst hq
    simpa [State.setProc] using hx
  · simpa [State.setProc, hq] using h q

theorem heeded_goto {pc : Pc} (h : Heeded s) (hpc : pc.late = false) : Heeded (s.goto p pc) :=
  heeded_setProc h fun hk => ⟨(h p hk).1, hpc⟩

theorem heeded_wakeup {chan : Chan P} (h : Heeded s) : Heeded (s.wakeup chan) := by
  intro q
  simp only [State.wakeup]
  split
  next => exact fun hk => ⟨nofun, (h q hk).2⟩
  next => exact h q

theorem heeded_sleep {chan : Chan P} {pc : Pc} (h : Heeded s) (hk : (s.proc p).killed = false) :
    Heeded (s.sleep p chan pc) := by
  apply heeded_setProc h
  intro hk'
  rw [show (s.proc p).killed = true from hk'] at hk
  cases hk

theorem heeded_kill {q : P} (h : Heeded s) (hclear : (s.proc q).pc.late = false) : Heeded (s.kill q) := by
  apply heeded_setProc h
  intro _
  refine ⟨?_, hclear⟩
  dsimp only
  split
  next => nofun
  next hne => exact hne

theorem heeded_unkilled {pc : Pc} (h : Heeded s) (hk : (s.proc p).killed = false) : Heeded (s.goto p pc) := by
  apply heeded_setProc h
  intro hk'
  rw [show (s.proc p).killed = true from hk'] at hk
  cases hk

omit [DecidableEq P] in
theorem Heeded.unmarked (h : Heeded s) (hpc : (s.proc p).pc.late = true) : (s.proc p).killed = false := by
  by_contra hk
  have := (h p (by simpa using hk)).2
  rw [hpc] at this
  cases this

theorem heeded_scan {zombie havekids : Bool} (h : Heeded s) : Heeded (scan s p zombie havekids) := by
  unfold scan
  split
  next => exact heeded_goto h rfl
  next =>
    split
    next => exact heeded_goto h rfl
    next hno =>
      rw [not_or, Bool.not_eq_true] at hno
      exact heeded_sleep h hno.2

theorem heeded_runProc {a : Act P} {pc : Pc} (h : Heeded s) (hrun : (s.proc p).state ≠ .sleeping)
    (hpc : (s.proc p).pc = pc) (hclear : Clear s a) (hst : runProc s p a pc = some t) : Heeded t := by
  unfold runProc at hst
  split at hst
  next => exact Option.some.inj hst ▸ heeded_goto h rfl
  next c =>
    rw [Option.ite_none_right_eq_some] at hst
    exact Option.some.inj hst.2 ▸ heeded_goto (s := s.setLock c.lock (some p)) h rfl
  next => exact Option.some.inj hst ▸ heeded_goto h rfl
  next => exact Option.some.inj hst ▸ heeded_goto h rfl
  next c => exact Option.some.inj hst ▸ heeded_goto (s := s.setLock c.lock none) h rfl
  next k =>
    split at hst
    next => exact Option.some.inj hst ▸ heeded_goto (s := s.setLock (.pipe k) none) h rfl
    next hno =>
      rw [not_or, Bool.not_eq_true (s.proc p).killed] at hno
      exact Option.some.inj hst ▸ heeded_unkilled h hno.2
  next c _ =>
    split at hst
    next => exact Option.some.inj hst ▸ heeded_goto (s := s.setLock c.lock none) h rfl
    next hno => exact Option.some.inj hst ▸ heeded_unkilled h (by simpa using hno)
  next k =>
    have hk := h.unmarked (p := p) (by rw [hpc]; rfl)
    refine Option.some.inj hst ▸ heeded_unkilled (heeded_wakeup h) ?_
    simp only [State.wakeup]
    split <;> exact hk
  next => cases hst
  next c _ =>
    have hk := h.unmarked (p := p) (by rw [hpc]; rfl)
    exact Option.some.inj hst ▸ heeded_sleep (s := s.setLock c.lock none) h hk
  next c =>
    have hk := h.unmarked (p := p) (by rw [hpc]; rfl)
    exact Option.some.inj hst ▸ heeded_sleep (s := s.setLock c.lock none) h hk
  next => exact Option.some.inj hst ▸ heeded_setProc h fun hk => ⟨(h p hk).1, rfl⟩
  next => exact Option.some.inj hst ▸ heeded_setProc h fun hk => ⟨(h p hk).1, rfl⟩
  next => exact Option.some.inj hst ▸ heeded_goto h rfl
  next => exact Option.some.inj hst ▸ heeded_scan h
  next => exact Option.some.inj hst ▸ heeded_kill h hclear
  next => exact Option.some.inj hst ▸ heeded_setProc h fun _ => ⟨hrun, congrArg Pc.late hpc⟩
  next =>
    rw [Option.ite_none_right_eq_some] at hst
    exact Option.some.inj hst.2 ▸ heeded_setProc h fun hk => ⟨nofun, (h p hk).2⟩
  next => cases hst

theorem heeded_step {a : Act P} (h : Heeded s) (hclear : Clear s a) (hst : step s a = some t) : Heeded t := by
  unfold step at hst
  split at hst
  next => exact Option.some.inj hst ▸ heeded_wakeup h
  next p =>
    rw [Option.ite_none_right_eq_some] at hst
    exact Option.some.inj hst.2 ▸ heeded_setProc h fun hk => ⟨nofun, (h p hk).2⟩
  next p _ _ _ =>
    rw [Option.ite_none_right_eq_some] at hst
    exact heeded_runProc h (by rw [hst.1]; nofun) rfl hclear hst.2
  next => cases hst

/-- In every run in which no `kill` comes between the test of its target and the sleep, no process that has been
killed sleeps. -/
theorem kill_not_missed {as : List (Act P)} (hclear : Lib.Runs.Along step Clear start as)
    (hrun : Lib.Runs.run step start as = some s) (p : P) :
    ¬ ((s.proc p).killed = true ∧ (s.proc p).state = .sleeping) := by
  rintro ⟨hk, hst⟩
  have hinv : Heeded s := by
    apply Lib.Runs.run_invariant Heeded (fun s a t h ha hst => heeded_step h ha hst) _ hclear hrun
    intro q hq
    cases hq
  exact (hinv p hk).1 hst

def early (c : Call) : List (Act (Fin 2)) :=
  [.dispatch 0, .dispatch 1, .call 0 c, .acquire 0, .test 0 true true, .check 0 true] ++
    match c with
    | .pipewrite _ => [.wake 0]
    | _ => []

theorem kill_not_missed_piperead :
    ∃ s : State (Fin 2), Lib.Runs.run step start (early (.piperead 0) ++ [.sleep 0, .kill 1 0]) = some s ∧
      (s.proc 0).killed = true ∧ ¬ ((s.proc 0).killed = true ∧ (s.proc 0).state = .sleeping) := by
  have hrun : (Lib.Runs.run step start (early (.piperead 0) ++ [.sleep 0, .kill 1 0])).any
      (fun s => (s.proc 0).killed = true) = true := by decide +kernel
  obtain ⟨s, hs, hk⟩ := (Option.any_eq_true _ _).mp hrun
  refine ⟨s, hs, of_decide_eq_true hk, kill_not_missed ?_ hs 0⟩
  exact Lib.Runs.along_of_alongB (fun s a => decide (Clear s a)) (fun _ _ h => of_decide_eq_true h)
    (by decide +kernel)

/-- In each of the four loops a `kill` between the test and the sleep is missed: the killed process sleeps, and
the locks are free. -/
theorem kill_missed :
    [Call.piperead 0, .pipewrite 0, .consoleread, .sysSleep].all (fun c =>
      (Lib.Runs.run step start (early c ++ [.kill 1 0, .sleep 0])).any fun s =>
        (s.proc 0).killed && decide ((s.proc 0).state = .sleeping) && decide ((s.proc 0).chan = some c.chan) &&
          decide (s.lock (.pipe 0) = none) && decide (s.lock .input = none) && decide (s.lock .ticks = none)) =
            true := by
  decide +kernel

end Xv6.Sleep.Missed
