import Xv6.Kernel.Model
import Xv6.Lib.Runs

namespace Xv6.Proc

open Kernel (ProcState)

/-- What a process sleeps on: a process, in `wait`, or anything else. -/
inductive Chan
  | proc (p : Fin nproc)
  | other
  deriving DecidableEq

/-- The part of `struct proc` that `fork`, `exit`, `wait` and `kill` use. -/
structure Slot where
  state : ProcState
  pid : Nat
  parent : Option (Fin nproc)
  killed : Bool
  chan : Option Chan
  deriving DecidableEq

/-- Where a process is: in user code after a call that has returned `r`, in `fork` before or after the new process
has its parent, or at the top of the loop in `wait`. -/
inductive Pc
  | user (r : Int)
  | forking (np : Fin nproc)
  | forked (np : Fin nproc)
  | waiting
  deriving DecidableEq

/-- The process that forked, none for the first one, and the pid that `fork` returned. -/
structure Birth where
  creator : Option Nat
  pid : Nat
  deriving DecidableEq

/-- A return of `wait`: the child that it found, the process that called it, and the result. -/
structure Reaping where
  child : Nat
  parent : Nat
  pid : Nat
  deriving DecidableEq

/-- Processes are numbered in the order in which they are created; `serial` is the number of the process in a slot.
`births`, `exited` and `reaped` are the history of a run. The kernel keeps none of these. -/
structure State where
  table : Fin nproc → Slot
  initproc : Fin nproc
  nextpid : Nat
  pc : Fin nproc → Pc
  serial : Fin nproc → Nat
  births : List Birth
  exited : List Nat
  reaped : List Reaping

def start : State where
  table := fun p => if p = 0 then ⟨.runnable, 1, none, false, none⟩ else ⟨.unused, 0, none, false, none⟩
  initproc := 0
  nextpid := 2
  pc := fun _ => .user 0
  serial := fun _ => 0
  births := [⟨none, 1⟩]
  exited := []
  reaped := []

namespace State

def goto (s : State) (p : Fin nproc) (pc : Pc) : State := { s with pc := Function.update s.pc p pc }

def setSlot (s : State) (p : Fin nproc) (x : Slot) : State := { s with table := Function.update s.table p x }

end State

def Slot.wakeup (x : Slot) (chan : Option Chan) : Slot :=
  if x.state = .sleeping ∧ x.chan = chan then { x with state := .runnable } else x

def unusedSlot (t : Fin nproc → Slot) : Option (Fin nproc) :=
  (List.finRange nproc).find? fun p => (t p).state = .unused

def zombieChild (t : Fin nproc → Slot) (p : Fin nproc) : Option (Fin nproc) :=
  (List.finRange nproc).find? fun q => (t q).parent = some p ∧ (t q).state = .zombie

def Slot.adopt (x : Slot) (p initproc : Fin nproc) : Slot :=
  if x.parent = some p then { x with parent := some initproc } else x

def exitSlot (t : Fin nproc → Slot) (initproc p q : Fin nproc) : Slot :=
  let x := ((t q).wakeup ((t p).parent.map .proc)).adopt p initproc
  let x := if (zombieChild t p).isSome then x.wakeup (some (.proc initproc)) else x
  if q = p then { x with state := .zombie } else x

def Slot.reap (x : Slot) : Slot := { x with pid := 0, parent := none, killed := false, state := .unused }

def Slot.kill (x : Slot) : Slot :=
  { x with killed := true, state := if x.state = .sleeping then .runnable else x.state }

inductive Act
  | fork (p : Fin nproc)
  | forkFail (p : Fin nproc)
  | forkParent (p : Fin nproc)
  | forkReturn (p : Fin nproc)
  | exit (p : Fin nproc)
  | wait (p : Fin nproc)
  | scan (p : Fin nproc)
  | kill (p : Fin nproc) (pid : Int)
  | dispatch (p : Fin nproc)
  | yield (p : Fin nproc)
  | sleep (p : Fin nproc)
  | wakeup (p : Fin nproc)

def Running (s : State) (p : Fin nproc) : Prop := (s.table p).state = .running

instance (s : State) (p : Fin nproc) : Decidable (Running s p) := inferInstanceAs (Decidable (_ = _))

def fork (s : State) (p : Fin nproc) : State :=
  match unusedSlot s.table with
  | none => s.goto p (.user (-1))
  | some np =>
      { s.setSlot np { s.table np with state := .embryo, pid := s.nextpid } with nextpid := s.nextpid + 1 }.goto p
        (.forking np)

def forkReturn (s : State) (p np : Fin nproc) : State :=
  { (s.setSlot np { s.table np with state := .runnable }).goto np (.user 0) with
    serial := Function.update s.serial np s.births.length
    births := s.births ++ [Birth.mk (some (s.serial p)) (s.table np).pid] }.goto p (.user (s.table np).pid)

def exit (s : State) (p : Fin nproc) : State :=
  { s with table := exitSlot s.table s.initproc p, exited := s.exited ++ [s.serial p] }

/-- One round of the loop of `wait`. -/
def scan (s : State) (p : Fin nproc) : State :=
  match zombieChild s.table p with
  | some q =>
      { (s.setSlot q (s.table q).reap).goto p (.user (s.table q).pid) with
        reaped := s.reaped ++ [⟨s.serial q, s.serial p, (s.table q).pid⟩] }
  | none =>
      if (∀ q, (s.table q).parent ≠ some p) ∨ (s.table p).killed = true then s.goto p (.user (-1))
      else s.setSlot p { s.table p with state := .sleeping, chan := some (.proc p) }

/-- The slot that the loop of `kill` finds first. -/
def pidSlot (t : Fin nproc → Slot) (pid : Int) : Option (Fin nproc) :=
  (List.finRange nproc).find? fun q => ((t q).pid : Int) = pid

def kill (s : State) (p : Fin nproc) (pid : Int) : State :=
  match pidSlot s.table pid with
  | none => s.goto p (.user (-1))
  | some q => (s.setSlot q (s.table q).kill).goto p (.user 0)

def Pc.isUser : Pc → Bool
  | .user _ => true
  | _ => false

def Pc.target : Pc → Option (Fin nproc)
  | .forking np | .forked np => some np
  | _ => none

/-- One step of a process that runs, or of the scheduler. `exit` of the first process is a panic. `sleep` and
`wakeup` stand for whatever else a process waits for. -/
def step (s : State) : Act → Option State
  | .fork p => if Running s p ∧ (s.pc p).isUser then some (fork s p) else none
  | .forkFail p => match s.pc p with
    | .forking np =>
        if Running s p then some ((s.setSlot np { s.table np with state := .unused }).goto p (.user (-1))) else none
    | _ => none
  | .forkParent p => match s.pc p with
    | .forking np =>
        if Running s p then some ((s.setSlot np { s.table np with parent := some p }).goto p (.forked np)) else none
    | _ => none
  | .forkReturn p => match s.pc p with
    | .forked np => if Running s p then some (forkReturn s p np) else none
    | _ => none
  | .exit p => if Running s p ∧ (s.pc p).isUser ∧ p ≠ s.initproc then some (exit s p) else none
  | .wait p => if Running s p ∧ (s.pc p).isUser then some (s.goto p .waiting) else none
  | .scan p => if Running s p ∧ s.pc p = .waiting then some (scan s p) else none
  | .kill p pid => if Running s p ∧ (s.pc p).isUser then some (kill s p pid) else none
  | .dispatch p =>
      if (s.table p).state = .runnable then some (s.setSlot p { s.table p with state := .running }) else none
  | .yield p => if Running s p then some (s.setSlot p { s.table p with state := .runnable }) else none
  | .sleep p =>
      if Running s p ∧ (s.pc p).isUser then
        some (s.setSlot p { s.table p with state := .sleeping, chan := some .other })
      else none
  | .wakeup p => some (s.setSlot p ((s.table p).wakeup (some .other)))

inductive Step (s : State) : Act → State → Prop
  | forkFull (p) (hr : Running s p) (hpc : (s.pc p).isUser = true) : Step s (.fork p) (s.goto p (.user (-1)))
  | fork (p np) (hr : Running s p) (hpc : (s.pc p).isUser = true) (hnp : (s.table np).state = .unused) :
      Step s (.fork p)
        ({ s.setSlot np { s.table np with state := .embryo, pid := s.nextpid } with
          nextpid := s.nextpid + 1 }.goto p (.forking np))
  | forkFail (p np) (hr : Running s p) (hpc : s.pc p = .forking np) :
      Step s (.forkFail p) ((s.setSlot np { s.table np with state := .unused }).goto p (.user (-1)))
  | forkParent (p np) (hr : Running s p) (hpc : s.pc p = .forking np) :
      Step s (.forkParent p) ((s.setSlot np { s.table np with parent := some p }).goto p (.forked np))
  | forkReturn (p np) (hr : Running s p) (hpc : s.pc p = .forked np) : Step s (.forkReturn p) (forkReturn s p np)
  | exit (p) (hr : Running s p) (hpc : (s.pc p).isUser = true) (hp : p ≠ s.initproc) : Step s (.exit p) (exit s p)
  | wait (p) (hr : Running s p) (hpc : (s.pc p).isUser = true) : Step s (.wait p) (s.goto p .waiting)
  | reap (p q) (hr : Running s p) (hpc : s.pc p = .waiting) (hq : (s.table q).parent = some p)
      (hz : (s.table q).state = .zombie) :
      Step s (.scan p) { (s.setSlot q (s.table q).reap).goto p (.user (s.table q).pid) with
        reaped := s.reaped ++ [⟨s.serial q, s.serial p, (s.table q).pid⟩] }
  | noChild (p) (hr : Running s p) (hpc : s.pc p = .waiting)
      (hno : (∀ q, (s.table q).parent ≠ some p) ∨ (s.table p).killed = true) :
      Step s (.scan p) (s.goto p (.user (-1)))
  | waitSleep (p) (hr : Running s p) (hpc : s.pc p = .waiting)
      (hno : ∀ q, (s.table q).parent = some p → (s.table q).state ≠ .zombie) :
      Step s (.scan p) (s.setSlot p { s.table p with state := .sleeping, chan := some (.proc p) })
  | killMiss (p pid) (hr : Running s p) (hpc : (s.pc p).isUser = true) :
      Step s (.kill p pid) (s.goto p (.user (-1)))
  | kill (p q pid) (hr : Running s p) (hpc : (s.pc p).isUser = true) :
      Step s (.kill p pid) ((s.setSlot q (s.table q).kill).goto p (.user 0))
  | dispatch (p) (hp : (s.table p).state = .runnable) :
      Step s (.dispatch p) (s.setSlot p { s.table p with state := .running })
  | yield (p) (hr : Running s p) : Step s (.yield p) (s.setSlot p { s.table p with state := .runnable })
  | sleep (p) (hr : Running s p) (hpc : (s.pc p).isUser = true) :
      Step s (.sleep p) (s.setSlot p { s.table p with state := .sleeping, chan := some .other })
  | wakeup (p) : Step s (.wakeup p) (s.setSlot p ((s.table p).wakeup (some .other)))

theorem zombieChild_eq_some {t : Fin nproc → Slot} {p q : Fin nproc} (h : zombieChild t p = some q) :
    (t q).parent = some p ∧ (t q).state = .zombie := by
  simpa using List.find?_some h

theorem zombieChild_eq_none {t : Fin nproc → Slot} {p : Fin nproc} (h : zombieChild t p = none) (q : Fin nproc)
    (hq : (t q).parent = some p) : (t q).state ≠ .zombie := by
  have := List.find?_eq_none.mp h q (List.mem_finRange q)
  simpa [hq] using this

theorem step_cases {s t : State} {a : Act} (h : step s a = some t) : Step s a t := by
  cases a with
  | fork p =>
      simp only [step, Option.ite_none_right_eq_some, Option.some.injEq] at h
      obtain ⟨⟨hr, hpc⟩, rfl⟩ := h
      unfold fork
      split
      next => exact .forkFull p hr hpc
      next np hnp => exact .fork p np hr hpc (by simpa using List.find?_some hnp)
  | forkFail p =>
      simp only [step] at h
      split at h
      next np hpc =>
        simp only [Option.ite_none_right_eq_some, Option.some.injEq] at h
        exact h.2 ▸ .forkFail p np h.1 hpc
      next => cases h
  | forkParent p =>
      simp only [step] at h
      split at h
      next np hpc =>
        simp only [Option.ite_none_right_eq_some, Option.some.injEq] at h
        exact h.2 ▸ .forkParent p np h.1 hpc
      next => cases h
  | forkReturn p =>
      simp only [step] at h
      split at h
      next np hpc =>
        simp only [Option.ite_none_right_eq_some, Option.some.injEq] at h
        exact h.2 ▸ .forkReturn p np h.1 hpc
      next => cases h
  | exit p =>
      simp only [step, Option.ite_none_right_eq_some, Option.some.injEq] at h
      exact h.2 ▸ .exit p h.1.1 h.1.2.1 h.1.2.2
  | wait p =>
      simp only [step, Option.ite_none_right_eq_some, Option.some.injEq] at h
      exact h.2 ▸ .wait p h.1.1 h.1.2
  | scan p =>
      simp only [step, Option.ite_none_right_eq_some, Option.some.injEq] at h
      obtain ⟨⟨hr, hpc⟩, rfl⟩ := h
      unfold scan
      split
      next q hq => exact .reap p q hr hpc (zombieChild_eq_some hq).1 (zombieChild_eq_some hq).2
      next hno =>
        split
        next hk => exact .noChild p hr hpc hk
        next => exact .waitSleep p hr hpc (zombieChild_eq_none hno)
  | kill p pid =>
      simp only [step, Option.ite_none_right_eq_some, Option.some.injEq] at h
      obtain ⟨⟨hr, hpc⟩, rfl⟩ := h
      unfold kill
      split
      next => exact .killMiss p pid hr hpc
      next q hq => exact .kill p q pid hr hpc
  | dispatch p =>
      simp only [step, Option.ite_none_right_eq_some, Option.some.injEq] at h
      exact h.2 ▸ .dispatch p h.1
  | yield p =>
      simp only [step, Option.ite_none_right_eq_some, Option.some.injEq] at h
      exact h.2 ▸ .yield p h.1
  | sleep p =>
      simp only [step, Option.ite_none_right_eq_some, Option.some.injEq] at h
      exact h.2 ▸ .sleep p h.1.1 h.1.2
  | wakeup p => exact Option.some.inj h ▸ .wakeup p

end Xv6.Proc
