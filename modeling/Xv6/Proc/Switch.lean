import Xv6.Kernel.Model
import Xv6.Lib.Runs

namespace Xv6.Proc.Switch

open Kernel (ProcState)
open Function (update update_of_ne update_self)

inductive Chan (P : Type)
  | proc (p : P)
  | other (n : Nat)
  deriving DecidableEq

/-- A place in the kernel, or in user space, where no spin lock is held, so that the timer can interrupt the
process. In `fork` it is before the allocation of the stack of the child `n`, before `copyuvm`, before the
assignment of `np->parent` or before that of `np->state`. -/
inductive Mid (P : Type)
  | user
  | forkStack (n : P)
  | forkCopy (n : P)
  | forkParent (n : P)
  | forkRun (n : P)
  deriving DecidableEq

/-- Where `swtch` returns to when the process is resumed: to `yield`, to a `sleep` on another lock, to the
`sleep` of `wait`, to `forkret`, or to `exit`, which panics. -/
inductive Back (P : Type)
  | yielded (m : Mid P)
  | slept
  | waited
  | forked
  | never
  deriving DecidableEq

/-- The next thing a process does. `save` and `load` are the two halves of `swtch`; `release` is a
`release(&ptable.lock)`, after which the process goes on at `m`. -/
inductive Pc (P : Type)
  | mid (m : Mid P)
  | yieldAcquire (m : Mid P)
  | yieldSet (m : Mid P)
  | sleepAcquire (chan : Chan P)
  | sleepSet (chan : Chan P) (b : Back P)
  | save (b : Back P)
  | load (b : Back P)
  | back (b : Back P)
  | release (m : Mid P)
  | forkAcquire
  | forkPick
  | exitAcquire
  | exitWake
  | exitSet
  | waitAcquire
  | waitScan
  deriving DecidableEq

/-- The next thing the scheduler of a CPU does: take `ptable.lock`, search the table, `switchuvm(p)`, set
`p->state`, `swtch`; in `away` the CPU runs a process, in `returned` and `kvm` it is back from it, before
`switchkvm` and before `proc = 0`. -/
inductive SchedPc (P : Type)
  | idle
  | scan
  | chosen (p : P)
  | uvm (p : P)
  | ready (p : P)
  | away
  | returned
  | kvm
  deriving DecidableEq

/-- `proc` is the variable of that name of each CPU. `stack` is the process on whose kernel stack the CPU runs,
or none if it runs on the scheduler's; `cr3` the process whose page table is loaded, or none for `kpgdir`.
`saved` tells whether `p->context` is complete, `kstack` and `pgdir` whether the process has a kernel stack and
a page table. -/
structure State (P C : Type) where
  lock : Option C
  proc : C → Option P
  stack : C → Option P
  cr3 : C → Option P
  spc : C → SchedPc P
  state : P → ProcState
  chan : P → Option (Chan P)
  killed : P → Bool
  parent : P → Option P
  saved : P → Bool
  kstack : P → Bool
  pgdir : P → Bool
  pc : P → Pc P

variable {P C : Type}

def start [DecidableEq P] (initproc : P) : State P C where
  lock := none
  proc _ := none
  stack _ := none
  cr3 _ := none
  spc _ := .idle
  state p := if p = initproc then .runnable else .unused
  chan _ := none
  killed _ := false
  parent _ := none
  saved p := decide (p = initproc)
  kstack p := decide (p = initproc)
  pgdir p := decide (p = initproc)
  pc _ := .back .forked

inductive Call (P : Type)
  | sleep (chan : Chan P)
  | fork
  | exit
  | wait

def Call.entry : Call P → Pc P
  | .sleep chan => .sleepAcquire chan
  | .fork => .forkAcquire
  | .exit => .exitAcquire
  | .wait => .waitAcquire

/-- `run` is a step that is determined by the place of the CPU. In `pick` the loop of the scheduler has come to
a process that is `RUNNABLE`, in `rest` to its end. `alloc` is the search of `allocproc`, `child` an allocation
of `fork`, which may fail, `reap` and `childless` are the search of `wait`. What `wakeup` and `kill` do under
`ptable.lock` is one step. -/
inductive Act (P C : Type)
  | run (c : C)
  | pick (c : C) (p : P)
  | rest (c : C)
  | call (c : C) (k : Call P)
  | timer (c : C)
  | alloc (c : C) (n : P)
  | full (c : C)
  | child (c : C) (ok : Bool)
  | reap (c : C) (q : P)
  | childless (c : C)
  | wakeup (chan : Chan P)
  | kill (q : P)

namespace State

variable [DecidableEq P] [DecidableEq C]

def goto (s : State P C) (p : P) (pc : Pc P) : State P C := { s with pc := update s.pc p pc }

def setSpc (s : State P C) (c : C) (spc : SchedPc P) : State P C := { s with spc := update s.spc c spc }

def setState (s : State P C) (p : P) (st : ProcState) : State P C :=
  { s with state := update s.state p st }

def setProc (s : State P C) (c : C) (o : Option P) : State P C := { s with proc := update s.proc c o }

def setCr3 (s : State P C) (c : C) (o : Option P) : State P C := { s with cr3 := update s.cr3 c o }

def setStack (s : State P C) (c : C) (o : Option P) : State P C := { s with stack := update s.stack c o }

def setSaved (s : State P C) (p : P) (b : Bool) : State P C := { s with saved := update s.saved p b }

def setKstack (s : State P C) (p : P) (b : Bool) : State P C := { s with kstack := update s.kstack p b }

def setPgdir (s : State P C) (p : P) (b : Bool) : State P C := { s with pgdir := update s.pgdir p b }

def setChan (s : State P C) (p : P) (o : Option (Chan P)) : State P C :=
  { s with chan := update s.chan p o }

def setLock (s : State P C) (o : Option C) : State P C := { s with lock := o }

def wakeup1 (s : State P C) (chan : Chan P) : State P C :=
  { s with state := fun p => if s.state p = .sleeping ∧ s.chan p = some chan then .runnable else s.state p }

/-- The loop of `exit` that passes the children to `initproc`, and wakes it up if one of them is a zombie. -/
def abandon [Fintype P] (s : State P C) (initproc p : P) : State P C :=
  let t := if ∃ q, s.parent q = some p ∧ s.state q = .zombie then s.wakeup1 (.proc initproc) else s
  { t with parent := fun q => if s.parent q = some p then some initproc else s.parent q }

def acquire (s : State P C) (c : C) : Option (State P C) :=
  if s.lock.isSome then none else some (s.setLock (some c))

end State

variable [DecidableEq P] [DecidableEq C] [Fintype P] (initproc : P)

def runSched (s : State P C) (c : C) : SchedPc P → Option (State P C)
  | .idle => (s.acquire c).map (·.setSpc c .scan)
  -- `switchuvm` panics if there is no page table
  | .chosen p => if s.pgdir p = true then some ((s.setCr3 c (some p)).setSpc c (.uvm p)) else none
  | .uvm p => some ((s.setState p .running).setSpc c (.ready p))
  | .ready p => some (((s.setStack c (some p)).setSaved p false).setSpc c .away)
  | .returned => some ((s.setCr3 c none).setSpc c .kvm)
  | .kvm => some ((s.setProc c none).setSpc c .scan)
  | .scan | .away => none

def runProc (s : State P C) (c : C) (p : P) : Pc P → Option (State P C)
  | .mid (.forkParent n) =>
      some ({ s with parent := update s.parent n (some p) }.goto p (.mid (.forkRun n)))
  | .mid (.forkRun n) => some ((s.setState n .runnable).goto p (.mid .user))
  | .yieldAcquire m => (s.acquire c).map (·.goto p (.yieldSet m))
  | .yieldSet m => some ((s.setState p .runnable).goto p (.save (.yielded m)))
  | .sleepAcquire chan => (s.acquire c).map (·.goto p (.sleepSet chan .slept))
  | .sleepSet chan b => some (((s.setChan p (some chan)).setState p .sleeping).goto p (.save b))
  -- `sched` panics if the process is still `RUNNING`
  | .save b => if s.state p = .running then none else some ((s.setSaved p true).goto p (.load b))
  | .load b => some (((s.setStack c none).setSpc c .returned).goto p (.back b))
  | .back (.yielded m) => some (s.goto p (.release m))
  | .back .slept => some ((s.setChan p none).goto p (.release .user))
  | .back .waited => some ((s.setChan p none).goto p .waitScan)
  | .back .forked => some (s.goto p (.release .user))
  | .release m => some ((s.setLock none).goto p (.mid m))
  | .forkAcquire => (s.acquire c).map (·.goto p .forkPick)
  -- `exit` panics for `initproc`
  | .exitAcquire => if p = initproc then none else (s.acquire c).map (·.goto p .exitWake)
  | .exitWake =>
      let t := (s.parent p).elim s fun q => s.wakeup1 (.proc q)
      some ((t.abandon initproc p).goto p .exitSet)
  | .exitSet => some ((s.setState p .zombie).goto p (.save .never))
  | .waitAcquire => (s.acquire c).map (·.goto p .waitScan)
  -- a choice is to be made, or `exit` has returned from `sched`
  | .mid _ | .forkPick | .waitScan | .back .never => none

def allocate (s : State P C) (p : P) (ok : Bool) : Mid P → Option (State P C)
  | .forkStack n =>
      if ok then some ((((s.setKstack n true).setSaved n true).goto n (.back .forked)).goto p (.mid (.forkCopy n)))
      else some ((s.setState n .unused).goto p (.mid .user))
  | .forkCopy n =>
      if ok then some ((s.setPgdir n true).goto p (.mid (.forkParent n)))
      else some (((s.setKstack n false).setState n .unused).goto p (.mid .user))
  | _ => none

def step (s : State P C) : Act P C → Option (State P C)
  | .run c =>
      match s.stack c with
      | none => runSched s c (s.spc c)
      | some p => runProc initproc s c p (s.pc p)
  | .pick c p =>
      if s.stack c = none ∧ s.spc c = .scan ∧ s.state p =
        .runnable then some ((s.setProc c (some p)).setSpc c (.chosen p))
      else none
  | .rest c => if s.stack c = none ∧ s.spc c = .scan then some ((s.setLock none).setSpc c .idle) else none
  | .call c k => (s.stack c).bind fun p => if s.pc p = .mid .user then some (s.goto p k.entry) else none
  | .timer c => (s.stack c).bind fun p =>
      match s.pc p with
      | .mid m => some (s.goto p (.yieldAcquire m))
      | _ => none
  | .alloc c n => (s.stack c).bind fun p =>
      if s.pc p = .forkPick ∧ s.state n = .unused then some ((s.setState n .embryo).goto p
        (.release (.forkStack n))) else none
  | .full c => (s.stack c).bind fun p =>
      if s.pc p = .forkPick ∧ ∀ n, s.state n ≠ .unused then some (s.goto p (.release .user)) else none
  | .child c ok => (s.stack c).bind fun p =>
      match s.pc p with
      | .mid m => allocate s p ok m
      | _ => none
  | .reap c q => (s.stack c).bind fun p =>
      if s.pc p = .waitScan ∧ s.parent q = some p ∧ s.state q = .zombie then
        let t := ((s.setKstack q false).setPgdir q false).setState q .unused
        some ({ t with
          parent := update s.parent q none
          killed := update s.killed q false }.goto p (.release .user))
      else none
  | .childless c => (s.stack c).bind fun p =>
      if s.pc p = .waitScan ∧ ∀ q, s.parent q = some p → s.state q ≠ .zombie then
        if (∀ q, s.parent q ≠ some p) ∨ s.killed p = true then some (s.goto p (.release .user))
        else some (s.goto p (.sleepSet (.proc p) .waited))
      else none
  | .wakeup chan => if s.lock = none then some (s.wakeup1 chan) else none
  | .kill q =>
      if s.lock = none then
        some { s.setState q (if s.state q = .sleeping then .runnable else s.state q) with
          killed := update s.killed q true }
      else none

def Pc.holds : Pc P → Bool
  | .yieldSet _ | .sleepSet _ _ | .save _ | .load _ | .back _ | .release _ | .forkPick | .exitWake | .exitSet
      | .waitScan =>
        true
  | _ => false

/-- Whether the process is about to leave the CPU, in the first or in the second half of `swtch`. -/
inductive Stage
  | here
  | saving
  | loading
  deriving DecidableEq

def Pc.stage : Pc P → Stage
  | .save _ => .saving
  | .load _ => .loading
  | _ => .here

def Pc.suspended : Pc P → Bool
  | .back _ => true
  | _ => false

/-- The child that a process is making, and how many of its two allocations have been made. -/
def Mid.fork : Mid P → Option (P × Nat)
  | .user => none
  | .forkStack n => some (n, 0)
  | .forkCopy n => some (n, 1)
  | .forkParent n | .forkRun n => some (n, 2)

def Back.fork : Back P → Option (P × Nat)
  | .yielded m => m.fork
  | _ => none

def Pc.fork : Pc P → Option (P × Nat)
  | .mid m | .yieldAcquire m | .yieldSet m | .release m => m.fork
  | .save b | .load b | .back b | .sleepSet _ b => b.fork
  | _ => none

def SchedPc.holds : SchedPc P → Bool
  | .idle | .away => false
  | _ => true

def Rouses (state state' : P → ProcState) : Prop :=
  ∀ q, state' q = state q ∨ state q = .sleeping ∧ state' q = .runnable

structure Pc.At (pc : Pc P) (holds : Bool) (stage : Stage) (fork : Option (P × Nat)) : Prop where
  holds : pc.holds = holds
  stage : pc.stage = stage
  fork : pc.fork = fork

omit [DecidableEq P] [Fintype P] in
theorem at_of_eq {pc pc' : Pc P} {holds : Bool} {stage : Stage} {fork : Option (P × Nat)} (h : pc = pc')
    (hat : pc'.At holds stage fork) : pc.At holds stage fork := h ▸ hat

/-- What a step can do to who runs what, with the guards under which it is done. -/
inductive Change (s : State P C) : State P C → Prop
  | enter (c) (hs : s.stack c = none) (hc : s.spc c = .idle) (hl : s.lock = none) :
      Change s { s with lock := some c, spc := update s.spc c .scan }
  | pick (c p) (hs : s.stack c = none) (hc : s.spc c = .scan) (hp : s.state p = .runnable) :
      Change s { s with proc := update s.proc c (some p), spc := update s.spc c (.chosen p) }
  | chosen (c p) (hs : s.stack c = none) (hc : s.spc c = .chosen p) :
      Change s { s with cr3 := update s.cr3 c (some p), spc := update s.spc c (.uvm p) }
  | uvm (c p) (hs : s.stack c = none) (hc : s.spc c = .uvm p) :
      Change s { s with state := update s.state p .running, spc := update s.spc c (.ready p) }
  | ready (c p) (hs : s.stack c = none) (hc : s.spc c = .ready p) :
      Change s { s with
        stack := update s.stack c (some p)
        saved := update s.saved p false
        spc := update s.spc c .away }
  | returned (c) (hs : s.stack c = none) (hc : s.spc c = .returned) :
      Change s { s with cr3 := update s.cr3 c none, spc := update s.spc c .kvm }
  | kvm (c) (hs : s.stack c = none) (hc : s.spc c = .kvm) :
      Change s { s with proc := update s.proc c none, spc := update s.spc c .scan }
  | rest (c) (hs : s.stack c = none) (hc : s.spc c = .scan) :
      Change s { s with lock := none, spc := update s.spc c .idle }
  /-- A process goes on, with the lock or without it. -/
  | move (c p pc) (state chan killed parent) (holds fork) (hs : s.stack c = some p)
      (hat : (s.pc p).At holds .here fork) (hnew : pc.At holds .here fork) (hstate : Rouses s.state state) :
      Change s { s with state, chan, killed, parent, pc := update s.pc p pc }
  | acquire (c p pc) (fork) (hs : s.stack c = some p) (hl : s.lock = none) (hat : (s.pc p).At false .here fork)
      (hnew : pc.At true .here fork) :
      Change s { s with lock := some c, pc := update s.pc p pc }
  | release (c p pc) (fork) (hs : s.stack c = some p) (hat : (s.pc p).At true .here fork)
      (hnew : pc.At false .here fork) :
      Change s { s with lock := none, pc := update s.pc p pc }
  | leave (c p pc st chan) (fork) (hs : s.stack c = some p) (hat : (s.pc p).At true .here fork)
      (hnew : pc.At true .saving fork) (hst : st = .runnable ∨ st = .sleeping ∨ st = .zombie)
      (hzombie : st = .zombie → fork = none) :
      Change s { s with state := update s.state p st, chan, pc := update s.pc p pc }
  | save (c p pc) (fork) (hs : s.stack c = some p) (hat : (s.pc p).At true .saving fork)
      (hnew : pc.At true .loading fork) :
      Change s { s with saved := update s.saved p true, pc := update s.pc p pc }
  | load (c p pc) (fork) (hs : s.stack c = some p) (hat : (s.pc p).At true .loading fork)
      (hnew : pc.At true .here fork)
      (hback : pc.suspended = true) :
      Change s { s with
        stack := update s.stack c none
        spc := update s.spc c .returned
        pc := update s.pc p pc }
  | alloc (c p n pc) (hs : s.stack c = some p) (hat : (s.pc p).At true .here none) (hn : s.state n = .unused)
      (hnew : pc.At true .here (some (n, 0))) :
      Change s { s with state := update s.state n .embryo, pc := update s.pc p pc }
  | stack (c p n pc pcn) (hs : s.stack c = some p) (hat : (s.pc p).At false .here (some (n, 0)))
      (hnew : pc.At false .here (some (n, 1))) (hchild : pcn.At true .here none) (hback : pcn.suspended = true) :
      Change s { s with
        kstack := update s.kstack n true
        saved := update s.saved n true
        pc := update (update s.pc n pcn) p pc }
  | noStack (c p n pc) (hs : s.stack c = some p) (hat : (s.pc p).At false .here (some (n, 0)))
      (hnew : pc.At false .here none) :
      Change s { s with state := update s.state n .unused, pc := update s.pc p pc }
  | copy (c p n pc) (hs : s.stack c = some p) (hat : (s.pc p).At false .here (some (n, 1)))
      (hnew : pc.At false .here (some (n, 2))) :
      Change s { s with pgdir := update s.pgdir n true, pc := update s.pc p pc }
  | noCopy (c p n pc) (hs : s.stack c = some p) (hat : (s.pc p).At false .here (some (n, 1)))
      (hnew : pc.At false .here none) :
      Change s { s with
        kstack := update s.kstack n false
        state := update s.state n .unused
        pc := update s.pc p pc }
  | start (c p n pc) (hs : s.stack c = some p) (hat : (s.pc p).At false .here (some (n, 2)))
      (hnew : pc.At false .here none) :
      Change s { s with state := update s.state n .runnable, pc := update s.pc p pc }
  | reap (c p q pc) (parent killed) (hs : s.stack c = some p) (hat : (s.pc p).At true .here none)
      (hz : s.state q = .zombie) (hnew : pc.At true .here none) :
      Change s { s with
        kstack := update s.kstack q false
        pgdir := update s.pgdir q false
        state := update s.state q .unused
        parent
        killed
        pc := update s.pc p pc }
  | rouse (state killed) (hstate : Rouses s.state state) : Change s { s with state, killed }

omit [DecidableEq P] [Fintype P] in
theorem Rouses.trans {f g h : P → ProcState} (hfg : Rouses f g) (hgh : Rouses g h) : Rouses f h := by
  intro q
  rcases hgh q with hq | ⟨hq, hq'⟩
  · rw [hq]
    exact hfg q
  · rcases hfg q with hf | ⟨-, hf⟩
    · exact .inr ⟨hf.symm.trans hq, hq'⟩
    · cases hf.symm.trans hq

omit [DecidableEq C] [Fintype P] in
theorem rouses_wakeup1 (s : State P C) (chan : Chan P) : Rouses s.state (s.wakeup1 chan).state := by
  intro q
  simp only [State.wakeup1]
  split
  next h => exact .inr ⟨h.1, rfl⟩
  next => exact .inl rfl

omit [DecidableEq C] in
theorem rouses_abandon (s : State P C) (initproc p : P) : Rouses s.state (s.abandon initproc p).state := by
  unfold State.abandon
  dsimp only
  split
  next => exact rouses_wakeup1 s _
  next => exact fun _ => .inl rfl

omit [DecidableEq C] in
theorem abandon_eq (s : State P C) (initproc p : P) : s.abandon initproc p =
    { s with state := (s.abandon initproc p).state, parent := (s.abandon initproc p).parent } := by
  unfold State.abandon
  dsimp only
  split <;> rfl

omit [DecidableEq P] [DecidableEq C] [Fintype P] in
theorem acquire_eq_some {s t : State P C} {c : C} (h : s.acquire c = some t) :
    s.lock = none ∧ t = s.setLock (some c) := by
  simp only [State.acquire, Option.ite_none_left_eq_some, Option.not_isSome_iff_eq_none, Option.some.injEq] at h
  exact ⟨h.1, h.2.symm⟩

variable {initproc} {s t : State P C} {c : C} {p : P}

omit [Fintype P] in
theorem runSched_change (hs : s.stack c = none) (h : runSched s c (s.spc c) = some t) : Change s t := by
  cases hc : s.spc c with
  | idle =>
      rw [hc] at h
      obtain ⟨u, hu, rfl⟩ := Option.map_eq_some_iff.mp h
      obtain ⟨hl, rfl⟩ := acquire_eq_some hu
      exact .enter c hs hc hl
  | chosen p =>
      rw [hc, runSched, Option.ite_none_right_eq_some] at h
      exact Option.some.inj h.2 ▸ .chosen c p hs hc
  | uvm p =>
      rw [hc] at h
      exact Option.some.inj h ▸ .uvm c p hs hc
  | ready p =>
      rw [hc] at h
      exact Option.some.inj h ▸ .ready c p hs hc
  | returned =>
      rw [hc] at h
      exact Option.some.inj h ▸ .returned c hs hc
  | kvm =>
      rw [hc] at h
      exact Option.some.inj h ▸ .kvm c hs hc
  | scan | away =>
      rw [hc] at h
      cases h

omit [Fintype P] in
theorem change_goto {pc pc' : Pc P} {holds : Bool} {fork : Option (P × Nat)} (hs : s.stack c = some p)
    (hpc : s.pc p = pc')
    (hat : pc'.At holds .here fork) (hnew : pc.At holds .here fork) : Change s (s.goto p pc) :=
  .move c p pc s.state s.chan s.killed s.parent holds fork hs (hpc ▸ hat) hnew fun _ => .inl rfl

theorem runProc_change (hs : s.stack c = some p) (h : runProc initproc s c p (s.pc p) = some t) : Change s t := by
  have lock {pc pc' : Pc P} {fork : Option (P × Nat)} (h : (s.acquire c).map (·.goto p pc) = some t)
    (hpc : s.pc p = pc')
      (hat : pc'.At false .here fork) (hnew : pc.At true .here fork) : Change s t := by
    obtain ⟨u, hu, rfl⟩ := Option.map_eq_some_iff.mp h
    obtain ⟨hl, rfl⟩ := acquire_eq_some hu
    exact .acquire c p pc fork hs hl (hpc ▸ hat) hnew
  cases hpc : s.pc p with
  | mid m =>
      rw [hpc] at h
      cases m with
      | forkParent n =>
          exact Option.some.inj h ▸ .move c p _ s.state s.chan s.killed _ false (some (n, 2)) hs
            (at_of_eq hpc ⟨rfl, rfl, rfl⟩)
            ⟨rfl, rfl, rfl⟩ fun _ => .inl rfl
      | forkRun n => exact Option.some.inj h ▸ .start c p n _ hs (at_of_eq hpc ⟨rfl, rfl, rfl⟩) ⟨rfl, rfl, rfl⟩
      | user | forkStack n | forkCopy n => cases h
  | yieldAcquire m | sleepAcquire chan | forkAcquire | waitAcquire =>
      rw [hpc] at h
      exact lock h hpc ⟨rfl, rfl, rfl⟩ ⟨rfl, rfl, rfl⟩
  | exitAcquire =>
      rw [hpc, runProc, Option.ite_none_left_eq_some] at h
      exact lock h.2 hpc ⟨rfl, rfl, rfl⟩ ⟨rfl, rfl, rfl⟩
  | yieldSet m =>
      rw [hpc] at h
      exact Option.some.inj h ▸ .leave c p _ .runnable s.chan _ hs (at_of_eq hpc ⟨rfl, rfl, rfl⟩) ⟨rfl, rfl,
        rfl⟩ (.inl rfl) nofun
  | sleepSet chan b =>
      rw [hpc] at h
      exact Option.some.inj h ▸ .leave c p _ .sleeping _ _ hs (at_of_eq hpc ⟨rfl, rfl, rfl⟩) ⟨rfl, rfl, rfl⟩
        (.inr (.inl rfl)) nofun
  | exitSet =>
      rw [hpc] at h
      exact Option.some.inj h ▸ .leave c p _ .zombie s.chan none hs (at_of_eq hpc ⟨rfl, rfl, rfl⟩) ⟨rfl, rfl,
        rfl⟩ (.inr (.inr rfl)) fun _ => rfl
  | save b =>
      rw [hpc, runProc, Option.ite_none_left_eq_some] at h
      exact Option.some.inj h.2 ▸ .save c p _ _ hs (at_of_eq hpc ⟨rfl, rfl, rfl⟩) ⟨rfl, rfl, rfl⟩
  | load b =>
      rw [hpc] at h
      exact Option.some.inj h ▸ .load c p _ _ hs (at_of_eq hpc ⟨rfl, rfl, rfl⟩) ⟨rfl, rfl, rfl⟩ rfl
  | release m =>
      rw [hpc] at h
      exact Option.some.inj h ▸ .release c p _ _ hs (at_of_eq hpc ⟨rfl, rfl, rfl⟩) ⟨rfl, rfl, rfl⟩
  | back b =>
      rw [hpc] at h
      cases b with
      | yielded m | forked => exact Option.some.inj h ▸ change_goto hs hpc ⟨rfl, rfl, rfl⟩ ⟨rfl, rfl, rfl⟩
      | slept | waited =>
          exact Option.some.inj h ▸ .move c p _ s.state _ s.killed s.parent true none hs
            (at_of_eq hpc ⟨rfl, rfl, rfl⟩)
            ⟨rfl, rfl, rfl⟩ fun _ => .inl rfl
      | never => cases h
  | exitWake =>
      rw [hpc] at h
      obtain ⟨u, hu⟩ : ∃ u, u = (s.parent p).elim s fun q => s.wakeup1 (.proc q) := ⟨_, rfl⟩
      have hrouse : Rouses s.state u.state ∧ u = { s with state := u.state } := by
        rw [hu]
        cases s.parent p with
        | none => exact ⟨fun _ => .inl rfl, rfl⟩
        | some q => exact ⟨rouses_wakeup1 s _, rfl⟩
      have hv : u.abandon initproc p =
          { s with state := (u.abandon initproc p).state, parent := (u.abandon initproc p).parent } := by
        refine (abandon_eq u initproc p).trans ?_
        rw [hrouse.2]
      have ht : (u.abandon initproc p).goto p .exitSet = t := by
        rw [hu]
        exact Option.some.inj h
      rw [← ht, hv]
      exact .move c p .exitSet _ s.chan s.killed _ true none hs (at_of_eq hpc ⟨rfl, rfl, rfl⟩) ⟨rfl, rfl, rfl⟩
        (hrouse.1.trans (rouses_abandon u initproc p))
  | forkPick | waitScan =>
      rw [hpc] at h
      cases h

theorem step_change {a : Act P C} (h : step initproc s a = some t) : Change s t := by
  cases a with
  | run c =>
      simp only [step] at h
      split at h
      next hs => exact runSched_change hs h
      next p hs => exact runProc_change hs h
  | pick c p =>
      simp only [step, Option.ite_none_right_eq_some] at h
      exact Option.some.inj h.2 ▸ .pick c p h.1.1 h.1.2.1 h.1.2.2
  | rest c =>
      simp only [step, Option.ite_none_right_eq_some] at h
      exact Option.some.inj h.2 ▸ .rest c h.1.1 h.1.2
  | call c k =>
      obtain ⟨p, hs, h⟩ := Option.bind_eq_some_iff.mp h
      rw [Option.ite_none_right_eq_some] at h
      obtain ⟨hpc, h⟩ := h
      cases k <;> exact Option.some.inj h ▸ change_goto hs hpc ⟨rfl, rfl, rfl⟩ ⟨rfl, rfl, rfl⟩
  | timer c =>
      obtain ⟨p, hs, h⟩ := Option.bind_eq_some_iff.mp h
      split at h
      next m hpc => exact Option.some.inj h ▸ change_goto hs hpc ⟨rfl, rfl, rfl⟩ ⟨rfl, rfl, rfl⟩
      next => cases h
  | alloc c n =>
      obtain ⟨p, hs, h⟩ := Option.bind_eq_some_iff.mp h
      rw [Option.ite_none_right_eq_some] at h
      exact Option.some.inj h.2 ▸ .alloc c p n _ hs (at_of_eq h.1.1 ⟨rfl, rfl, rfl⟩) h.1.2 ⟨rfl, rfl, rfl⟩
  | full c =>
      obtain ⟨p, hs, h⟩ := Option.bind_eq_some_iff.mp h
      rw [Option.ite_none_right_eq_some] at h
      exact Option.some.inj h.2 ▸ change_goto hs h.1.1 ⟨rfl, rfl, rfl⟩ ⟨rfl, rfl, rfl⟩
  | child c ok =>
      obtain ⟨p, hs, h⟩ := Option.bind_eq_some_iff.mp h
      split at h
      next m hpc =>
        cases m with
        | forkStack n =>
            rw [allocate] at h
            split at h
            next =>
              exact Option.some.inj h ▸ .stack c p n _ _ hs (at_of_eq hpc ⟨rfl, rfl, rfl⟩) ⟨rfl, rfl, rfl⟩
                ⟨rfl, rfl, rfl⟩ rfl
            next => exact Option.some.inj h ▸ .noStack c p n _ hs (at_of_eq hpc ⟨rfl, rfl, rfl⟩) ⟨rfl, rfl, rfl⟩
        | forkCopy n =>
            rw [allocate] at h
            split at h
            next => exact Option.some.inj h ▸ .copy c p n _ hs (at_of_eq hpc ⟨rfl, rfl, rfl⟩) ⟨rfl, rfl, rfl⟩
            next => exact Option.some.inj h ▸ .noCopy c p n _ hs (at_of_eq hpc ⟨rfl, rfl, rfl⟩) ⟨rfl, rfl, rfl⟩
        | user | forkParent n | forkRun n => cases h
      next => cases h
  | reap c q =>
      obtain ⟨p, hs, h⟩ := Option.bind_eq_some_iff.mp h
      rw [Option.ite_none_right_eq_some] at h
      exact Option.some.inj h.2 ▸ .reap c p q _ _ _ hs (at_of_eq h.1.1 ⟨rfl, rfl, rfl⟩) h.1.2.2 ⟨rfl, rfl, rfl⟩
  | childless c =>
      obtain ⟨p, hs, h⟩ := Option.bind_eq_some_iff.mp h
      rw [Option.ite_none_right_eq_some] at h
      obtain ⟨⟨hpc, -⟩, h⟩ := h
      split at h
      next => exact Option.some.inj h ▸ change_goto hs hpc ⟨rfl, rfl, rfl⟩ ⟨rfl, rfl, rfl⟩
      next => exact Option.some.inj h ▸ change_goto hs hpc ⟨rfl, rfl, rfl⟩ ⟨rfl, rfl, rfl⟩
  | wakeup chan =>
      simp only [step, Option.ite_none_right_eq_some] at h
      exact Option.some.inj h.2 ▸ .rouse _ s.killed (rouses_wakeup1 s chan)
  | kill q =>
      simp only [step, Option.ite_none_right_eq_some] at h
      refine Option.some.inj h.2 ▸ .rouse _ _ fun r => ?_
      by_cases hr : r = q
      · subst hr
        by_cases hq : s.state r = .sleeping
        · exact .inr ⟨hq, (update_self ..).trans (if_pos hq)⟩
        · exact .inl ((update_self ..).trans (if_neg hq))
      · exact .inl (update_of_ne hr ..)

end Xv6.Proc.Switch
