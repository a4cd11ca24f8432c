import Xv6.Lib.Runs

/-! Spin locks, `spinlock.c`, with what interrupts and `sched` do to them: every CPU takes one step at a time, in
any order. -/

namespace Xv6.Spin

open Function (update)

inductive Panic
  | acquire
  | release
  | popcliInterruptible
  | popcli
  | schedPtable
  | schedLocks
  | schedRunning
  | schedInterruptible
  deriving DecidableEq, Repr

/-- The next thing that a thread does. The first four are in `pushcli`, alone or at the start of `acquire`;
`check` and `checkCpu` are the two reads of `holding` in `acquire`, `held` and `heldCpu` those in `release`, and
`own` and `ownCpu` those in `sched`; `test`, `decr` and `enable` are in `popcli`, alone or at the end of
`release`. -/
inductive Pc (L T : Type)
  | idle
  | readeflags (k : Option L)
  | cli (k : Option L) (eflags : Bool)
  | save (k : Option L) (eflags : Bool)
  | incr (k : Option L)
  | check (lk : L)
  | checkCpu (lk : L)
  | xchg (lk : L)
  | record (lk : L)
  | held (lk : L)
  | heldCpu (lk : L)
  | clear (lk : L)
  | store (lk : L)
  | test
  | decr
  | enable
  | own (dst : T)
  | ownCpu (dst : T)
  | swtch (dst : T)
  | panic (m : Panic)
  deriving DecidableEq

/-- Code that is not an interrupt handler, or one handler. `locks` are those it has acquired and `pushed` the
calls of `pushcli` that it has not undone; `before` is the interrupt flag that it had before the first of these, and
`kept` is false if since then a switch has led to it that did not put `cpu->intena` back. The kernel keeps none of
the four. -/
structure Frame (L T : Type) where
  pc : Pc L T
  locks : List L
  pushed : Nat
  before : Bool
  kept : Bool

/-- `top` is the code that runs; below it is what interrupts have interrupted. `running` says whether the state of
the CPU's process is `RUNNING`. -/
structure Cpu (L T : Type) where
  thread : T
  top : Frame L T
  below : List (Frame L T)
  eflags : Bool
  ncli : Int
  intena : Bool
  running : Bool

/-- A thread that has been switched away from. A process keeps `cpu->intena` in `sched`; the scheduler and a process
that has not run yet have nothing to put back. -/
structure Parked (L T : Type) where
  top : Frame L T
  below : List (Frame L T)
  intena : Option Bool

structure State (C L T : Type) where
  locked : L → Bool
  owner : L → Option C
  cpu : C → Cpu L T
  parked : T → Option (Parked L T)

inductive Act (L T : Type)
  | acquire (lk : L)
  | release (lk : L)
  | pushcli
  | popcli
  | stop
  | sched (dst : T)
  | scheduler (dst : T)
  | run
  | interrupt
  | iret
  | setFlag (b : Bool)

variable {C L T : Type}

/-- What `pushcli` finds when it reads the flag is the flag before, if it is the first to take something. -/
def Frame.enter (f : Frame L T) (eflags : Bool) : Frame L T :=
  if f.locks.isEmpty ∧ f.pushed = 0 then { f with before := eflags, kept := true } else f

namespace Cpu

@[simp] def goto (u : Cpu L T) (pc : Pc L T) : Cpu L T := { u with top.pc := pc }

@[simp] def call (u : Cpu L T) (locks : List L) (pushed : Nat) (pc : Pc L T) : Cpu L T :=
  { u with top := { u.top with pc := pc, locks := locks, pushed := pushed } }

end Cpu

namespace State

variable [DecidableEq C] [DecidableEq L] [DecidableEq T]

def setCpu (s : State C L T) (c : C) (u : Cpu L T) : State C L T := { s with cpu := update s.cpu c u }

def setLocked (s : State C L T) (lk : L) (b : Bool) : State C L T :=
  { s with locked := update s.locked lk b }

def setOwner (s : State C L T) (lk : L) (o : Option C) : State C L T :=
  { s with owner := update s.owner lk o }

/-- `swtch`, and what the thread that it leads to does first: `sched` puts `cpu->intena` back. With `keep` it is
`sched` that calls `swtch`, otherwise it is the scheduler, which has set the state of the process to `RUNNING`. -/
def switch (s : State C L T) (c : C) (keep : Bool) (dst : T) : Option (State C L T) :=
  (s.parked dst).map fun p =>
    let u := s.cpu c
    let parked := update s.parked dst none
    { s with
      cpu := update s.cpu c
        { u with
          thread := dst
          top := { p.top with kept := p.top.kept && p.intena.isSome }
          below := p.below
          intena := p.intena.getD u.intena
          running := !keep }
      parked := update parked u.thread (some ⟨{ u.top with pc := .idle }, u.below,
        if keep then some u.intena else none⟩) }

/-- The next step of the code that CPU `c` runs; `ptable` is the lock that `sched` asks for. -/
def exec (ptable : L) (s : State C L T) (c : C) : Option (State C L T) :=
  let u := s.cpu c
  match u.top.pc with
  | .idle | .panic _ => none
  | .readeflags k => some (s.setCpu c { u with top := { u.top.enter u.eflags with pc := .cli k u.eflags } })
  | .cli k e => some (s.setCpu c { u.goto (.save k e) with eflags := false })
  | .save k e => some (s.setCpu c { u.goto (.incr k) with intena := if u.ncli = 0 then e else u.intena })
  | .incr (some lk) => some (s.setCpu c { u.goto (.check lk) with ncli := u.ncli + 1 })
  | .incr none =>
      some (s.setCpu c { u.call u.top.locks (u.top.pushed + 1) .idle with ncli := u.ncli + 1 })
  | .check lk => some (s.setCpu c (u.goto (if s.locked lk then .checkCpu lk else .xchg lk)))
  | .checkCpu lk => some (s.setCpu c (u.goto (if s.owner lk = some c then .panic .acquire else .xchg lk)))
  | .xchg lk => some ((s.setLocked lk true).setCpu c (u.goto (if s.locked lk then .xchg lk else .record lk)))
  | .record lk => some ((s.setOwner lk (some c)).setCpu c (u.call (lk :: u.top.locks) u.top.pushed .idle))
  | .held lk => some (s.setCpu c (u.goto (if s.locked lk then .heldCpu lk else .panic .release)))
  | .heldCpu lk => some (s.setCpu c (u.goto (if s.owner lk = some c then .clear lk else .panic .release)))
  | .clear lk => some ((s.setOwner lk none).setCpu c (u.goto (.store lk)))
  | .store lk => some ((s.setLocked lk false).setCpu c (u.goto .test))
  | .test => some (s.setCpu c (u.goto (if u.eflags then .panic .popcliInterruptible else .decr)))
  | .decr =>
      some (s.setCpu c { u.goto (if u.ncli - 1 < 0 then .panic .popcli else .enable) with ncli := u.ncli - 1 })
  | .enable => some (s.setCpu c { u.goto .idle with eflags := if u.ncli = 0 ∧ u.intena then true else u.eflags })
  | .own dst => some (s.setCpu c (u.goto (if s.locked ptable then .ownCpu dst else .panic .schedPtable)))
  | .ownCpu dst => some (s.setCpu c (u.goto (if s.owner ptable = some c then .swtch dst else .panic .schedPtable)))
  | .swtch dst =>
      if u.ncli ≠ 1 then some (s.setCpu c (u.goto (.panic .schedLocks)))
      else if u.running then some (s.setCpu c (u.goto (.panic .schedRunning)))
      else if u.eflags then some (s.setCpu c (u.goto (.panic .schedInterruptible)))
      else s.switch c true dst

/-- The code that a CPU runs calls a function or goes on with one; a process that `stop`s sets its state to
another than `RUNNING`; an interrupt starts a handler with interrupts off, and `iret` ends it. Code that is not
a handler may set the flag itself. -/
def step (ptable : L) (s : State C L T) : C × Act L T → Option (State C L T)
  | (c, a) =>
      let u := s.cpu c
      let f := u.top
      match f.pc, a with
      | .idle, .acquire lk => some (s.setCpu c (u.goto (.readeflags (some lk))))
      | .idle, .release lk => some (s.setCpu c (u.call (f.locks.erase lk) f.pushed (.held lk)))
      | .idle, .pushcli => some (s.setCpu c (u.goto (.readeflags none)))
      | .idle, .popcli => some (s.setCpu c (u.call f.locks (f.pushed - 1) .test))
      | .idle, .stop => some (s.setCpu c { u with running := false })
      | .idle, .sched dst => some (s.setCpu c (u.goto (.own dst)))
      | .idle, .scheduler dst => s.switch c false dst
      | .idle, .setFlag b => some (s.setCpu c { u with eflags := b, top := { f with before := b, kept := true } })
      | .idle, .iret =>
          match u.below with
          | [] => none
          | g :: below => some (s.setCpu c { u with eflags := true, top := g, below := below })
      | _, .interrupt =>
          let v := { u with eflags := false, top := ⟨.idle, [], 0, false, true⟩, below := f :: u.below }
          if u.eflags then some (s.setCpu c v) else none
      | _, .run => s.exec ptable c
      | _, _ => none

/-- How the kernel calls these functions: no lock is acquired twice or released without being held, `popcli`
undoes a `pushcli`, a thread is switched away from with `ptable.lock` held and nothing else, a process has stopped
when it calls `sched`, and a handler gives up what it has taken. -/
@[reducible] def Allowed (ptable : L) (s : State C L T) : C × Act L T → Prop
  | (c, a) =>
      let f := (s.cpu c).top
      match a with
      | .acquire lk => lk ∉ f.locks
      | .release lk => lk ∈ f.locks
      | .popcli => 0 < f.pushed
      | .sched _ => f.locks = [ptable] ∧ f.pushed = 0 ∧ (s.cpu c).running = false
      | .scheduler _ => f.locks = [ptable] ∧ f.pushed = 0
      | .iret => f.locks = [] ∧ f.pushed = 0
      | .setFlag _ => f.locks = [] ∧ f.pushed = 0 ∧ (s.cpu c).below = []
      | .pushcli | .stop | .run | .interrupt => True

instance (ptable : L) (s : State C L T) : DecidablePred (s.Allowed ptable) := by
  rintro ⟨c, a⟩
  cases a <;> infer_instance

end State

end Xv6.Spin
