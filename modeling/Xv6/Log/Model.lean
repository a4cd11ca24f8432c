import Xv6.Log.Recovery
import Xv6.Lib.Runs
import Mathlib

namespace Xv6.Log

open Lib.BlockWrites
open Function (update)

inductive Stage
  | writeLog (tail : Nat)
  | writeHead
  | install (tail : Nat)
  | clearHead
  | release
  deriving DecidableEq, Repr

/-- An operation between its `begin_op` and its `end_op`: its serial number and the block
numbers it has passed to `log_write`. Both only serve to state properties of runs. -/
structure Op where
  no : Nat
  blocks : Finset Nat
  deriving DecidableEq

/-- Where a process is. In `waiting` and `sleeping` it is inside `begin_op`; in `modified b`
it holds the buffer of block `b`, whose data it has changed; in `tested b` it is inside
`log_write`, past the unlocked tests. -/
inductive Pc
  | idle
  | waiting
  | sleeping
  | running (op : Op)
  | modified (op : Op) (b : Nat)
  | tested (op : Op) (b : Nat)
  | committing (st : Stage)
  deriving DecidableEq

def Pc.woken : Pc → Pc
  | .sleeping => .waiting
  | pc => pc

def Pc.op? : Pc → Option Op
  | .running op | .modified op _ | .tested op _ => some op
  | _ => none

def Pc.held? : Pc → Option Nat
  | .modified _ b | .tested _ b => some b
  | _ => none

inductive Panic
  | tooBig
  | outsideTrans
  | committing
  deriving DecidableEq, Repr

/-- One call of `log_write`: the operation that made it, the block and its data. -/
structure Write where
  op : Nat
  block : Nat
  data : Block

/-- History of a run. The epoch of an operation is the number of commits begun before it;
`finished` counts the commits whose last block write is done. The code keeps none of this. -/
structure Hist where
  epochs : List Nat
  trace : List Write
  commits : Nat
  finished : Nat

/-- `cache b` is what `bread` returns for block `b`; `dirty` is `B_DIRTY`; `lh` is the part
of `log.lh.block` below `log.lh.n`. -/
structure State (P : Type) where
  disk : Disk
  cache : Disk
  dirty : Nat → Bool
  outstanding : Nat
  committing : Bool
  lh : List Nat
  pc : P → Pc
  panic : Option Panic
  hist : Hist

variable {P : Type} [DecidableEq P]

def boot (P : Type) (d : Disk) : State P where
  disk := d
  cache := d
  dirty := fun _ => false
  outstanding := 0
  committing := false
  lh := []
  pc := fun _ => .idle
  panic := none
  hist := ⟨[], [], 0, 0⟩

namespace State

def goto (s : State P) (p : P) (pc : Pc) : State P := { s with pc := update s.pc p pc }

theorem forall_goto (R : P → Pc → Prop) {s : State P} {p : P} {pc : Pc} (hp : R p pc)
    (hs : ∀ q, R q (s.pc q)) : ∀ q, R q ((s.goto p pc).pc q) :=
  (Function.forall_update_iff s.pc R).mpr ⟨hp, fun q _ => hs q⟩

omit [DecidableEq P] in
def wakeup (s : State P) : State P := { s with pc := fun q => (s.pc q).woken }

def bwrite (s : State P) (b : Nat) (v : Block) : State P :=
  { s with
    disk := update s.disk b v
    cache := update s.cache b v
    dirty := update s.dirty b false }

end State

def beginOp (s : State P) (p : P) : State P :=
  if s.committing then s.goto p .sleeping
  else if logsize < s.lh.length + (s.outstanding + 1) * maxopblocks then s.goto p .sleeping
  else
    ({ s with
      outstanding := s.outstanding + 1
      hist := { s.hist with epochs := s.hist.epochs ++ [s.hist.commits] } } : State P).goto p
        (.running ⟨s.hist.epochs.length, ∅⟩)

def modify (s : State P) (p : P) (op : Op) (b : Nat) (v : Block) : State P :=
  { s with cache := update s.cache b v }.goto p (.modified op b)

def logWriteTest (g : Region) (s : State P) (p : P) (op : Op) (b : Nat) : State P :=
  if logsize ≤ s.lh.length ∨ g.size - 1 ≤ s.lh.length then { s with panic := some .tooBig }
  else if s.outstanding < 1 then { s with panic := some .outsideTrans }
  else s.goto p (.tested op b)

def absorb (lh : List Nat) (b : Nat) : List Nat := if b ∈ lh then lh else lh ++ [b]

def logWriteAppend (s : State P) (p : P) (op : Op) (b : Nat) : State P :=
  { s with
    lh := absorb s.lh b
    dirty := update s.dirty b true
    hist := { s.hist with trace := s.hist.trace ++ [Write.mk op.no b (s.cache b)] } }.goto p
      (.running { op with blocks := insert b op.blocks })

/-- The first critical section of `end_op` and the test at the top of `commit`. -/
def endOp (s : State P) (p : P) : State P :=
  let n := s.outstanding - 1
  if s.committing then { s with outstanding := n, panic := some .committing }
  else if n = 0 then
    { s with
      outstanding := n
      committing := true
      hist := { s.hist with
        commits := s.hist.commits + 1
        finished := if s.lh = [] then s.hist.finished + 1 else s.hist.finished } }.goto p
      (.committing (if s.lh = [] then .release else .writeLog 0))
  else ({ s with outstanding := n }.goto p .idle).wakeup

/-- The next block write of `commit`, or the last critical section of `end_op`. -/
def commitStep (g : Region) (s : State P) (p : P) : Stage → State P
  | .writeLog tail =>
      if h : tail < s.lh.length then
        (s.bwrite (g.start + tail + 1) (s.cache s.lh[tail])).goto p (.committing (.writeLog (tail + 1)))
      else s.goto p (.committing .writeHead)
  | .writeHead =>
      (s.bwrite g.start (writeHead s.lh (s.cache g.start))).goto p (.committing (.install 0))
  | .install tail =>
      if h : tail < s.lh.length then
        (s.bwrite s.lh[tail] (s.cache (g.start + tail + 1))).goto p (.committing (.install (tail + 1)))
      else s.goto p (.committing .clearHead)
  | .clearHead =>
      { s.bwrite g.start (writeHead [] (s.cache g.start)) with
        lh := []
        hist := { s.hist with finished := s.hist.finished + 1 } }.goto p (.committing .release)
  | .release => ({ s with committing := false }.goto p .idle).wakeup

inductive Act (P : Type)
  | beginOp (p : P)
  | modify (p : P) (b : Nat) (v : Block)
  | test (p : P)
  | append (p : P)
  | endOp (p : P)
  | commit (p : P)
  | kill (p : P)
  | evict (b : Nat)

variable [Fintype P]

def Held (s : State P) (b : Nat) : Prop := ∃ q, (s.pc q).held? = some b

instance (s : State P) (b : Nat) : Decidable (Held s b) :=
  inferInstanceAs (Decidable (∃ q, (s.pc q).held? = some b))

/-- One step of a process, or the reuse of a clean unlocked buffer by `bget`. After a panic
nothing runs. -/
def step (g : Region) (s : State P) (a : Act P) : Option (State P) :=
  if s.panic.isSome then none else
  match a with
  | .beginOp p => match s.pc p with
    | .idle | .waiting => some (beginOp s p)
    | _ => none
  | .modify p b v => match s.pc p with
    | .running op => if Held s b then none else some (modify s p op b v)
    | _ => none
  | .test p => match s.pc p with
    | .modified op b => some (logWriteTest g s p op b)
    | _ => none
  | .append p => match s.pc p with
    | .tested op b => some (logWriteAppend s p op b)
    | _ => none
  | .endOp p => match s.pc p with
    | .running _ => some (endOp s p)
    | _ => none
  | .commit p => match s.pc p with
    | .committing st => some (commitStep g s p st)
    | _ => none
  | .kill p => match s.pc p with
    | .sleeping => some (s.goto p .waiting)
    | _ => none
  | .evict b =>
      if s.dirty b ∨ Held s b then none else some { s with cache := update s.cache b (s.disk b) }

inductive Step (g : Region) (s : State P) : Act P → State P → Prop
  | sleep (p) (hpc : s.pc p = .idle ∨ s.pc p = .waiting)
      (hfull : s.committing = true ∨ logsize < s.lh.length + (s.outstanding + 1) * maxopblocks) :
      Step g s (.beginOp p) (s.goto p .sleeping)
  | start (p) (hpc : s.pc p = .idle ∨ s.pc p = .waiting) (hc : s.committing = false)
      (hfits : s.lh.length + (s.outstanding + 1) * maxopblocks ≤ logsize) :
      Step g s (.beginOp p)
        (({ s with
          outstanding := s.outstanding + 1
          hist := { s.hist with epochs := s.hist.epochs ++ [s.hist.commits] } } : State P).goto p
            (.running ⟨s.hist.epochs.length, ∅⟩))
  | modify (p) (op) (b) (v) (hpc : s.pc p = .running op) (hfree : ¬ Held s b) :
      Step g s (.modify p b v) (modify s p op b v)
  | tooBig (p) (op) (b) (hpc : s.pc p = .modified op b)
      (hfull : logsize ≤ s.lh.length ∨ g.size - 1 ≤ s.lh.length) :
      Step g s (.test p) { s with panic := some .tooBig }
  | outside (p) (op) (b) (hpc : s.pc p = .modified op b) (hout : s.outstanding < 1) :
      Step g s (.test p) { s with panic := some .outsideTrans }
  | test (p) (op) (b) (hpc : s.pc p = .modified op b) (hlog : s.lh.length < logsize)
      (hsize : s.lh.length < g.size - 1) (hout : 1 ≤ s.outstanding) :
      Step g s (.test p) (s.goto p (.tested op b))
  | append (p) (op) (b) (hpc : s.pc p = .tested op b) : Step g s (.append p) (logWriteAppend s p op b)
  | panicEnd (p) (op) (hpc : s.pc p = .running op) (hc : s.committing = true) :
      Step g s (.endOp p) { s with outstanding := s.outstanding - 1, panic := some .committing }
  | commit (p) (op) (hpc : s.pc p = .running op) (hc : s.committing = false) (hlast : s.outstanding - 1 = 0) :
      Step g s (.endOp p)
        ({ s with
          outstanding := 0
          committing := true
          hist := { s.hist with
            commits := s.hist.commits + 1
            finished := if s.lh = [] then s.hist.finished + 1 else s.hist.finished } }.goto p
          (.committing (if s.lh = [] then .release else .writeLog 0)))
  | leave (p) (op) (hpc : s.pc p = .running op) (hc : s.committing = false) (hmore : s.outstanding - 1 ≠ 0) :
      Step g s (.endOp p) (({ s with outstanding := s.outstanding - 1 }.goto p .idle).wakeup)
  | writeLog (p) (tail) (hpc : s.pc p = .committing (.writeLog tail)) (hlt : tail < s.lh.length) :
      Step g s (.commit p)
        ((s.bwrite (g.start + tail + 1) (s.cache s.lh[tail])).goto p (.committing (.writeLog (tail + 1))))
  | logDone (p) (tail) (hpc : s.pc p = .committing (.writeLog tail)) (hge : s.lh.length ≤ tail) :
      Step g s (.commit p) (s.goto p (.committing .writeHead))
  | writeHead (p) (hpc : s.pc p = .committing .writeHead) :
      Step g s (.commit p)
        ((s.bwrite g.start (writeHead s.lh (s.cache g.start))).goto p (.committing (.install 0)))
  | install (p) (tail) (hpc : s.pc p = .committing (.install tail)) (hlt : tail < s.lh.length) :
      Step g s (.commit p)
        ((s.bwrite s.lh[tail] (s.cache (g.start + tail + 1))).goto p (.committing (.install (tail + 1))))
  | installDone (p) (tail) (hpc : s.pc p = .committing (.install tail)) (hge : s.lh.length ≤ tail) :
      Step g s (.commit p) (s.goto p (.committing .clearHead))
  | clearHead (p) (hpc : s.pc p = .committing .clearHead) :
      Step g s (.commit p) (commitStep g s p .clearHead)
  | release (p) (hpc : s.pc p = .committing .release) :
      Step g s (.commit p) (({ s with committing := false }.goto p .idle).wakeup)
  | kill (p) (hpc : s.pc p = .sleeping) : Step g s (.kill p) (s.goto p .waiting)
  | evict (b) (hdirty : s.dirty b = false) (hfree : ¬ Held s b) :
      Step g s (.evict b) { s with cache := update s.cache b (s.disk b) }

theorem step_cases {g : Region} {s t : State P} {a : Act P} (h : step g s a = some t) :
    s.panic = none ∧ Step g s a t := by
  unfold step at h
  split at h
  · simp at h
  next hp =>
    refine ⟨by simpa using hp, ?_⟩
    cases a with
    | beginOp p =>
        have hpc : s.pc p = .idle ∨ s.pc p = .waiting := by
          simp only at h
          split at h <;> simp_all
        have ht : beginOp s p = t := by
          rcases hpc with hpc | hpc <;> simpa [hpc] using h
        subst ht
        rw [beginOp]
        split
        next hc => exact .sleep p hpc (Or.inl hc)
        next hc =>
          split
          next hf => exact .sleep p hpc (Or.inr hf)
          next hf => exact .start p hpc (by simpa using hc) (by omega)
    | modify p b v =>
        simp only at h
        split at h
        next op hpc =>
          split at h
          · simp at h
          next hfree => exact (Option.some.inj h) ▸ .modify p op b v hpc hfree
        · simp at h
    | test p =>
        simp only at h
        split at h
        next op b hpc =>
          rw [← Option.some.inj h, logWriteTest]
          split
          next hf => exact .tooBig p op b hpc hf
          next hf =>
            rw [not_or, not_le, not_le] at hf
            split
            next ho => exact .outside p op b hpc ho
            next ho => exact .test p op b hpc hf.1 hf.2 (by omega)
        · simp at h
    | append p =>
        simp only at h
        split at h
        next op b hpc => exact (Option.some.inj h) ▸ .append p op b hpc
        · simp at h
    | endOp p =>
        simp only at h
        split at h
        next op hpc =>
          rw [← Option.some.inj h, endOp]
          split
          next hc => exact .panicEnd p op hpc hc
          next hc =>
            rw [Bool.not_eq_true] at hc
            split
            next hl => simpa only [hl] using Step.commit p op hpc hc hl
            next hl => exact .leave p op hpc hc hl
        · simp at h
    | commit p =>
        simp only at h
        split at h
        next st hpc =>
          rw [← Option.some.inj h]
          cases st with
          | writeLog tail =>
              rw [commitStep]
              split
              next hlt => exact .writeLog p tail hpc hlt
              next hge => exact .logDone p tail hpc (not_lt.mp hge)
          | writeHead => exact .writeHead p hpc
          | install tail =>
              rw [commitStep]
              split
              next hlt => exact .install p tail hpc hlt
              next hge => exact .installDone p tail hpc (not_lt.mp hge)
          | clearHead => exact .clearHead p hpc
          | release => exact .release p hpc
        · simp at h
    | kill p =>
        simp only at h
        split at h
        next hpc => exact (Option.some.inj h) ▸ .kill p hpc
        · simp at h
    | evict b =>
        simp only at h
        split at h
        · simp at h
        next hb =>
          rw [not_or] at hb
          exact (Option.some.inj h) ▸ .evict b (by simpa using hb.1) hb.2

end Xv6.Log
