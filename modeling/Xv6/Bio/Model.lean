import Xv6.Bio.Cache
import Xv6.Log.Recovery

namespace Xv6.Bio

open Lib Ide

inductive Stage
  | writeLog (tail : Nat)
  | writeHead
  | install (tail : Nat)
  | clear
  | release
  deriving DecidableEq

/-- What `commit` does to buffers, which it has from `bread` and names by their blocks. -/
inductive Cmd
  | bread (blockno : UInt32)
  | memmove (dst src : UInt32)
  | putHead (blockno : UInt32)
  | bwrite (blockno : UInt32)
  | brelse (blockno : UInt32)
  deriving DecidableEq

/-- Where a process is with respect to the log: `op` says whether it is between `begin_op` and `end_op`. In
`logWrite` it is in `log_write`, past the unlocked tests. In `commit` it has the given commands to do before the
next stage. -/
inductive Pc
  | call (op : Bool)
  | logWrite (op : Bool) (b : BufId)
  | commit (st : Stage) (todo : List Cmd)
  deriving DecidableEq

/-- The buffer cache and `log`; `lh` is the part of `log.lh.block` below `log.lh.n`. `panicked` is set by the panic
"bget: no buffers"; the other panics stop a run. -/
structure State (P : Type) extends Cache P where
  outstanding : Nat
  committing : Bool
  lh : List UInt32
  pc : P → Pc
  panicked : Bool

inductive Act (P : Type)
  | bread (p : P) (dev blockno : UInt32)
  | acquire (p : P)
  | load (p : P)
  | modify (p : P) (b : BufId) (data : Block)
  | logWrite (p : P) (b : BufId)
  | append (p : P)
  | bwrite (p : P) (b : BufId)
  | brelse (p : P) (b : BufId)
  | drop (p : P)
  | beginOp (p : P)
  | endOp (p : P)
  | commit (p : P)

/-- After `binit`, with an empty log. What `initlog` does to the cache is what any caller can do to it. -/
def boot (P : Type) (d : Disk) : State P where
  toCache := binit P d
  outstanding := 0
  committing := false
  lh := []
  pc := fun _ => .call false
  panicked := false

def writeLogCmds (dst src : UInt32) : List Cmd :=
  [.bread dst, .bread src, .memmove dst src, .bwrite dst, .brelse src, .brelse dst]

/-- One round of the loop of `install_trans`. -/
def installCmds (lblock dblock : UInt32) : List Cmd :=
  [.bread lblock, .bread dblock, .memmove dblock lblock, .bwrite dblock, .brelse lblock, .brelse dblock]

def writeHeadCmds (start : UInt32) : List Cmd := [.bread start, .putHead start, .bwrite start, .brelse start]

def absorb (lh : List UInt32) (blockno : UInt32) : List UInt32 := if blockno ∈ lh then lh else lh ++ [blockno]

variable {P : Type} [DecidableEq P]

def Cache.heldBy (c : Cache P) (p : P) (blockno : UInt32) : Option BufId :=
  (List.finRange nbuf).find? fun b => decide (c.holder b = some p ∧ (c.buf b).blockno = blockno)

namespace State

def cacheStep (disksize : Nat) (s : State P) (o : Op P) : Option (State P) :=
  (s.toCache.step disksize o).map fun c => { s with toCache := c }

def become (s : State P) (p : P) (pc : Pc) : State P := { s with pc := Function.update s.pc p pc }

def bread (s : State P) (p : P) (dev blockno : UInt32) : Option (State P) :=
  if s.pos p = .out then
    match s.bget p dev blockno with
    | some c => some { s with toCache := c }
    | none => some { s with panicked := true }
  else none

def exec (disksize : Nat) (s : State P) (p : P) : Cmd → Option (State P)
  | .bread blockno => s.bread p 1 blockno
  | .memmove dst src =>
      (s.heldBy p dst).bind fun b => (s.heldBy p src).bind fun b' => s.cacheStep disksize
        (.modify p b (s.buf b').data)
  | .putHead blockno =>
      (s.heldBy p blockno).bind fun b =>
        s.cacheStep disksize (.modify p b (Log.writeHead (s.lh.map UInt32.toNat) (s.buf b).data))
  | .bwrite blockno => (s.heldBy p blockno).bind fun b => s.cacheStep disksize (.bwrite p b)
  | .brelse blockno => (s.heldBy p blockno).bind fun b => s.cacheStep disksize (.brelse p b)

/-- The control flow of `commit` and of the end of `end_op`. -/
def advance (g : Log.Region) (s : State P) (p : P) : Stage → State P
  | .writeLog tail =>
      if h : tail < s.lh.length then
        s.become p (.commit (.writeLog (tail + 1)) (writeLogCmds (UInt32.ofNat (g.start + tail + 1)) s.lh[tail]))
      else s.become p (.commit .writeHead [])
  | .writeHead => s.become p (.commit (.install 0) (writeHeadCmds (UInt32.ofNat g.start)))
  | .install tail =>
      if h : tail < s.lh.length then
        s.become p (.commit (.install (tail + 1)) (installCmds (UInt32.ofNat (g.start + tail + 1)) s.lh[tail]))
      else s.become p (.commit .clear [])
  | .clear => { s with lh := [] }.become p (.commit .release (writeHeadCmds (UInt32.ofNat g.start)))
  | .release => { s with committing := false }.become p (.call false)

def beginOp (s : State P) (p : P) : Option (State P) :=
  if s.committing then none
  else if logsize < s.lh.length + (s.outstanding + 1) * maxopblocks then none
  else some ({ s with outstanding := s.outstanding + 1 }.become p (.call true))

def endOp (s : State P) (p : P) : Option (State P) :=
  if s.committing then none
  else if s.outstanding - 1 = 0 then
    some ({ s with outstanding := s.outstanding - 1, committing := true }.become p
      (.commit (if s.lh = [] then .release else .writeLog 0) []))
  else some ({ s with outstanding := s.outstanding - 1 }.become p (.call false))

/-- A step of a process that is not in `commit`, by what it calls. -/
def call (g : Log.Region) (disksize : Nat) (s : State P) (p : P) (op : Bool) : Act P → Option (State P)
  | .bread _ dev blockno => s.bread p dev blockno
  | .modify _ b data => s.cacheStep disksize (.modify p b data)
  | .logWrite _ b =>
      if s.pos p = .out ∧ s.holder b = some p then
        if logsize ≤ s.lh.length ∨ g.size - 1 ≤ s.lh.length then none
        else if s.outstanding < 1 then none
        else some (s.become p (.logWrite op b))
      else none
  | .bwrite _ b => s.cacheStep disksize (.bwrite p b)
  | .brelse _ b => s.cacheStep disksize (.brelse p b)
  | .beginOp _ => if s.pos p = .out ∧ op = false then s.beginOp p else none
  | .endOp _ => if s.pos p = .out ∧ op = true then s.endOp p else none
  | _ => none

end State

def Act.proc : Act P → P
  | .bread p _ _ | .acquire p | .load p | .modify p _ _ | .logWrite p _ | .append p | .bwrite p _
      | .brelse p _ | .drop p
  | .beginOp p | .endOp p | .commit p => p

def step (g : Log.Region) (disksize : Nat) (s : State P) (a : Act P) : Option (State P) :=
  if s.panicked then none
  else
    match a, s.pc a.proc with
    | .acquire p, _ => s.cacheStep disksize (.acquire p)
    | .load p, _ => s.cacheStep disksize (.load p)
    | .drop p, _ => s.cacheStep disksize (.drop p)
    | .append p, .logWrite op b =>
        (s.cacheStep disksize (.mark p b)).map fun t =>
          { t with lh := absorb s.lh (s.buf b).blockno }.become p (.call op)
    | .commit p, .commit st (cmd :: todo) => (s.exec disksize p cmd).map fun t => t.become p (.commit st todo)
    | .commit p, .commit st [] => if s.pos p = .out then some (s.advance g p st) else none
    | a, .call op => s.call g disksize a.proc op a
    | _, _ => none

end Xv6.Bio
