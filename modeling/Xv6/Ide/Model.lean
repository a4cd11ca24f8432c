import Xv6.Lib.Chain
import Xv6.Lib.Runs
import Xv6.Param
import Mathlib

namespace Xv6.Ide

open Lib
open Function (update)

/-- The part of `struct buf` that the disk drivers use, without `qnext`; `valid` and `dirty` are the bits of
`flags`. -/
structure Buf where
  valid : Bool
  dirty : Bool
  dev : UInt32
  blockno : UInt32
  data : Block
  deriving DecidableEq

def Buf.synced (x : Buf) : Bool := x.valid && !x.dirty

abbrev BufId := Fin nbuf

/-- What can be seen of a driver: its callers lock buffers, fill them in, and call `iderw`, which returns with
the buffer as it then is. -/
inductive Event (P : Type)
  | acquiresleep (p : P) (b : BufId)
  | releasesleep (p : P) (b : BufId)
  | fill (p : P) (b : BufId) (x : Buf)
  | iderw (p : P) (b : BufId)
  | ret (p : P) (x : Buf)

namespace Mem

def iderw (disksize : Nat) (memdisk : Disk) (b : Buf) : Option (Disk × Buf) :=
  if b.synced then none
  else if b.dev ≠ 1 then none
  else if b.blockno.toNat ≥ disksize then none
  else if b.dirty then
    some (update memdisk b.blockno.toNat b.data, { b with dirty := false, valid := true })
  else some (memdisk, { b with data := memdisk b.blockno.toNat, valid := true })

inductive Pc
  | idle
  | called (b : BufId)
  | done (b : BufId)
  deriving DecidableEq

/-- Processes that use the memory disk. -/
structure State (P : Type) where
  memdisk : Disk
  buf : BufId → Buf
  holder : BufId → Option P
  pc : P → Pc

/-- `commit` is the execution of `iderw`, as one step, at some point between the call and the return. -/
inductive Act (P : Type)
  | event (e : Event P)
  | commit (p : P)

def Act.event? {P : Type} : Act P → Option (Event P)
  | .event e => some e
  | .commit _ => none

variable {P : Type} [DecidableEq P]

def State.goto (s : State P) (p : P) (pc : Pc) : State P := { s with pc := update s.pc p pc }

def State.setBuf (s : State P) (b : BufId) (x : Buf) : State P := { s with buf := update s.buf b x }

def State.setHolder (s : State P) (b : BufId) (o : Option P) : State P :=
  { s with holder := update s.holder b o }

def step (disksize : Nat) (s : State P) : Act P → Option (State P)
  | .event (.acquiresleep p b) => if s.pc p = .idle ∧ s.holder b = none then some (s.setHolder b (some p)) else none
  | .event (.releasesleep p b) => if s.pc p = .idle ∧ s.holder b = some p then some (s.setHolder b none) else none
  | .event (.fill p b x) => if s.pc p = .idle ∧ s.holder b = some p then some (s.setBuf b x) else none
  | .event (.iderw p b) => if s.pc p = .idle then some (s.goto p (.called b)) else none
  | .commit p =>
      match s.pc p with
      | .called b =>
          -- otherwise the panic "iderw: buf not locked"
          if s.holder b = some p then
            (iderw disksize s.memdisk (s.buf b)).map fun r =>
              { (s.setBuf b r.2).goto p (.done b) with memdisk := r.1 }
          else none
      | _ => none
  | .event (.ret p x) =>
      match s.pc p with
      | .done b => if s.buf b = x then some (s.goto p .idle) else none
      | _ => none

end Mem

/-- The registers of the controller that `idestart` writes before the command, at ports `0x1f2` to `0x1f6`. -/
structure Regs where
  count : UInt8
  lba0 : UInt8
  lba1 : UInt8
  lba2 : UInt8
  drive : UInt8

def Regs.of (dev blockno : UInt32) : Regs where
  count := 1
  lba0 := blockno.toUInt8
  lba1 := (blockno >>> 8).toUInt8
  lba2 := (blockno >>> 16).toUInt8
  drive := (0xe0 : UInt8) ||| ((dev &&& 1) <<< 4).toUInt8 ||| ((blockno >>> 24) &&& 0x0f).toUInt8

def Regs.sector (r : Regs) : Nat :=
  r.lba0.toNat + 2 ^ 8 * r.lba1.toNat + 2 ^ 16 * r.lba2.toNat + 2 ^ 24 * (r.drive &&& 0x0f).toNat

def Regs.disk1 (r : Regs) : Bool := (r.drive &&& 0x10) ≠ 0

/-- A command of the controller: a write with the data of `outsl`, or a read. The buffer for which it was issued
is recorded, but nothing depends on it. -/
structure Cmd where
  buf : BufId
  regs : Regs
  out : Option Block

inductive Ctrl
  | ready
  | busy (c : Cmd)
  /-- The command has been carried out and the interrupt is pending; `data` is what `insl` would read. -/
  | pending (c : Cmd) (data : Block) (err : Bool)

/-- Where a process is: outside of `iderw`, before the `acquire` of `idelock`, asleep or awake in the loop, or
after the loop. -/
inductive Pc
  | idle
  | entered (b : BufId)
  | sleeping (b : BufId)
  | woken (b : BufId)
  | returning (b : BufId)
  deriving DecidableEq

/-- The driver of `ide.c` with its two disks, and the processes that use it. No step depends on the last four
fields: they record the order in which buffers have been queued, started and taken off the queue, and how often
the buffer of a call has been transferred. -/
structure State (P : Type) where
  disk : Bool → Disk
  ctrl : Ctrl
  idequeue : Option BufId
  qnext : BufId → Option BufId
  buf : BufId → Buf
  holder : BufId → Option P
  pc : P → Pc
  arrived : List BufId
  started : List BufId
  finished : List BufId
  transfers : BufId → Nat

/-- What is done under `idelock` is one step. -/
inductive Act (P : Type)
  | event (e : Event P)
  /-- `iderw` from the `acquire` to the first `sleep`. -/
  | enqueue (p : P)
  /-- The condition of the loop, after `sleep` has returned. -/
  | recheck (p : P)
  /-- A `kill` of a process that sleeps. -/
  | kill (p : P)
  /-- The controller carries out its command. -/
  | perform (err : Bool)
  | ideintr

def Act.event? {P : Type} : Act P → Option (Event P)
  | .event e => some e
  | _ => none

variable {P : Type} [DecidableEq P]

namespace State

def goto (s : State P) (p : P) (pc : Pc) : State P := { s with pc := update s.pc p pc }

def setBuf (s : State P) (b : BufId) (x : Buf) : State P := { s with buf := update s.buf b x }

def setHolder (s : State P) (b : BufId) (o : Option P) : State P :=
  { s with holder := update s.holder b o }

def append (s : State P) (b : BufId) : Option (State P) :=
  let qnext := update s.qnext b none
  match s.idequeue with
  | none => some { s with qnext, idequeue := some b, arrived := s.arrived ++ [b] }
  | some head =>
      match lastNode qnext nbuf head with
      -- the list has no end
      | none => none
      | some last => some { s with qnext := update qnext last (some b), arrived := s.arrived ++ [b] }

def idestart (s : State P) (b : BufId) : Option (State P) :=
  -- the panic "incorrect blockno"
  if (s.buf b).blockno.toNat ≥ fssize then none
  else
    match s.ctrl with
    -- `idewait` waits
    | .busy _ => none
    | _ =>
        let out := if (s.buf b).dirty then some (s.buf b).data else none
        some { s with ctrl := .busy ⟨b, .of (s.buf b).dev (s.buf b).blockno, out⟩, started := s.started ++ [b] }

def startIfFirst (s : State P) (b : BufId) : Option (State P) :=
  if s.idequeue = some b then s.idestart b else some s

def startNext (s : State P) : Option (State P) :=
  match s.idequeue with
  | none => some s
  | some b => s.idestart b

/-- The test of the loop at the end of `iderw`. -/
def await (s : State P) (p : P) (b : BufId) : State P :=
  s.goto p (if (s.buf b).synced then .returning b else .sleeping b)

def wakeup (s : State P) (b : BufId) : State P :=
  { s with pc := fun p => if s.pc p = .sleeping b then .woken b else s.pc p }

def perform (s : State P) (c : Cmd) (err : Bool) : State P :=
  if err then { s with ctrl := .pending c (fun _ => 0) true }
  else
    let old := s.disk c.regs.disk1
    let disk :=
      match c.out with
      | none => s.disk
      | some data => update s.disk c.regs.disk1 (update old c.regs.sector data)
    { s with
      disk
      ctrl := .pending c (old c.regs.sector) false
      transfers := update s.transfers c.buf (s.transfers c.buf + 1) }

end State

/-- What `ideintr` makes of the buffer at the head of the queue, when the controller holds `data`. -/
def Buf.finish (x : Buf) (data : Block) (err : Bool) : Buf :=
  { x with data := if !x.dirty && !err then data else x.data, valid := true, dirty := false }

def ideintr (s : State P) (data : Block) (err : Bool) : Option (State P) :=
  match s.idequeue with
  | none => some s
  | some b =>
      let t := { s.setBuf b ((s.buf b).finish data err) with idequeue := s.qnext b, finished := s.finished ++ [b] }
      (t.wakeup b).startNext

def step (havedisk1 : Bool) (s : State P) : Act P → Option (State P)
  | .event (.acquiresleep p b) => if s.pc p = .idle ∧ s.holder b = none then some (s.setHolder b (some p)) else none
  | .event (.releasesleep p b) => if s.pc p = .idle ∧ s.holder b = some p then some (s.setHolder b none) else none
  | .event (.fill p b x) => if s.pc p = .idle ∧ s.holder b = some p then some (s.setBuf b x) else none
  | .event (.iderw p b) =>
      if s.pc p = .idle then
        -- the panics of `iderw`
        if s.holder b ≠ some p then none
        else if (s.buf b).synced then none
        else if (s.buf b).dev ≠ 0 ∧ havedisk1 = false then none
        else some { s.goto p (.entered b) with transfers := update s.transfers b 0 }
      else none
  | .enqueue p =>
      match s.pc p with
      | .entered b => (s.append b).bind fun t => (t.startIfFirst b).map fun t => t.await p b
      | _ => none
  | .recheck p =>
      match s.pc p with
      | .woken b => some (s.await p b)
      | _ => none
  | .kill p =>
      match s.pc p with
      | .sleeping b => some (s.goto p (.woken b))
      | _ => none
  | .event (.ret p x) =>
      match s.pc p with
      | .returning b => if s.buf b = x then some (s.goto p .idle) else none
      | _ => none
  | .perform err =>
      match s.ctrl with
      | .busy c => some (s.perform c err)
      | _ => none
  | .ideintr =>
      match s.ctrl with
      | .pending _ data err => ideintr { s with ctrl := .ready } data err
      | _ => none

def start (disk : Bool → Disk) (buf : BufId → Buf) : State P where
  disk
  ctrl := .ready
  idequeue := none
  qnext _ := none
  buf
  holder _ := none
  pc _ := .idle
  arrived := []
  started := []
  finished := []
  transfers _ := 0

def Mem.start (memdisk : Disk) (buf : BufId → Buf) : Mem.State P := ⟨memdisk, buf, fun _ => none, fun _ => .idle⟩

def Fine (s : State P) : Act P → Prop
  | .event (.iderw _ b) => (s.buf b).dev = 1 ∧ (s.buf b).blockno.toNat < fssize
  | .perform err => err = false
  | _ => True

theorem Regs.of_spec {blockno : UInt32} (h : blockno.toNat < fssize) :
    (Regs.of 1 blockno).sector = blockno.toNat ∧ (Regs.of 1 blockno).disk1 = true := by
  have hall : ∀ n : Fin fssize, (Regs.of 1 (UInt32.ofNat n)).sector = n ∧ (Regs.of 1 (UInt32.ofNat n)).disk1 =
    true := by
    decide +kernel
  have := hall ⟨blockno.toNat, h⟩
  rwa [UInt32.ofNat_toNat] at this

end Xv6.Ide
