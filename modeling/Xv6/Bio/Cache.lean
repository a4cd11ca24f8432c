import Xv6.Ide.Model
import Xv6.Lib.LinkedRing
import Mathlib

namespace Xv6.Bio

open Lib Ide
open Function (update)

/-- Where a process is inside `bio.c`. In `acquiring` it is in `bget`, past the critical section; in `locked` it
is back in `bread`; in `releasing` it is in `brelse`, past `releasesleep`. -/
inductive At
  | out
  | acquiring (dev blockno : UInt32) (b : BufId)
  | locked (dev blockno : UInt32) (b : BufId)
  | releasing (b : BufId)
  deriving DecidableEq

/-- `bcache`, the memory disk and the sleep locks of the buffers. The last three fields are history: whether
`bget` has ever taken the buffer for a block, whether its data were changed since they were last written, and
the contents last written to each block of the disk. -/
structure Cache (P : Type) where
  memdisk : Disk
  links : Links BufId
  buf : BufId → Ide.Buf
  refcnt : BufId → Nat
  holder : BufId → Option P
  pos : P → At
  bound : BufId → Bool
  changed : BufId → Bool
  latest : Disk

inductive Op (P : Type)
  | bread (p : P) (dev blockno : UInt32)
  | acquire (p : P)
  | load (p : P)
  | modify (p : P) (b : BufId) (data : Block)
  | mark (p : P) (b : BufId)
  | bwrite (p : P) (b : BufId)
  | brelse (p : P) (b : BufId)
  | drop (p : P)

def binitLinks : Links BufId := (List.finRange nbuf).foldl Links.pushFront Links.empty

def binit (P : Type) (d : Disk) : Cache P where
  memdisk := d
  links := binitLinks
  buf := fun _ => ⟨false, false, 0, 0, fun _ => 0⟩
  refcnt := fun _ => 0
  holder := fun _ => none
  pos := fun _ => .out
  bound := fun _ => false
  changed := fun _ => false
  latest := d

namespace Cache

variable {P : Type}

def Key (c : Cache P) (b : BufId) (dev blockno : UInt32) : Prop := (c.buf b).dev = dev ∧ (c.buf b).blockno = blockno

instance (c : Cache P) (b : BufId) (dev blockno : UInt32) : Decidable (c.Key b dev blockno) :=
  inferInstanceAs (Decidable (_ ∧ _))

/-- The first loop of `bget`. -/
def cached (c : Cache P) (dev blockno : UInt32) : Option BufId :=
  Links.find c.links.next (fun b => decide (c.Key b dev blockno)) (nbuf + 1) (c.links.next none)

/-- The second loop of `bget`. -/
def unused (c : Cache P) : Option BufId :=
  Links.find c.links.prev (fun b => c.refcnt b == 0 && !(c.buf b).dirty) (nbuf + 1) (c.links.prev none)

variable [DecidableEq P]

def goto (c : Cache P) (p : P) (a : At) : Cache P := { c with pos := update c.pos p a }

def bget (c : Cache P) (p : P) (dev blockno : UInt32) : Option (Cache P) :=
  match c.cached dev blockno with
  | some b =>
      some ({ c with refcnt := update c.refcnt b (c.refcnt b + 1) }.goto p (.acquiring dev blockno b))
  | none =>
      match c.unused with
      | some b =>
          some ({ c with
            buf := update c.buf b ⟨false, false, dev, blockno, (c.buf b).data⟩
            refcnt := update c.refcnt b 1
            bound := update c.bound b true }.goto p (.acquiring dev blockno b))
      | none => none

omit [DecidableEq P] in
def fetch (disksize : Nat) (c : Cache P) (b : BufId) : Option (Cache P) :=
  if (c.buf b).valid then some c
  else (Mem.iderw disksize c.memdisk (c.buf b)).map fun r =>
    { c with memdisk := r.1, buf := update c.buf b r.2 }

omit [DecidableEq P] in
def modify (c : Cache P) (b : BufId) (data : Block) : Cache P :=
  { c with
    buf := update c.buf b { c.buf b with data := data }
    changed := update c.changed b true }

omit [DecidableEq P] in
def written (c : Cache P) (b : BufId) : Cache P :=
  { c with
    changed := update c.changed b false
    latest := update c.latest (c.buf b).blockno.toNat (c.buf b).data }

omit [DecidableEq P] in
/-- `b->flags |= B_DIRTY` at the end of `log_write`. -/
def mark (c : Cache P) (b : BufId) : Cache P :=
  { c.written b with buf := update c.buf b { c.buf b with dirty := true } }

omit [DecidableEq P] in
def bwrite (disksize : Nat) (c : Cache P) (b : BufId) : Option (Cache P) :=
  (Mem.iderw disksize c.memdisk { c.buf b with dirty := true }).map fun r =>
    { c.written b with memdisk := r.1, buf := update c.buf b r.2 }

omit [DecidableEq P] in
/-- The critical section of `brelse`. -/
def drop (c : Cache P) (b : BufId) : Cache P :=
  { c with
    refcnt := update c.refcnt b (c.refcnt b - 1)
    links := if c.refcnt b - 1 = 0 then (c.links.unlink b).pushFront b else c.links }

/-- A process that is outside `bio.c` uses only buffers it has locked, and does not release one whose data it
has changed and not written. -/
def step (disksize : Nat) (c : Cache P) : Op P → Option (Cache P)
  | .bread p dev blockno => if c.pos p = .out then c.bget p dev blockno else none
  | .acquire p =>
      match c.pos p with
      | .acquiring dev blockno b =>
          if c.holder b = none then
            some ({ c with holder := update c.holder b (some p) }.goto p (.locked dev blockno b))
          else none
      | _ => none
  | .load p =>
      match c.pos p with
      | .locked _ _ b => (c.fetch disksize b).map fun d => d.goto p .out
      | _ => none
  | .modify p b data => if c.pos p = .out ∧ c.holder b = some p then some (c.modify b data) else none
  | .mark p b => if c.pos p = .out ∧ c.holder b = some p then some (c.mark b) else none
  | .bwrite p b => if c.pos p = .out ∧ c.holder b = some p then c.bwrite disksize b else none
  | .brelse p b =>
      if c.pos p = .out ∧ c.holder b = some p ∧ c.changed b = false then
        some ({ c with holder := update c.holder b none }.goto p (.releasing b))
      else none
  | .drop p =>
      match c.pos p with
      | .releasing b => some ((c.drop b).goto p .out)
      | _ => none

end Cache

end Xv6.Bio
