import Xv6.Fs.BlockOwnership
import Xv6.Fs.Dirent

namespace Xv6.Mkfs

open Lib Lib.Bytes Fs

abbrev ninodes : Nat := 200

abbrev nbitmap : Nat := fssize / (bsize * 8) + 1

abbrev ninodeblocks : Nat := ninodes / ipb + 1

abbrev nlog : Nat := logsize

abbrev nmeta : Nat := 2 + nlog + ninodeblocks + nbitmap

def sb : Layout where
  size := fssize
  nblocks := fssize - nmeta
  ninodes := ninodes
  nlog := nlog
  logstart := 2
  inodestart := 2 + nlog
  bmapstart := 2 + nlog + ninodeblocks
  inodes_fit := by decide
  bitmap_fit := by decide
  size_lt := by decide
  ninodes_le := by decide

/-- How a run of mkfs ends, other than with status 0: `exit(1)` or a failed assertion. -/
inductive Exit
  | failure
  | abort
  deriving DecidableEq

/-- The image file, with its length in sectors, and the two counters. -/
structure State where
  image : Disk
  nsect : Nat
  freeinode : Nat
  freeblock : Nat

abbrev MkM := Exec State Exit

def assert (c : Prop) [Decidable c] : MkM Unit := if c then pure () else Exec.fail .abort

def State.write (s : State) (sec : Nat) (buf : Block) : State :=
  { s with image := Function.update s.image sec buf, nsect := max s.nsect (sec + 1) }

def wsect (sec : Nat) (buf : Block) : MkM Unit := Exec.update fun s => s.write sec buf

def rsect (sec : Nat) : MkM Block := do
  if sec < (← Exec.gets State.nsect) then Exec.gets fun s => s.image sec
  else Exec.fail .failure

def winode (inum : Nat) (ip : Dinode) : MkM Unit := do
  let buf ← rsect (sb.iblock inum)
  wsect (sb.iblock inum) (putDinode buf inum ip)

def rinode (inum : Nat) : MkM Dinode := do
  let buf ← rsect (sb.iblock inum)
  pure (getDinode buf inum)

def ialloc (type : Int16) : MkM Nat := do
  let inum ← Exec.gets State.freeinode
  Exec.update fun s => { s with freeinode := inum + 1 }
  winode inum { Dinode.fresh type with nlink := 1 }
  pure inum

def newBlock : MkM UInt32 := do
  let b ← Exec.gets State.freeblock
  Exec.update fun s => { s with freeblock := b + 1 }
  pure (UInt32.ofNat b)

def indirectBlock (din : Dinode) : MkM Dinode :=
  if din.ind = 0 then do
    let b ← newBlock
    pure { din with addrs := Function.update din.addrs (Fin.last ndirect) b }
  else pure din

def fileBlockOf (din : Dinode) (fbn : Nat) : MkM (UInt32 × Dinode) :=
  if h : fbn < ndirect then
    if din.addrs (Fin.castSucc ⟨fbn, h⟩) = 0 then do
      let b ← newBlock
      pure (b, { din with addrs := Function.update din.addrs (Fin.castSucc ⟨fbn, h⟩) b })
    else pure (din.addrs (Fin.castSucc ⟨fbn, h⟩), din)
  else do
    let din ← indirectBlock din
    let indirect ← rsect din.ind.toNat
    if getAddr indirect (fbn - ndirect) = 0 then do
      let b ← newBlock
      wsect din.ind.toNat (putAddr indirect (fbn - ndirect) b)
      pure (b, din)
    else pure (getAddr indirect (fbn - ndirect), din)

/-- The loop of `iappend`; each round takes at least one byte of `p`. -/
def appendChunks : (fuel : Nat) → Dinode → (off : Nat) → List UInt8 → MkM (Dinode × Nat)
  | 0, din, off, _ => pure (din, off)
  | fuel + 1, din, off, p =>
      if p = [] then pure (din, off)
      else do
        let fbn := off / bsize
        assert (fbn < maxfile)
        let (x, din) ← fileBlockOf din fbn
        let n1 := min p.length ((fbn + 1) * bsize - off)
        let buf ← rsect x.toNat
        wsect x.toNat (putBytes buf (off - fbn * bsize) (p.take n1))
        appendChunks fuel din (off + n1) (p.drop n1)

def iappend (inum : Nat) (p : List UInt8) : MkM Unit := do
  let din ← rinode inum
  let (din, off) ← appendChunks p.length din din.size.toNat p
  winode inum { din with size := UInt32.ofNat off }

def bitmap : (used : Nat) → Block
  | 0 => fun _ => 0
  | used + 1 => setBit (bitmap used) used

def balloc (used : Nat) : MkM Unit := do
  assert (used < bsize * 8)
  wsect sb.bmapstart (bitmap used)

/-- An input file: its name and, if it can be opened, what the calls of `read` return. -/
structure File where
  name : List UInt8
  noNul : 0 ∉ name
  reads : Option (List (List UInt8))
  sizes : ∀ cs ∈ reads, ∀ c ∈ cs, 0 < c.length ∧ c.length ≤ bsize

def stripName : List UInt8 → List UInt8
  | [] => []
  | c :: cs => if c = 95 then cs else c :: cs

def copyReads (inum : Nat) : List (List UInt8) → MkM Unit
  | [] => pure ()
  | c :: cs => do
      iappend inum c
      copyReads inum cs

def addFile (f : File) : MkM Unit := do
  assert (47 ∉ f.name)
  match f.reads with
  | none => Exec.fail .failure
  | some cs => do
      let inum ← ialloc tFile
      iappend rootino (Dirent.of (UInt16.ofNat inum) (stripName f.name)).bytes
      copyReads inum cs

def addFiles : List File → MkM Unit
  | [] => pure ()
  | f :: fs => do
      addFile f
      addFiles fs

def zeroSectors : Nat → MkM Unit
  | 0 => pure ()
  | n + 1 => do
      zeroSectors n
      wsect n fun _ => 0

/-- The super block, which holds the seven numbers in the order of `struct superblock`. -/
def sbBlock : Block :=
  putWords (fun _ => 0) 0 [sb.size, sb.nblocks, sb.ninodes, sb.nlog, sb.logstart, sb.inodestart, sb.bmapstart]

def makeRoot : MkM Unit := do
  let rootino' ← ialloc tDir
  assert (rootino' = rootino)
  iappend rootino (Dirent.of (UInt16.ofNat rootino) [46]).bytes
  iappend rootino (Dirent.of (UInt16.ofNat rootino) [46, 46]).bytes

def fixRoot : MkM Unit := do
  let din ← rinode rootino
  winode rootino { din with size := (din.size / 512 + 1) * 512 }

def build (files : List File) : MkM Unit := do
  makeRoot
  addFiles files
  fixRoot
  balloc (← Exec.gets State.freeblock)

def main (files : List File) : MkM Unit := do
  zeroSectors fssize
  wsect 1 sbBlock
  build files

def start : State := ⟨fun _ _ => 0, 0, 1, nmeta⟩

end Xv6.Mkfs
