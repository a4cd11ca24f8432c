import Xv6.Fs.Layout
import Xv6.Lib.Exec
import Xv6.Panic

namespace Xv6.Fs

open Lib Lib.Bytes

abbrev tDir : Int16 := 1
abbrev tFile : Int16 := 2
abbrev tDev : Int16 := 3

/-- The state of the file system: what `bread` returns for each block, and the inode cache. -/
structure State where
  disk : Disk
  icache : ICache

abbrev FsM := Exec State Halt

/-- The table of device drivers. A driver's read gets the offset and length, its write the data
as well; it returns what the C function returns, with the bytes it has stored, no more than it was
asked for, unless it sleeps for ever. -/
class Devsw where
  read : Int16 → Option (UInt32 → UInt32 → Option (Int × List UInt8))
  write : Int16 → Option ((Nat → UInt8) → UInt32 → UInt32 → Option Int)
  read_le : ∀ major f off n r, read major = some f → f off n = some r → r.2.length ≤ n.toNat

def panic {α : Type} (p : Panic) : FsM α := Exec.fail (.panic p)

def bread (b : Nat) : FsM Block := Exec.gets fun s => s.disk b

def logWrite (b : Nat) (v : Block) : FsM Unit :=
  Exec.update fun s => { s with disk := Function.update s.disk b v }

def bzero (b : Nat) : FsM Unit := logWrite b fun _ => 0

def inode (i : Fin ninode) : FsM Inode := Exec.gets fun s => s.icache i

theorem inode_eq (i : Fin ninode) (s : State) : inode i s = .ok (s.icache i, s) := rfl

def setInode (i : Fin ninode) (ip : Inode) : FsM Unit :=
  Exec.update fun s => { s with icache := Function.update s.icache i ip }

variable (sb : Layout)

/-- The block at which the two nested loops of `balloc` stop: they go through the bits of the free
map in the order of the block numbers. -/
def firstFree (d : Disk) : Option Nat := (List.range sb.size).find? fun b => !inUse sb d b

def balloc : FsM UInt32 := do
  match firstFree sb (← Exec.gets fun s => s.disk) with
  | none => panic .ballocOutOfBlocks
  | some b => do
      let bp ← bread (sb.bblock b)
      logWrite (sb.bblock b) (setBit bp (b % bpb))
      bzero b
      pure (UInt32.ofNat b)

def bfree (b : Nat) : FsM Unit := do
  let bp ← bread (sb.bblock b)
  if getBit bp (b % bpb) = false then panic .freeingFreeBlock
  else logWrite (sb.bblock b) (clearBit bp (b % bpb))

def iupdate (i : Fin ninode) : FsM Unit := do
  let ip ← inode i
  let bp ← bread (sb.iblock ip.inum)
  logWrite (sb.iblock ip.inum) (putDinode bp ip.inum ip.toDinode)

def igetM (dev inum : Nat) : FsM (Fin ninode) := do
  match iget (← Exec.gets fun s => s.icache) dev inum with
  | none => panic .igetNoInodes
  | some (i, c) => do
      Exec.update fun s => { s with icache := c }
      pure i

/-- The first free inode number, at which the loop of `ialloc` stops. -/
def firstFreeInode (d : Disk) : Option Nat :=
  (List.range sb.ninodes).find? fun inum => inum ≠ 0 ∧ (dinode sb d inum).type = 0

def ialloc (dev : Nat) (type : Int16) : FsM (Fin ninode) := do
  match firstFreeInode sb (← Exec.gets fun s => s.disk) with
  | none => panic .iallocNoInodes
  | some inum => do
      let bp ← bread (sb.iblock inum)
      logWrite (sb.iblock inum) (putDinode bp inum (.fresh type))
      igetM dev inum

def idupM (i : Fin ninode) : FsM (Fin ninode) := do
  Exec.update fun s => { s with icache := idup s.icache i }
  pure i

def ilock (i : Fin ninode) : FsM Unit := do
  let ip ← inode i
  if ip.ref < 1 then panic .ilock
  else if ip.valid then pure ()
  else do
    let bp ← bread (sb.iblock ip.inum)
    let dip := getDinode bp ip.inum
    setInode i { ip with toDinode := dip, valid := true }
    if dip.type = 0 then panic .ilockNoType else pure ()

def iunlock (i : Fin ninode) : FsM Unit := do
  let ip ← inode i
  if ip.ref < 1 then panic .iunlock else pure ()

def setAddr (i : Fin ninode) (k : Fin (ndirect + 1)) (a : UInt32) : FsM Unit := do
  let ip ← inode i
  setInode i { ip with addrs := Function.update ip.addrs k a }

def bmapIndirect (i : Fin ninode) : FsM UInt32 := do
  let ip ← inode i
  if ip.addrs (Fin.last ndirect) = 0 then do
    let a ← balloc sb
    setAddr i (Fin.last ndirect) a
    pure a
  else pure (ip.addrs (Fin.last ndirect))

def bmap (i : Fin ninode) (bn : Nat) : FsM UInt32 := do
  let ip ← inode i
  if h : bn < ndirect then
    if ip.addrs (Fin.castSucc ⟨bn, h⟩) = 0 then do
      let a ← balloc sb
      setAddr i (Fin.castSucc ⟨bn, h⟩) a
      pure a
    else pure (ip.addrs (Fin.castSucc ⟨bn, h⟩))
  else if bn - ndirect < nindirect then do
    let addr ← bmapIndirect sb i
    let bp ← bread addr.toNat
    if getAddr bp (bn - ndirect) = 0 then do
      let a ← balloc sb
      logWrite addr.toNat (putAddr bp (bn - ndirect) a)
      pure a
    else pure (getAddr bp (bn - ndirect))
  else panic .bmapOutOfRange

/-- The first loop of `itrunc`, over the given direct pointers. -/
def truncDirect (i : Fin ninode) : List (Fin (ndirect + 1)) → FsM Unit
  | [] => pure ()
  | k :: ks => do
      let ip ← inode i
      if ip.addrs k ≠ 0 then do
        bfree sb (ip.addrs k).toNat
        setAddr i k 0
        truncDirect i ks
      else truncDirect i ks

/-- The second loop of `itrunc`, over the entries of the indirect block. -/
def truncEntries : List UInt32 → FsM Unit
  | [] => pure ()
  | a :: as => do
      if a ≠ 0 then do
        bfree sb a.toNat
        truncEntries as
      else truncEntries as

def entries (bp : Block) : List UInt32 := (List.range nindirect).map (getAddr bp)

def truncIndirect (i : Fin ninode) : FsM Unit := do
  let ip ← inode i
  if ip.addrs (Fin.last ndirect) ≠ 0 then do
    let bp ← bread (ip.addrs (Fin.last ndirect)).toNat
    truncEntries sb (entries bp)
    bfree sb (ip.addrs (Fin.last ndirect)).toNat
    setAddr i (Fin.last ndirect) 0
  else pure ()

def itrunc (i : Fin ninode) : FsM Unit := do
  truncDirect sb i ((List.finRange ndirect).map Fin.castSucc)
  truncIndirect sb i
  let ip ← inode i
  setInode i { ip with size := 0 }
  iupdate sb i

def iput (i : Fin ninode) : FsM Unit := do
  let ip ← inode i
  if ip.ref = 1 ∧ ip.valid = true ∧ ip.nlink = 0 then do
    itrunc sb i
    let ip ← inode i
    setInode i { ip with type := 0 }
    iupdate sb i
    let ip ← inode i
    setInode i { ip with valid := false, ref := ip.ref - 1 }
  else setInode i { ip with ref := ip.ref - 1 }

def iunlockput (i : Fin ninode) : FsM Unit := do
  iunlock i
  iput sb i

/-- The loop of `readi`; each round copies at least one byte, so `n` rounds are enough. -/
def readChunks (i : Fin ninode) : (fuel off n : Nat) → FsM (List UInt8)
  | 0, _, _ => pure []
  | fuel + 1, off, n =>
      if n = 0 then pure []
      else do
        let b ← bmap sb i (off / bsize)
        let bp ← bread b.toNat
        let m := min n (bsize - off % bsize)
        let rest ← readChunks i fuel (off + m) (n - m)
        pure (getBytes bp (off % bsize) m ++ rest)

/-- The loop of `writei`, from byte `tot` of the source on; returns the final offset. -/
def writeChunks (i : Fin ninode) (src : Nat → UInt8) : (fuel tot off n : Nat) → FsM Nat
  | 0, _, off, _ => pure off
  | fuel + 1, tot, off, n =>
      if tot < n then do
        let b ← bmap sb i (off / bsize)
        let bp ← bread b.toNat
        let m := min (n - tot) (bsize - off % bsize)
        logWrite b.toNat (putBytes bp (off % bsize) ((List.range m).map fun k => src (tot + k)))
        writeChunks i src fuel (tot + m) (off + m) n
      else pure off

variable [Devsw]

def hasDriver (major : Int16) : Prop := 0 ≤ major ∧ major.toInt < ndev

instance (major : Int16) : Decidable (hasDriver major) := inferInstanceAs (Decidable (_ ∧ _))

def ofDriver {α : Type} : Option α → FsM α
  | none => Exec.fail .asleep
  | some r => pure r

/-- The device branch of `readi`. -/
def devRead (major : Int16) (off n : UInt32) : FsM (Int × List UInt8) :=
  if hasDriver major then
    match Devsw.read major with
    | none => pure (-1, [])
    | some f => ofDriver (f off n)
  else pure (-1, [])

def devWrite (major : Int16) (src : Nat → UInt8) (off n : UInt32) : FsM Int :=
  if hasDriver major then
    match Devsw.write major with
    | none => pure (-1)
    | some f => ofDriver (f src off n)
  else pure (-1)

def readi (i : Fin ninode) (off n : UInt32) : FsM (Int × List UInt8) := do
  let ip ← inode i
  if ip.type = tDev then devRead ip.major off n
  else if off > ip.size ∨ off + n < off then pure (-1, [])
  else do
    let n := if off + n > ip.size then ip.size - off else n
    let bs ← readChunks sb i n.toNat off.toNat n.toNat
    pure (n.toInt32.toInt, bs)

def writei (i : Fin ninode) (src : Nat → UInt8) (off n : UInt32) : FsM Int := do
  let ip ← inode i
  if ip.type = tDev then devWrite ip.major src off n
  else if off > ip.size ∨ off + n < off then pure (-1)
  else if (off + n).toNat > maxfile * bsize then pure (-1)
  else do
    let off ← writeChunks sb i src n.toNat 0 off.toNat n.toNat
    let ip ← inode i
    if n > 0 ∧ off > ip.size.toNat then do
      setInode i { ip with size := UInt32.ofNat off }
      iupdate sb i
      pure n.toInt32.toInt
    else pure n.toInt32.toInt

end Xv6.Fs
