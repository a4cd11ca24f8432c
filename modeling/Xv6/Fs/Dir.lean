import Xv6.Fs.Dirent
import Xv6.Fs.Ops

namespace Xv6.Fs

open Lib

variable (sb : Layout) [Devsw]

abbrev dirent16 : UInt32 := 16

/-- The loop of `dirlookup`; each round looks at one entry. -/
def lookupFrom (i : Fin ninode) (name : List UInt8) : (fuel off : Nat) → FsM (Option (Fin ninode × Nat))
  | 0, _ => pure none
  | fuel + 1, off => do
      let dp ← inode i
      if off < dp.size.toNat then do
        let (r, bs) ← readi sb i (UInt32.ofNat off) dirent16
        if r ≠ 16 then panic .dirlookupRead
        else if (Dirent.ofBytes bs).inum = 0 then lookupFrom i name fuel (off + 16)
        else if namecmp name (Dirent.ofBytes bs).name = 0 then do
          let ip ← igetM dp.dev (Dirent.ofBytes bs).inum.toNat
          pure (some (ip, off))
        else lookupFrom i name fuel (off + 16)
      else pure none

def dirlookup (i : Fin ninode) (name : List UInt8) : FsM (Option (Fin ninode × Nat)) := do
  let dp ← inode i
  if dp.type ≠ tDir then panic .dirlookupNotDir
  else lookupFrom sb i name (dp.size.toNat / 16 + 1) 0

/-- The loop of `dirlink`: the offset of the first unused entry, or the size. -/
def emptyFrom (i : Fin ninode) : (fuel off : Nat) → FsM Nat
  | 0, off => pure off
  | fuel + 1, off => do
      let dp ← inode i
      if off < dp.size.toNat then do
        let (r, bs) ← readi sb i (UInt32.ofNat off) dirent16
        if r ≠ 16 then panic .dirlinkRead
        else if (Dirent.ofBytes bs).inum = 0 then pure off
        else emptyFrom i fuel (off + 16)
      else pure off

def Dirent.src (de : Dirent) (k : Nat) : UInt8 := de.bytes.getD k 0

def dirlink (i : Fin ninode) (name : List UInt8) (inum : Nat) : FsM Int := do
  match ← dirlookup sb i name with
  | some (ip, _) => do
      iput sb ip
      pure (-1)
  | none => do
      let dp ← inode i
      let off ← emptyFrom sb i (dp.size.toNat / 16 + 1) 0
      let r ← writei sb i (Dirent.of (UInt16.ofNat inum) name).src (UInt32.ofNat off) dirent16
      if r ≠ 16 then panic .dirlink else pure 0

abbrev slash : UInt8 := 47

/-- `skipelem`: the next element of the path, as far as it fits into `name`, and the path after it. -/
def skipelem (path : List UInt8) : Option (List UInt8 × List UInt8) :=
  let path := path.dropWhile (· = slash)
  if path.headD 0 = 0 then none
  else
    let s := path.takeWhile fun c => c ≠ slash ∧ c ≠ 0
    some (s.take dirsiz, (path.drop s.length).dropWhile (· = slash))

def namexEnd (nameiparent : Bool) (ip : Fin ninode) (name : List UInt8) : FsM (Option (Fin ninode × List UInt8)) :=
  if nameiparent then do
    iput sb ip
    pure none
  else pure (some (ip, name))

def namexFrom (nameiparent : Bool) :
    (fuel : Nat) → (path name : List UInt8) → Fin ninode → FsM (Option (Fin ninode × List UInt8))
  | 0, _, name, ip => namexEnd sb nameiparent ip name
  | fuel + 1, path, name, ip =>
      match skipelem path with
      | none => namexEnd sb nameiparent ip name
      | some (name, path) => do
          ilock sb ip
          let x ← inode ip
          if x.type ≠ tDir then do
            iunlockput sb ip
            pure none
          else if nameiparent = true ∧ path.headD 0 = 0 then do
            iunlock ip
            pure (some (ip, name))
          else do
            match ← dirlookup sb ip name with
            | none => do
                iunlockput sb ip
                pure none
            | some (next, _) => do
                iunlockput sb ip
                namexFrom nameiparent fuel path name next

/-- `namex`, for a process with the given current directory; with the inode it returns the contents of
`name`. -/
def namex (cwd : Fin ninode) (path : List UInt8) (nameiparent : Bool) :
    FsM (Option (Fin ninode × List UInt8)) := do
  let ip ← (if path.headD 0 = slash then igetM rootdev rootino else idupM cwd)
  namexFrom sb nameiparent path.length path [] ip

def namei (cwd : Fin ninode) (path : List UInt8) : FsM (Option (Fin ninode)) := do
  match ← namex sb cwd path false with
  | none => pure none
  | some (ip, _) => pure (some ip)

def nameiparent (cwd : Fin ninode) (path : List UInt8) : FsM (Option (Fin ninode × List UInt8)) :=
  namex sb cwd path true

/-- The loop of `isdirempty`. -/
def emptyAfter (i : Fin ninode) : (fuel off : Nat) → FsM Bool
  | 0, _ => pure true
  | fuel + 1, off => do
      let dp ← inode i
      if off < dp.size.toNat then do
        let (r, bs) ← readi sb i (UInt32.ofNat off) dirent16
        if r ≠ 16 then panic .isdirempty
        else if (Dirent.ofBytes bs).inum ≠ 0 then pure false
        else emptyAfter i fuel (off + 16)
      else pure true

def isdirempty (i : Fin ninode) : FsM Bool := do
  let dp ← inode i
  emptyAfter sb i (dp.size.toNat / 16 + 1) 32

abbrev dot : List UInt8 := [46]

abbrev dotdot : List UInt8 := [46, 46]

/-- The entries `.` and `..` that `create` makes in a new directory, and the link they are to its
parent. -/
def createDots (dp ip : Fin ninode) : FsM Unit := do
  let d ← inode dp
  setInode dp { d with nlink := d.nlink + 1 }
  iupdate sb dp
  let x ← inode ip
  let r ← dirlink sb ip dot x.inum
  if r < 0 then panic .createDots
  else do
    let r ← dirlink sb ip dotdot d.inum
    if r < 0 then panic .createDots else pure ()

def createNew (dp : Fin ninode) (name : List UInt8) (type major minor : Int16) : FsM (Fin ninode) := do
  let d ← inode dp
  let ip ← ialloc sb d.dev type
  ilock sb ip
  let x ← inode ip
  setInode ip { x with major, minor, nlink := 1 }
  iupdate sb ip
  (if type = tDir then createDots sb dp ip else pure ())
  let r ← dirlink sb dp name x.inum
  if r < 0 then panic .createDirlink
  else do
    iunlockput sb dp
    pure ip

def create (cwd : Fin ninode) (path : List UInt8) (type major minor : Int16) : FsM (Option (Fin ninode)) := do
  match ← nameiparent sb cwd path with
  | none => pure none
  | some (dp, name) => do
      ilock sb dp
      match ← dirlookup sb dp name with
      | some (ip, _) => do
          iunlockput sb dp
          ilock sb ip
          let x ← inode ip
          if type = tFile ∧ x.type = tFile then pure (some ip)
          else do
            iunlockput sb ip
            pure none
      | none => do
          let ip ← createNew sb dp name type major minor
          pure (some ip)

/-- What `sys_link` does at its label `bad`. -/
def linkBad (ip : Fin ninode) : FsM Int := do
  ilock sb ip
  let x ← inode ip
  setInode ip { x with nlink := x.nlink - 1 }
  iupdate sb ip
  iunlockput sb ip
  pure (-1)

def sysLink (cwd : Fin ninode) (old new : List UInt8) : FsM Int := do
  match ← namei sb cwd old with
  | none => pure (-1)
  | some ip => do
      ilock sb ip
      let x ← inode ip
      if x.type = tDir then do
        iunlockput sb ip
        pure (-1)
      else do
        setInode ip { x with nlink := x.nlink + 1 }
        iupdate sb ip
        iunlock ip
        match ← nameiparent sb cwd new with
        | none => linkBad sb ip
        | some (dp, name) => do
            ilock sb dp
            let d ← inode dp
            let x ← inode ip
            if d.dev ≠ x.dev then do
              iunlockput sb dp
              linkBad sb ip
            else do
              let r ← dirlink sb dp name x.inum
              if r < 0 then do
                iunlockput sb dp
                linkBad sb ip
              else do
                iunlockput sb dp
                iput sb ip
                pure 0

/-- In `sys_unlink`, the entry `..` of a removed directory is no longer a link to its parent. -/
def unlinkDots (dp ip : Fin ninode) : FsM Unit := do
  let x ← inode ip
  if x.type = tDir then do
    let d ← inode dp
    setInode dp { d with nlink := d.nlink - 1 }
    iupdate sb dp
  else pure ()

/-- The part of `sys_unlink` that removes the entry at `off` in `dp`, which names `ip`. -/
def unlinkEntry (dp ip : Fin ninode) (off : Nat) : FsM Int := do
  let r ← writei sb dp Dirent.zero.src (UInt32.ofNat off) dirent16
  if r ≠ 16 then panic .unlinkWritei
  else do
    unlinkDots sb dp ip
    iunlockput sb dp
    let x ← inode ip
    setInode ip { x with nlink := x.nlink - 1 }
    iupdate sb ip
    iunlockput sb ip
    pure 0

def sysUnlink (cwd : Fin ninode) (path : List UInt8) : FsM Int := do
  match ← nameiparent sb cwd path with
  | none => pure (-1)
  | some (dp, name) => do
      ilock sb dp
      if namecmp name dot = 0 ∨ namecmp name dotdot = 0 then do
        iunlockput sb dp
        pure (-1)
      else do
        match ← dirlookup sb dp name with
        | none => do
            iunlockput sb dp
            pure (-1)
        | some (ip, off) => do
            ilock sb ip
            let x ← inode ip
            if x.nlink < 1 then panic .unlinkNlink
            else do
              let empty ← (if x.type = tDir then isdirempty sb ip else pure true)
              if empty then unlinkEntry sb dp ip off
              else do
                iunlockput sb ip
                iunlockput sb dp
                pure (-1)

end Xv6.Fs
