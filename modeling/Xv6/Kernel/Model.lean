import Xv6.Fs.Dir

namespace Xv6.Kernel

open Lib Lib.Bytes

inductive FdType
  | none
  | pipe
  | inode
  deriving DecidableEq

structure File where
  type : FdType
  ref : Nat
  readable : Bool
  writable : Bool
  pipe : Nat
  ip : Fin ninode
  off : UInt32

structure Pipe where
  data : Fin pipesize → UInt8
  nread : UInt32
  nwrite : UInt32
  readopen : Bool
  writeopen : Bool

inductive ProcState
  | unused
  | embryo
  | sleeping
  | runnable
  | running
  | zombie
  deriving DecidableEq

structure Proc where
  sz : UInt64
  state : ProcState
  pid : Nat
  parent : Option (Fin nproc)
  killed : Bool
  ofile : Fin nofile → Option (Fin nfile)
  cwd : Option (Fin ninode)

/-- The state that the system calls on files work on, with the address `files` of the file table. `kallocs` and
`kfrees` count how often each page has been allocated for a pipe and freed again; the kernel does not
keep them. -/
structure State where
  fs : Fs.State
  files : UInt64
  ftable : Fin nfile → File
  ptable : Fin nproc → Proc
  initproc : Fin nproc
  nextpid : Nat
  pipes : Nat → Pipe
  kallocs : Nat → Nat
  kfrees : Nat → Nat

abbrev KM := Exec State Halt

def panic {α : Type} (p : Panic) : KM α := Exec.fail (.panic p)

def fsM {α : Type} (m : Fs.FsM α) : KM α := Exec.zoom State.fs (fun k fs => { k with fs }) m

def file (f : Fin nfile) : KM File := Exec.gets fun k => k.ftable f

def setFile (f : Fin nfile) (x : File) : KM Unit :=
  Exec.update fun k => { k with ftable := Function.update k.ftable f x }

def proc (p : Fin nproc) : KM Proc := Exec.gets fun k => k.ptable p

def setProc (p : Fin nproc) (x : Proc) : KM Unit :=
  Exec.update fun k => { k with ptable := Function.update k.ptable p x }

def pipe (q : Nat) : KM Pipe := Exec.gets fun k => k.pipes q

def setPipe (q : Nat) (x : Pipe) : KM Unit :=
  Exec.update fun k => { k with pipes := Function.update k.pipes q x }

/-- What a call of `kalloc` does, which depends on the rest of the kernel: it returns a free page. Without
one it panics, though its callers expect that it returns 0. -/
inductive Kalloc
  | page (q : Nat)
  | null
  | exhausted

def kalloc : Kalloc → KM (Option Nat)
  | .page q => pure (some q)
  | .null => pure none
  | .exhausted => panic .outOfMemory

def cwd (p : Fin nproc) : KM (Fin ninode) := do
  let x ← proc p
  match x.cwd with
  | some i => pure i
  | none => panic .trap

def freeFile (t : Fin nfile → File) : Option (Fin nfile) :=
  (List.finRange nfile).find? fun f => (t f).ref = 0

def filealloc : KM (Option (Fin nfile)) := do
  match freeFile (← Exec.gets State.ftable) with
  | none => pure none
  | some f => do
      let x ← file f
      setFile f { x with ref := 1 }
      pure (some f)

def filedup (f : Fin nfile) : KM Unit := do
  let x ← file f
  if x.ref < 1 then panic .filedup else setFile f { x with ref := x.ref + 1 }

def pipeclose (q : Nat) (writable : Bool) : KM Unit := do
  let x ← pipe q
  let x := if writable then { x with writeopen := false } else { x with readopen := false }
  setPipe q x
  if x.readopen = false ∧ x.writeopen = false then
    Exec.update fun k => { k with kfrees := Function.update k.kfrees q (k.kfrees q + 1) }
  else pure ()

variable (sb : Fs.Layout)

/-- What `fileclose` does with a file that has lost its last reference. -/
def closeLast (ff : File) : KM Unit :=
  match ff.type with
  | .none => pure ()
  | .pipe => pipeclose ff.pipe ff.writable
  | .inode => fsM (Fs.iput sb ff.ip)

def fileclose (f : Fin nfile) : KM Unit := do
  let ff ← file f
  if ff.ref < 1 then panic .fileclose
  else if ff.ref - 1 > 0 then setFile f { ff with ref := ff.ref - 1 }
  else do
    setFile f { ff with ref := 0, type := .none }
    closeLast sb ff

def closeIf : Option (Fin nfile) → KM Unit
  | none => pure ()
  | some f => fileclose sb f

def pipeallocBad (f0 f1 : Option (Fin nfile)) : KM (Option (Fin nfile × Fin nfile)) := do
  closeIf sb f0
  closeIf sb f1
  pure none

/-- `pipealloc`; `none` stands for the result -1. -/
def pipealloc (mem : Kalloc) : KM (Option (Fin nfile × Fin nfile)) := do
  match ← filealloc with
  | none => pipeallocBad sb none none
  | some f0 => do
      match ← filealloc with
      | none => pipeallocBad sb (some f0) none
      | some f1 => do
          match ← kalloc mem with
          | none => pipeallocBad sb (some f0) (some f1)
          | some q => do
              Exec.update fun k => { k with kallocs := Function.update k.kallocs q (k.kallocs q + 1) }
              let x ← pipe q
              setPipe q { x with readopen := true, writeopen := true, nwrite := 0, nread := 0 }
              let y ← file f0
              setFile f0 { y with type := .pipe, readable := true, writable := false, pipe := q }
              let y ← file f1
              setFile f1 { y with type := .pipe, readable := false, writable := true, pipe := q }
              pure (some (f0, f1))

def argfd (p : Fin nproc) (fd : Int) : KM (Option (Fin nofile × Fin nfile)) := do
  let x ← proc p
  if h : fd.toNat < nofile then
    if fd < 0 then pure none
    else pure ((x.ofile ⟨fd.toNat, h⟩).map fun f => (⟨fd.toNat, h⟩, f))
  else pure none

def freeFd (o : Fin nofile → Option (Fin nfile)) : Option (Fin nofile) :=
  (List.finRange nofile).find? fun fd => (o fd).isNone

def setOfile (p : Fin nproc) (fd : Fin nofile) (f : Option (Fin nfile)) : KM Unit := do
  let x ← proc p
  setProc p { x with ofile := Function.update x.ofile fd f }

/-- `fdalloc`; `none` stands for the result -1. -/
def fdalloc (p : Fin nproc) (f : Fin nfile) : KM (Option (Fin nofile)) := do
  let x ← proc p
  match freeFd x.ofile with
  | none => pure none
  | some fd => do
      setOfile p fd (some f)
      pure (some fd)

def sysDup (p : Fin nproc) (fd : Int) : KM Int := do
  match ← argfd p fd with
  | none => pure (-1)
  | some (_, f) => do
      match ← fdalloc p f with
      | none => pure (-1)
      | some fd => do
          filedup f
          pure fd.val

def sysClose (p : Fin nproc) (fd : Int) : KM Int := do
  match ← argfd p fd with
  | none => pure (-1)
  | some (fd, f) => do
      setOfile p fd none
      fileclose sb f
      pure 0

/-- `argptr`: what it returns and what it leaves in `*pp`, where `pp` was before. -/
def argptr (sz i pp : UInt64) (size : Int32) : UInt64 × UInt64 :=
  if size < 0 ∨ i.toUInt32.toUInt64 ≥ sz ∨ (i.toUInt32 + size.toUInt32).toUInt64 > sz then (-1, pp) else (0, i)

def FdType.code : FdType → Nat
  | .none => 0
  | .pipe => 1
  | .inode => 2

def FdType.ofCode : Nat → Option FdType
  | 0 => some .none
  | 1 => some .pipe
  | 2 => some .inode
  | _ => Option.none

def putByte (v i : Nat) (b : UInt8) : Nat := leVal ((leBytes 4 v).set i b)

/-- Byte `o` of a `struct file` is overwritten. There is no result if the model has no such file: for its
pointers, a negative count and a type that does not exist. -/
def File.poke (x : File) (o : Nat) (b : UInt8) : Option File :=
  if o < 4 then (FdType.ofCode (putByte x.type.code o b)).map fun type => { x with type }
  else if o < 8 then
    if putByte x.ref (o - 4) b < 2 ^ 31 then some { x with ref := putByte x.ref (o - 4) b } else none
  else if o = 8 then some { x with readable := decide (b ≠ 0) }
  else if o = 9 then some { x with writable := decide (b ≠ 0) }
  else if o < 16 then some x
  else if o < 32 then none
  else if o < 36 then some { x with off := UInt32.ofNat (putByte x.off.toNat (o - 32) b) }
  else some x

/-- The kernel stores a byte at an address that process `p` has given: in the memory of the process, of which
nothing is kept here, in the file table, or elsewhere. -/
def store (p : Fin nproc) (a : UInt64) (b : UInt8) : KM Unit := do
  let x ← proc p
  if 4096 ≤ a ∧ a < x.sz then pure ()
  else do
    let o := (a - (← Exec.gets State.files)).toNat
    if h : o / 40 < nfile then do
      let y ← file ⟨o / 40, h⟩
      match y.poke (o % 40) b with
      | some y => setFile ⟨o / 40, h⟩ y
      | none => Exec.fail .wild
    else Exec.fail .wild

def storeBytes (p : Fin nproc) (a : UInt64) : List UInt8 → KM Unit
  | [] => pure ()
  | b :: bs => do
      store p a b
      storeBytes p (a + 1) bs

def UserPtr (sz a : UInt64) (n : Nat) : Prop := n = 0 ∨ 4096 ≤ a.toNat ∧ a.toNat + n ≤ sz.toNat

instance (sz a : UInt64) (n : Nat) : Decidable (UserPtr sz a n) := inferInstanceAs (Decidable (_ ∨ _))

def sysPipe (p : Fin nproc) (arg junk : UInt64) (mem : Kalloc) : KM Int := do
  let x ← proc p
  let (r, fd) := argptr x.sz arg junk 8
  if r < 0 then pure (-1)
  else do
    match ← pipealloc sb mem with
    | none => pure (-1)
    | some (rf, wf) => do
        match ← fdalloc p rf with
        | none => do
            fileclose sb rf
            fileclose sb wf
            pure (-1)
        | some fd0 => do
            match ← fdalloc p wf with
            | none => do
                setOfile p fd0 none
                fileclose sb rf
                fileclose sb wf
                pure (-1)
            | some fd1 => do
                storeBytes p fd (leBytes 4 fd0 ++ leBytes 4 fd1)
                pure 0

section

variable [Fs.Devsw]

abbrev oWronly : UInt32 := 1

abbrev oRdwr : UInt32 := 2

abbrev oCreate : UInt32 := 0x200

/-- The first half of `sys_open`: the inode to be opened. -/
def openInode (c : Fin ninode) (path : List UInt8) (omode : UInt32) : Fs.FsM (Option (Fin ninode)) := do
  if omode &&& oCreate ≠ 0 then Fs.create sb c path Fs.tFile 0 0
  else do
    match ← Fs.namei sb c path with
    | none => pure none
    | some ip => do
        Fs.ilock sb ip
        let x ← Fs.inode ip
        if x.type = Fs.tDir ∧ omode ≠ 0 then do
          Fs.iunlockput sb ip
          pure none
        else pure (some ip)

/-- The second half of `sys_open`: a file for the inode and a descriptor for the file. -/
def openFile (p : Fin nproc) (ip : Fin ninode) (omode : UInt32) : KM Int := do
  match ← filealloc with
  | none => do
      fsM (Fs.iunlockput sb ip)
      pure (-1)
  | some f => do
      match ← fdalloc p f with
      | none => do
          fileclose sb f
          fsM (Fs.iunlockput sb ip)
          pure (-1)
      | some fd => do
          fsM (Fs.iunlock ip)
          let x ← file f
          setFile f
            { x with
              type := .inode
              ip
              off := 0
              readable := decide (omode &&& oWronly = 0)
              writable := decide (omode &&& oWronly ≠ 0 ∨ omode &&& oRdwr ≠ 0) }
          pure fd.val

/-- `sys_open`; a path that `argstr` refuses is `none`. -/
def sysOpen (p : Fin nproc) (path : Option (List UInt8)) (omode : UInt32) : KM Int := do
  match path with
  | none => pure (-1)
  | some path => do
      let c ← cwd p
      match ← fsM (openInode sb c path omode) with
      | none => pure (-1)
      | some ip => openFile sb p ip omode

/-- What `sys_mkdir` and `sys_mknod` do once their arguments are fetched. -/
def sysCreate (p : Fin nproc) (path : Option (List UInt8)) (type major minor : Int16) : KM Int := do
  match path with
  | none => pure (-1)
  | some path => do
      let c ← cwd p
      match ← fsM (Fs.create sb c path type major minor) with
      | none => pure (-1)
      | some ip => do
          fsM (Fs.iunlockput sb ip)
          pure 0

def sysMkdir (p : Fin nproc) (path : Option (List UInt8)) : KM Int := sysCreate sb p path Fs.tDir 0 0

def sysMknod (p : Fin nproc) (path : Option (List UInt8)) (major minor : Int16) : KM Int :=
  sysCreate sb p path Fs.tDev major minor

def sysLink (p : Fin nproc) (old new : Option (List UInt8)) : KM Int := do
  match old, new with
  | some old, some new => do
      let c ← cwd p
      fsM (Fs.sysLink sb c old new)
  | _, _ => pure (-1)

def sysUnlink (p : Fin nproc) (path : Option (List UInt8)) : KM Int := do
  match path with
  | some path => do
      let c ← cwd p
      fsM (Fs.sysUnlink sb c path)
  | none => pure (-1)

def setCwd (p : Fin nproc) (i : Option (Fin ninode)) : KM Unit := do
  let x ← proc p
  setProc p { x with cwd := i }

def sysChdir (p : Fin nproc) (path : Option (List UInt8)) : KM Int := do
  match path with
  | none => pure (-1)
  | some path => do
      let c ← cwd p
      match ← fsM (Fs.namei sb c path) with
      | none => pure (-1)
      | some ip => do
          fsM (Fs.ilock sb ip)
          let x ← fsM (Fs.inode ip)
          if x.type ≠ Fs.tDir then do
            fsM (Fs.iunlockput sb ip)
            pure (-1)
          else do
            fsM (Fs.iunlock ip)
            fsM (Fs.iput sb c)
            setCwd p (some ip)
            pure 0

/-- What the memory of the new process image does in a call of `exec`: whether `setupkvm` and `allocuvm` find
pages, whether the page table has an entry for an address, and whether stack and arguments fit. -/
structure ExecEnv where
  setupkvm : Bool
  allocuvm : Nat → Bool
  walkpgdir : UInt64 → Bool
  stack : Bool

def allocuvm (found : Bool) (oldsz newsz : UInt64) : Option UInt64 :=
  if newsz ≥ kernbase then none
  else if newsz < oldsz then some oldsz
  else if found then some newsz
  else none

/-- The loop of `loaduvm`. -/
def loadPages (env : ExecEnv) (ip : Fin ninode) (addr : UInt64) (offset sz : UInt32) :
    (fuel : Nat) → UInt32 → KM Bool
  | 0, _ => pure true
  | fuel + 1, i =>
      if i < sz then
        if env.walkpgdir (addr + i.toUInt64) then do
          let n := if sz - i < 4096 then sz - i else 4096
          let (r, _) ← fsM (Fs.readi sb ip (offset + i) n)
          if r ≠ n.toNat then pure false else loadPages env ip addr offset sz fuel (i + 4096)
        else panic .loaduvmExist
      else pure true

def loaduvm (env : ExecEnv) (addr : UInt64) (ip : Fin ninode) (offset sz : UInt32) : KM Bool :=
  if addr % 4096 ≠ 0 then panic .loaduvmAligned
  else loadPages sb env ip addr offset sz (sz.toNat / pgsize + 1) 0

/-- The loop of `exec` over the program headers, of which `n` are left; it returns the new size. -/
def loadSegments (env : ExecEnv) (ip : Fin ninode) : (n i : Nat) → UInt32 → UInt64 → KM (Option UInt64)
  | 0, _, _, sz => pure (some sz)
  | n + 1, i, off, sz => do
      let (r, ph) ← fsM (Fs.readi sb ip off 56)
      if r ≠ 56 then pure none
      else
        let vaddr := UInt64.ofNat (field ph 16 8)
        let filesz := UInt64.ofNat (field ph 32 8)
        let memsz := UInt64.ofNat (field ph 40 8)
        if field ph 0 4 ≠ 1 then loadSegments env ip n (i + 1) (off + 56) sz
        else if memsz < filesz then pure none
        else if vaddr + memsz < vaddr then pure none
        else
          match allocuvm (env.allocuvm i) sz (vaddr + memsz) with
          | none => pure none
          | some sz =>
              if vaddr % 4096 ≠ 0 then pure none
              else do
                let loaded ← loaduvm sb env vaddr ip (UInt32.ofNat (field ph 8 8)) filesz.toUInt32
                if loaded then loadSegments env ip n (i + 1) (off + 56) sz else pure none

/-- The part of `exec` that reads the file. -/
def loadImage (env : ExecEnv) (ip : Fin ninode) : KM (Option UInt64) := do
  let (r, elf) ← fsM (Fs.readi sb ip 0 64)
  if r ≠ 64 then pure none
  else if field elf 0 4 ≠ 0x464C457F then pure none
  else if env.setupkvm = false then pure none
  else loadSegments sb env ip (field elf 56 2) 0 (UInt32.ofNat (field elf 32 8)) 4096

def exec (p : Fin nproc) (path : List UInt8) (env : ExecEnv) : KM Int := do
  let c ← cwd p
  match ← fsM (Fs.namei sb c path) with
  | none => pure (-1)
  | some ip => do
      fsM (Fs.ilock sb ip)
      let image ← loadImage sb env ip
      fsM (Fs.iunlockput sb ip)
      match image with
      | none => pure (-1)
      | some sz => do
          let sz := (sz + 4095) &&& ~~~4095
          match allocuvm env.stack sz (sz + 8192) with
          | none => pure (-1)
          | some sz => do
              let x ← proc p
              setProc p { x with sz }
              pure 0

def sysExec (p : Fin nproc) (path : Option (List UInt8)) (args : Bool) (env : ExecEnv) : KM Int := do
  match path with
  | none => pure (-1)
  | some path => if args then exec sb p path env else pure (-1)

end

def freeProc (t : Fin nproc → Proc) : Option (Fin nproc) :=
  (List.finRange nproc).find? fun p => (t p).state = .unused

def setProcState (p : Fin nproc) (state : ProcState) : KM Unit := do
  let x ← proc p
  setProc p { x with state }

def allocproc (mem : Kalloc) : KM (Option (Fin nproc)) := do
  match freeProc (← Exec.gets State.ptable) with
  | none => pure none
  | some np => do
      let x ← proc np
      let pid ← Exec.gets State.nextpid
      setProc np { x with state := .embryo, pid }
      Exec.update fun k => { k with nextpid := k.nextpid + 1 }
      match ← kalloc mem with
      | none => do
          setProcState np .unused
          pure none
      | some _ => pure (some np)

/-- The loop of `fork` over the open files. -/
def dupFiles (p np : Fin nproc) : List (Fin nofile) → KM Unit
  | [] => pure ()
  | fd :: fds => do
      let x ← proc p
      match x.ofile fd with
      | none => dupFiles p np fds
      | some f => do
          filedup f
          setOfile np fd (some f)
          dupFiles p np fds

def fork (p : Fin nproc) (mem : Kalloc) (copied : Bool) : KM Int := do
  match ← allocproc mem with
  | none => pure (-1)
  | some np =>
      if copied then do
        let x ← proc p
        let n ← proc np
        setProc np { n with sz := x.sz, parent := some p }
        dupFiles p np (List.finRange nofile)
        let c ← cwd p
        let c ← fsM (Fs.idupM c)
        setCwd np (some c)
        setProcState np .runnable
        let n ← proc np
        pure n.pid
      else do
        setProcState np .unused
        pure (-1)

/-- The loop of `exit` over the open files. -/
def closeFiles (p : Fin nproc) : List (Fin nofile) → KM Unit
  | [] => pure ()
  | fd :: fds => do
      let x ← proc p
      match x.ofile fd with
      | none => closeFiles p fds
      | some f => do
          fileclose sb f
          setOfile p fd none
          closeFiles p fds

def exit (p : Fin nproc) : KM Unit := do
  if p = (← Exec.gets State.initproc) then panic .initExiting
  else do
    closeFiles sb p (List.finRange nofile)
    let c ← cwd p
    fsM (Fs.iput sb c)
    setCwd p none
    Exec.update fun k =>
      { k with ptable := fun q => if (k.ptable q).parent = some p then { k.ptable q with parent := k.initproc }
          else k.ptable q }
    setProcState p .zombie

def wait (p : Fin nproc) : KM Int := do
  let t ← Exec.gets State.ptable
  match (List.finRange nproc).find? fun q => (t q).parent = some p ∧ (t q).state = .zombie with
  | some q => do
      setProc q { t q with pid := 0, parent := none, killed := false, state := .unused }
      pure (t q).pid
  | none =>
      if (∀ q, (t q).parent ≠ some p) ∨ (t p).killed = true then pure (-1) else Exec.fail .asleep

end Xv6.Kernel
