import Xv6.Kernel.Model
import Xv6.Vm.Model

namespace Xv6.Machine

open Lib Lib.Bytes

/-- A store of file bytes by `loaduvm`: the page, and the pages that are free at that time. -/
structure Store where
  page : Nat
  free : List Nat

/-- The kernel with its memory. A process has no page table if it never had one or has lost it in `freevm`.
`stores` lists the stores of `loaduvm`; the kernel does not keep it. -/
structure State where
  kernel : Kernel.State
  mem : Vm.Mem
  kstack : Fin nproc → Option Nat
  pgdir : Fin nproc → Option Vm.Pgdir
  stores : List Store

abbrev MM := Exec State Halt

def panic {α : Type} (p : Panic) : MM α := Exec.fail (.panic p)

def kernelM {α : Type} (m : Kernel.KM α) : MM α := Exec.zoom State.kernel (fun s kernel => { s with kernel }) m

def vmM {α : Type} (m : Vm.VmM α) : MM α := Exec.zoom State.mem (fun s mem => { s with mem }) m

def fsM {α : Type} (m : Fs.FsM α) : MM α := kernelM (Kernel.fsM m)

def setKstack (p : Fin nproc) (v : Option Nat) : MM Unit :=
  Exec.update fun s => { s with kstack := Function.update s.kstack p v }

def setPgdir (p : Fin nproc) (t : Option Vm.Pgdir) : MM Unit :=
  Exec.update fun s => { s with pgdir := Function.update s.pgdir p t }

def pgdir (p : Fin nproc) : MM Vm.Pgdir := do
  match ← Exec.gets fun s => s.pgdir p with
  | some t => pure t
  | none => panic .trap

section

-- the first page after the kernel, and the disk's layout
variable (kend : Nat) (sb : Fs.Layout)

def growproc (p : Fin nproc) (n : Int64) : MM Int := do
  let x ← kernelM (Kernel.proc p)
  let t ← pgdir p
  let (r, y) ← vmM (Vm.growproc kend ⟨x.sz, t⟩ n)
  setPgdir p (some y.pgdir)
  kernelM (Kernel.setProc p { x with sz := y.sz })
  pure r

/-- `fork`: first what it does to the memory, then, as far as that has got, what it does to the tables. -/
def fork (p : Fin nproc) : MM Int := do
  match Kernel.freeProc (← Exec.gets fun s => s.kernel.ptable) with
  | none => kernelM (Kernel.fork p .null false)
  | some np => do
      match ← vmM Vm.kalloc with
      | none => kernelM (Kernel.fork p .null false)
      | some kstack => do
          setKstack np (some kstack)
          let x ← kernelM (Kernel.proc p)
          let t ← pgdir p
          match ← vmM (Vm.copyuvm kend t x.sz.toUInt32) with
          | none => do
              vmM (Vm.kfree kend kstack)
              setKstack np none
              kernelM (Kernel.fork p (.page kstack) false)
          | some d => do
              setPgdir np (some d)
              kernelM (Kernel.fork p (.page kstack) true)

def fileclose (f : Fin nfile) : MM Unit := do
  let ff ← kernelM (Kernel.file f)
  let n ← Exec.gets fun s => s.kernel.kfrees ff.pipe
  kernelM (Kernel.fileclose sb f)
  let n' ← Exec.gets fun s => s.kernel.kfrees ff.pipe
  if n < n' then vmM (Vm.kfree kend ff.pipe) else pure ()

def pipealloc : MM (Option (Fin nfile × Fin nfile)) := do
  match ← Exec.gets fun s => s.mem.freelist with
  | [] => kernelM (Kernel.pipealloc sb .exhausted)
  | q :: next => do
      match ← kernelM (Kernel.pipealloc sb (.page q)) with
      | none => pure none
      | some ff => do
          Exec.update fun s => { s with mem := ⟨next⟩ }
          pure (some ff)

def sysPipe (p : Fin nproc) (arg junk : UInt64) : MM Int := do
  let x ← kernelM (Kernel.proc p)
  let (r, fd) := Kernel.argptr x.sz arg junk 8
  if r < 0 then pure (-1)
  else do
    match ← pipealloc sb with
    | none => pure (-1)
    | some (rf, wf) => do
        match ← kernelM (Kernel.fdalloc p rf) with
        | none => do
            fileclose kend sb rf
            fileclose kend sb wf
            pure (-1)
        | some fd0 => do
            match ← kernelM (Kernel.fdalloc p wf) with
            | none => do
                kernelM (Kernel.setOfile p fd0 none)
                fileclose kend sb rf
                fileclose kend sb wf
                pure (-1)
            | some fd1 => do
                kernelM (Kernel.storeBytes p fd (Lib.Bytes.leBytes 4 fd0 ++ Lib.Bytes.leBytes 4 fd1))
                pure 0

def sysClose (p : Fin nproc) (fd : Int) : MM Int := do
  match ← kernelM (Kernel.argfd p fd) with
  | none => pure (-1)
  | some (fd, f) => do
      kernelM (Kernel.setOfile p fd none)
      fileclose kend sb f
      pure 0

/-- The loop of `exit` over the open files. -/
def closeFiles (p : Fin nproc) : List (Fin nofile) → MM Unit
  | [] => pure ()
  | fd :: fds => do
      let x ← kernelM (Kernel.proc p)
      match x.ofile fd with
      | none => closeFiles p fds
      | some f => do
          fileclose kend sb f
          kernelM (Kernel.setOfile p fd none)
          closeFiles p fds

def leave (p : Fin nproc) : Kernel.KM Unit := do
  let c ← Kernel.cwd p
  Kernel.fsM (Fs.iput sb c)
  Kernel.setCwd p none
  Exec.update fun k =>
    { k with ptable := fun q => if (k.ptable q).parent = some p then { k.ptable q with parent := k.initproc }
        else k.ptable q }
  Kernel.setProcState p .zombie

def exit (p : Fin nproc) : MM Unit := do
  if p = (← Exec.gets fun s => s.kernel.initproc) then panic .initExiting
  else do
    closeFiles kend sb p (List.finRange nofile)
    kernelM (leave sb p)

def wait (p : Fin nproc) : MM Int := do
  let t ← Exec.gets fun s => s.kernel.ptable
  match (List.finRange nproc).find? fun q => (t q).parent = some p ∧ (t q).state = .zombie with
  | none => kernelM (Kernel.wait p)
  | some q => do
      match ← Exec.gets fun s => s.kstack q with
      | none => panic .kfree
      | some kstack => do
          vmM (Vm.kfree kend kstack)
          setKstack q none
          vmM (Vm.freevm kend (← Exec.gets fun s => s.pgdir q))
          setPgdir q none
          kernelM (Kernel.wait p)

section

variable [Fs.Devsw]

/-- File bytes are stored in the page of an entry; an entry that is 0 leads to page 0. -/
def store (pte : Option Vm.Pte) (bs : List UInt8) : MM Unit :=
  if bs = [] then pure ()
  else Exec.update fun s => { s with stores := ⟨pte.elim 0 Vm.Pte.page, s.mem.freelist⟩ :: s.stores }

/-- The loop of `loaduvm`. -/
def loadPages (ip : Fin ninode) (pgdir : Vm.Pgdir) (addr : UInt64) (offset sz : UInt32) :
    (fuel : Nat) → UInt32 → MM Bool
  | 0, _ => pure true
  | fuel + 1, i =>
      if i < sz then do
        match ← vmM (Vm.walkpgdir pgdir (addr + i.toUInt64)) with
        | none => panic .loaduvmExist
        | some pte => do
            let n := if sz - i < 4096 then sz - i else 4096
            let (r, bs) ← fsM (Fs.readi sb ip (offset + i) n)
            store pte bs
            if r ≠ n.toNat then pure false else loadPages ip pgdir addr offset sz fuel (i + 4096)
      else pure true

def loaduvm (pgdir : Vm.Pgdir) (addr : UInt64) (ip : Fin ninode) (offset sz : UInt32) : MM Bool :=
  if addr % 4096 ≠ 0 then panic .loaduvmAligned
  else loadPages sb ip pgdir addr offset sz (sz.toNat / pgsize + 1) 0

/-- The loop of `exec` over the program headers, of which `n` are left; it returns the page table and, if it has
come to its end, the new size. -/
def loadSegments (ip : Fin ninode) : (n : Nat) → UInt32 → Vm.Pgdir → UInt64 → MM (Vm.Pgdir × Option UInt64)
  | 0, _, pgdir, sz => pure (pgdir, some sz)
  | n + 1, off, pgdir, sz => do
      let (r, ph) ← fsM (Fs.readi sb ip off 56)
      if r ≠ 56 then pure (pgdir, none)
      else
        let vaddr := UInt64.ofNat (field ph 16 8)
        let filesz := UInt64.ofNat (field ph 32 8)
        let memsz := UInt64.ofNat (field ph 40 8)
        if field ph 0 4 ≠ 1 then loadSegments ip n (off + 56) pgdir sz
        else if memsz < filesz then pure (pgdir, none)
        else if vaddr + memsz < vaddr then pure (pgdir, none)
        else do
          let (pgdir, sz) ← vmM (Vm.allocuvm kend pgdir sz (vaddr + memsz))
          if sz = 0 then pure (pgdir, none)
          else if vaddr % 4096 ≠ 0 then pure (pgdir, none)
          else do
            let loaded ← loaduvm sb pgdir vaddr ip (UInt32.ofNat (field ph 8 8)) filesz.toUInt32
            if loaded then loadSegments ip n (off + 56) pgdir sz else pure (pgdir, none)

/-- The part of `exec` that reads the file: the page table, if there is one yet, and the new size. -/
def loadImage (ip : Fin ninode) : MM (Option Vm.Pgdir × Option UInt64) := do
  let (r, elf) ← fsM (Fs.readi sb ip 0 64)
  if r ≠ 64 then pure (none, none)
  else if field elf 0 4 ≠ 0x464C457F then pure (none, none)
  else do
    match ← vmM Vm.setupkvm with
    | none => pure (none, none)
    | some pgdir => do
        let (pgdir, sz) ← loadSegments kend sb ip (field elf 56 2) (UInt32.ofNat (field elf 32 8)) pgdir 4096
        pure (some pgdir, sz)

abbrev maxarg : Nat := 32

abbrev Arg := { s : List UInt8 // s.length < 2 ^ 31 }

/-- The loop of `exec` over the arguments, of which `argc` are on the stack. -/
def pushArgs (pgdir : Vm.Pgdir) : List Arg → Nat → UInt64 → Vm.VmM (Option (Nat × UInt64))
  | [], argc, sp => pure (some (argc, sp))
  | s :: argv, argc, sp =>
      if argc ≥ maxarg then pure none
      else do
        let len := UInt64.ofNat (s.val.length + 1)
        let sp := (sp - len) &&& ~~~7
        if ← Vm.copyout pgdir sp len then pushArgs pgdir argv (argc + 1) sp else pure none

/-- The arguments, the vector of their addresses and the fake return address; the result says whether they fit. -/
def pushStack (pgdir : Vm.Pgdir) (argv : List Arg) (sp : UInt64) : Vm.VmM Bool := do
  match ← pushArgs pgdir argv 0 sp with
  | none => pure false
  | some (argc, sp) => Vm.copyout pgdir (sp - UInt64.ofNat ((argc + 2) * 8)) (UInt64.ofNat ((argc + 2) * 8))

/-- The label `bad` of `exec`, while the file is locked. -/
def badFile (pgdir : Option Vm.Pgdir) (ip : Fin ninode) : MM Int := do
  match pgdir with
  | none => pure ()
  | some t => vmM (Vm.freevm kend (some t))
  fsM (Fs.iunlockput sb ip)
  pure (-1)

/-- The label `bad` of `exec`, after the file has been read. -/
def bad (pgdir : Vm.Pgdir) : MM Int := do
  vmM (Vm.freevm kend (some pgdir))
  pure (-1)

/-- The end of `exec`. -/
def commit (p : Fin nproc) (pgdir : Vm.Pgdir) (sz : UInt64) : MM Int := do
  let oldpgdir ← Exec.gets fun s => s.pgdir p
  setPgdir p (some pgdir)
  let x ← kernelM (Kernel.proc p)
  kernelM (Kernel.setProc p { x with sz })
  vmM (Vm.freevm kend oldpgdir)
  pure 0

/-- The second half of `exec`, from the allocation of the stack on. -/
def startImage (p : Fin nproc) (argv : List Arg) (pgdir : Vm.Pgdir) (sz : UInt64) : MM Int := do
  let sz := Vm.pgroundup sz
  let (pgdir, sz) ← vmM (Vm.allocuvm kend pgdir sz (sz + 8192))
  if sz = 0 then bad kend pgdir
  else do
    let pgdir ← vmM (Vm.clearpteu pgdir (sz - 8192))
    if ← vmM (pushStack pgdir argv sz) then commit kend p pgdir sz else bad kend pgdir

def exec (p : Fin nproc) (path : List UInt8) (argv : List Arg) : MM Int := do
  let c ← kernelM (Kernel.cwd p)
  match ← fsM (Fs.namei sb c path) with
  | none => pure (-1)
  | some ip => do
      fsM (Fs.ilock sb ip)
      match ← loadImage kend sb ip with
      | (some pgdir, some sz) => do
          fsM (Fs.iunlockput sb ip)
          startImage kend p argv pgdir sz
      | (pgdir, _) => badFile kend sb pgdir ip

/-- `sys_exec`; a path or arguments that it cannot fetch are `none`. -/
def sysExec (p : Fin nproc) (path : Option (List UInt8)) (argv : Option (List Arg)) : MM Int := do
  match path, argv with
  | some path, some argv => exec kend sb p path argv
  | _, _ => pure (-1)

end

inductive Call
  | fork
  | exec (path : Option (List UInt8)) (argv : Option (List Arg))
  | sbrk (n : Int64)
  | pipe (arg junk : UInt64)
  | close (fd : Int)
  | exit
  | wait

def Call.run [Fs.Devsw] (p : Fin nproc) : Call → MM Int
  | .fork => Machine.fork kend p
  | .exec path argv => sysExec kend sb p path argv
  | .sbrk n => growproc kend p n
  | .pipe arg junk => sysPipe kend sb p arg junk
  | .close fd => sysClose kend sb p fd
  | .exit => do Machine.exit kend sb p; pure 0
  | .wait => Machine.wait kend p

def Call.step [Fs.Devsw] (s : State) (a : Fin nproc × Call) : Option State :=
  match a.2.run kend sb a.1 s with
  | .ok (_, t) => some t
  | .error _ => none

end

end Xv6.Machine
