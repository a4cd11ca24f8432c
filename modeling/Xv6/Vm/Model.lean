import Xv6.Lib.Exec
import Xv6.Lib.Radix
import Xv6.Panic
import Xv6.Param

namespace Xv6.Vm

open Lib Lib.Radix

/-- A present entry of the last level: the page that it maps and `PTE_U`. -/
structure Pte where
  page : Nat
  user : Bool
  deriving DecidableEq

/-- A page table with its four levels. A table is labelled with the page that it is in. The entry of the first
table for the kernel's half of the addresses, the same in all page tables, is left out. -/
abbrev Pgdir := Table 512 Nat Pte 4

structure Mem where
  freelist : List Nat
  deriving DecidableEq

abbrev VmM := Exec Mem Halt

def panic {α : Type} (p : Panic) : VmM α := Exec.fail (.panic p)

abbrev npages : Nat := 57344

def kalloc : VmM (Option Nat) := do
  match ← Exec.gets Mem.freelist with
  | r :: next => do
      Exec.update fun m => { m with freelist := next }
      pure (some r)
  | [] => panic .outOfMemory

section

-- the first page after the kernel
variable (kend : Nat)

def kfree (v : Nat) : VmM Unit :=
  if v < kend ∨ npages ≤ v then panic .kfree else Exec.update fun m => { m with freelist := v :: m.freelist }

end

def pgroundup (a : UInt64) : UInt64 := (a + 4095) &&& ~~~4095

def vpage (va : UInt64) : Nat := va.toNat / pgsize

/-- The address is in the part of the address space that `pml4[256]` maps. -/
def kernelHalf (va : UInt64) : Bool := index 512 3 (vpage va) = 256

def setupkvm : VmM (Option Pgdir) := do
  match ← kalloc with
  | none => pure none
  | some f => pure (some (blank 3 f))

/-- `walkpgdir` without `alloc`: `none` is the result 0, `some none` the address of an entry that is 0. What the
kernel's tables would lead to is not modelled; a walk there stops. -/
def walkpgdir (pgdir : Pgdir) (va : UInt64) : VmM (Option (Option Pte)) :=
  if kernelHalf va then panic .trap else pure (find 3 pgdir (vpage va))

/-- The levels of `walkpgdir` with `alloc`, one like the other; the result says whether the entry is there. -/
def walkLevels : (n : Nat) → Table 512 Nat Pte (n + 1) → Nat → VmM (Table 512 Nat Pte (n + 1) × Bool)
  | 0, t, _ => pure (t, true)
  | n + 1, t, k =>
      match t.2 (index 512 (n + 1) k) with
      | some c => do
          let (c, r) ← walkLevels n c k
          pure (setEntry t (index 512 (n + 1) k) (some c), r)
      | none => do
          match ← kalloc with
          | none => pure (t, false)
          | some f => do
              let (c, r) ← walkLevels n (blank n f) k
              pure (setEntry t (index 512 (n + 1) k) (some c), r)

def mappages (pgdir : Pgdir) (va : UInt64) (pte : Pte) : VmM (Pgdir × Bool) :=
  if kernelHalf va then panic .trap
  else do
    let (pgdir, found) ← walkLevels 3 pgdir (vpage va)
    if found = false then pure (pgdir, false)
    else if (find 3 pgdir (vpage va)).join.isSome then panic .remap
    else pure (Radix.set 3 pgdir (vpage va) (some pte), true)

section

variable (kend : Nat)

/-- The loop of `deallocuvm`, of which at most `n` rounds are left. -/
def deallocLoop (oldsz : UInt64) : (n : Nat) → Pgdir → UInt64 → VmM Pgdir
  | 0, pgdir, _ => pure pgdir
  | n + 1, pgdir, a =>
      if a < oldsz then do
        match ← walkpgdir pgdir a with
        | some (some pte) =>
            if pte.page = 0 then panic .kfree
            else do
              kfree kend pte.page
              deallocLoop oldsz n (Radix.set 3 pgdir (vpage a) none) (a + 4096)
        | _ => deallocLoop oldsz n pgdir (a + 4096)
      else pure pgdir

def rounds (a b : UInt64) : Nat := (b.toNat - a.toNat + 4095) / pgsize

def deallocuvm (pgdir : Pgdir) (oldsz newsz : UInt64) : VmM (Pgdir × UInt64) :=
  if newsz ≥ oldsz then pure (pgdir, oldsz)
  else do
    let pgdir ← deallocLoop kend oldsz (rounds (pgroundup newsz) oldsz) pgdir (pgroundup newsz)
    pure (pgdir, newsz)

/-- The loop of `allocuvm`; the result says whether it has come to its end. -/
def allocLoop (oldsz newsz : UInt64) : (n : Nat) → Pgdir → UInt64 → VmM (Pgdir × Bool)
  | 0, pgdir, _ => pure (pgdir, true)
  | n + 1, pgdir, a =>
      if a < newsz then do
        match ← kalloc with
        | none => do
            let (pgdir, _) ← deallocuvm kend pgdir newsz oldsz
            pure (pgdir, false)
        | some mem => do
            let (pgdir, found) ← mappages pgdir a ⟨mem, true⟩
            if found then allocLoop oldsz newsz n pgdir (a + 4096)
            else do
              let (pgdir, _) ← deallocuvm kend pgdir newsz oldsz
              kfree kend mem
              pure (pgdir, false)
      else pure (pgdir, true)

def allocuvm (pgdir : Pgdir) (oldsz newsz : UInt64) : VmM (Pgdir × UInt64) :=
  if newsz ≥ kernbase then pure (pgdir, 0)
  else if newsz < oldsz then pure (pgdir, oldsz)
  else do
    let (pgdir, done) ← allocLoop kend oldsz newsz (rounds (pgroundup oldsz) newsz) pgdir (pgroundup oldsz)
    pure (pgdir, if done then newsz else 0)

/-- The loops of `freevm` below the first table. -/
def freeTable : (n : Nat) → Table 512 Nat Pte n → VmM Unit
  | 0, pte => kfree kend pte.page
  | n + 1, t => do
      (List.finRange 512).forM fun i => (t.2 i).elim (pure ()) (freeTable n)
      kfree kend t.1

def freevm (pgdir : Option Pgdir) : VmM Unit :=
  match pgdir with
  | none => panic .freevm
  | some t => do
      ((List.finRange 512).take 256).forM fun i => (t.2 i).elim (pure ()) (freeTable kend 3)
      kfree kend t.1

def clearpteu (pgdir : Pgdir) (uva : UInt64) : VmM Pgdir := do
  match ← walkpgdir pgdir uva with
  | none => panic .clearpteu
  | some none => pure pgdir
  | some (some pte) => pure (Radix.set 3 pgdir (vpage uva) (some { pte with user := false }))

/-- The loop of `copyuvm`; the result says whether it has come to its end. -/
def copyLoop (pgdir : Pgdir) (sz : UInt64) : (n : Nat) → Pgdir → UInt64 → VmM (Pgdir × Bool)
  | 0, d, _ => pure (d, true)
  | n + 1, d, i =>
      if i < sz then do
        match ← walkpgdir pgdir i with
        | none => panic .copyuvmExist
        | some none => panic .copyuvmPresent
        | some (some pte) => do
            match ← kalloc with
            | none => pure (d, false)
            | some mem => do
                let (d, found) ← mappages d i { pte with page := mem }
                if found then copyLoop pgdir sz n d (i + 4096) else pure (d, false)
      else pure (d, true)

def copyuvm (pgdir : Pgdir) (sz : UInt32) : VmM (Option Pgdir) := do
  match ← setupkvm with
  | none => pure none
  | some d => do
      let (d, done) ← copyLoop pgdir sz.toUInt64 (rounds 4096 sz.toUInt64) d 4096
      if done then pure (some d)
      else do
        freevm kend (some d)
        pure none

def uva2ka (pgdir : Pgdir) (uva : UInt64) : VmM (Option Nat) := do
  match ← walkpgdir pgdir uva with
  | none => panic .trap
  | some none => pure none
  | some (some pte) => if pte.user then pure (some pte.page) else pure none

/-- The loop of `copyout`, of which at most `n` rounds are left. -/
def copyoutLoop (pgdir : Pgdir) : (n : Nat) → (va len : UInt64) → VmM Bool
  | 0, _, _ => pure true
  | n + 1, va, len =>
      if 0 < len then do
        let va0 := va &&& ~~~4095
        match ← uva2ka pgdir va0 with
        | none => pure false
        | some _ =>
            let k := if 4096 - (va - va0) > len then len else 4096 - (va - va0)
            copyoutLoop pgdir n (va0 + 4096) (len - k)
      else pure true

def copyout (pgdir : Pgdir) (va len : UInt64) : VmM Bool := copyoutLoop pgdir (len.toNat + 1) va len

structure Image where
  sz : UInt64
  pgdir : Pgdir

def growproc (x : Image) (n : Int64) : VmM (Int × Image) :=
  if 0 < n then do
    let (pgdir, sz) ← allocuvm kend x.pgdir x.sz (x.sz + n.toUInt64)
    if sz = 0 then pure (-1, { x with pgdir }) else pure (0, ⟨sz, pgdir⟩)
  else if n < 0 then do
    let (pgdir, sz) ← deallocuvm kend x.pgdir x.sz (x.sz + n.toUInt64)
    if sz = 0 then pure (-1, { x with pgdir }) else pure (0, ⟨sz, pgdir⟩)
  else pure (0, x)

end

end Xv6.Vm
