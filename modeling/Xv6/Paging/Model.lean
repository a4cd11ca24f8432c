import Xv6.Lib.RadixHeap
import Xv6.Vm.Model

namespace Xv6.Paging

open Lib Vm

/-- How a function can fail to return: the kernel panics, or a loop does not come to its end. -/
inductive Fault
  | panic (p : Panic)
  | loops
  deriving DecidableEq, Repr

/-- Physical memory, page by page, in words of 64 bits. `kmem` has the pages that the next calls of `kalloc`
return; `none` is a call that returns 0. When there is nothing left, `kalloc` panics, as its code has it, or
returns 0, as its comment and its callers have it. -/
structure State where
  mem : Nat → Fin 512 → UInt64
  kmem : List (Option Nat)
  panics : Bool

abbrev PM := Exec State Fault

def panic {α : Type} (p : Panic) : PM α := Exec.fail (.panic p)

abbrev pteP : UInt64 := 1

abbrev pteW : UInt64 := 2

abbrev pteU : UInt64 := 4

def present (e : UInt64) : Bool := e &&& pteP ≠ 0

def frame (e : UInt64) : Nat := e.toNat / pgsize

def v2p (f : Nat) : UInt64 := UInt64.ofNat (f * pgsize)

def p2v (f : Nat) : UInt64 := v2p f + kernbase

abbrev Ptr := Nat × Fin 512

def load (p : Ptr) : PM UInt64 := Exec.gets fun s => s.mem p.1 p.2

def store (p : Ptr) (e : UInt64) : PM Unit := Exec.update fun s => { s with mem := RadixHeap.write s.mem p.1 p.2 e }

def memset (f : Nat) (e : UInt64) : PM Unit :=
  Exec.update fun s => { s with mem := Function.update s.mem f fun _ => e }

def kalloc : PM (Option Nat) := do
  match ← Exec.gets State.kmem with
  | r :: next => do
      Exec.update fun s => { s with kmem := next }
      pure r
  | [] => if ← Exec.gets State.panics then panic .outOfMemory else pure none

section

-- the first page after the kernel
variable (kend : Nat)

def kfree (v : Nat) : PM Unit :=
  if v < kend ∨ npages ≤ v then panic .kfree
  else do
    memset v 0x0101010101010101
    let next ← Exec.gets fun s => s.kmem.reduceOption.head?
    store (v, 0) (next.elim 0 p2v)
    Exec.update fun s => { s with kmem := some v :: s.kmem }

end

def pmx (va : UInt64) : Fin 512 := Fin.ofNat 512 (va >>> 39 &&& 0x1FF).toNat

def pdpx (va : UInt64) : Fin 512 := Fin.ofNat 512 (va >>> 30 &&& 0x1FF).toNat

def pdx (va : UInt64) : Fin 512 := Fin.ofNat 512 (va >>> 21 &&& 0x1FF).toNat

def ptx (va : UInt64) : Fin 512 := Fin.ofNat 512 (va >>> 12 &&& 0x1FF).toNat

def pgrounddown (a : UInt64) : UInt64 := a &&& ~~~4095

/-- One level of `walkpgdir`: the table that an entry leads to, which is made if it is not there. -/
def nextTable (p : Ptr) (alloc : Bool) : PM (Option Nat) := do
  let e ← load p
  if present e then pure (some (frame e))
  else if !alloc then pure none
  else do
    match ← kalloc with
    | none => pure none
    | some f => do
        memset f 0
        store p (v2p f ||| pteP ||| pteW ||| pteU)
        pure (some f)

def walkTables (alloc : Bool) : List (Fin 512) → Nat → PM (Option Nat)
  | [], table => pure (some table)
  | i :: is, table => do
      match ← nextTable (table, i) alloc with
      | none => pure none
      | some next => walkTables alloc is next

def walkpgdir (pml4 : Nat) (va : UInt64) (alloc : Bool) : PM (Option Ptr) := do
  match ← walkTables alloc [pmx va, pdpx va, pdx va] pml4 with
  | none => pure none
  | some pgtab => pure (some (pgtab, ptx va))

/-- The loop of `mappages`. -/
def mapLoop (pgdir : Nat) (last perm : UInt64) : (fuel : Nat) → (a pa : UInt64) → PM Int
  | 0, _, _ => Exec.fail .loops
  | n + 1, a, pa => do
      match ← walkpgdir pgdir a true with
      | none => pure (-1)
      | some pte => do
          if present (← load pte) then panic .remap
          else do
            store pte (pa ||| perm ||| pteP)
            if a = last then pure 0 else mapLoop pgdir last perm n (a + 4096) (pa + 4096)

/-- `mappages`. The addresses come to `last` after as many rounds as there are pages between, whether or not they
wrap. -/
def mappages (pgdir : Nat) (va size pa : UInt64) (perm : Int32) : PM Int :=
  let a := pgrounddown va
  let last := pgrounddown (va + size - 1)
  mapLoop pgdir last perm.toInt64.toUInt64 ((last - a).toNat / pgsize + 1) a pa

section

-- the first page after the kernel, and the kernel's own table of the second level
variable (kend kpdpt : Nat)

def setupkvm : PM Nat := do
  match ← kalloc with
  | none => panic .trap
  | some pml4 => do
      memset pml4 0
      store (pml4, 256) (v2p kpdpt ||| pteP ||| pteW)
      pure pml4

/-- The body of the loop of `deallocuvm`. -/
def deallocPage (pgdir : Nat) (a : UInt64) : PM Unit := do
  match ← walkpgdir pgdir a false with
  | none => pure ()
  | some pte => do
      let e ← load pte
      if present e then
        if frame e = 0 then panic .kfree
        else do
          kfree kend (frame e)
          store pte 0
      else pure ()

/-- The loop of `deallocuvm`. -/
def deallocLoop (pgdir : Nat) (oldsz : UInt64) : (fuel : Nat) → UInt64 → PM Unit
  | 0, a => if a < oldsz then Exec.fail .loops else pure ()
  | n + 1, a =>
      if a < oldsz then do
        deallocPage kend pgdir a
        deallocLoop pgdir oldsz n (a + 4096)
      else pure ()

def deallocuvm (pgdir : Nat) (oldsz newsz : UInt64) : PM UInt64 :=
  if newsz ≥ oldsz then pure oldsz
  else do
    deallocLoop kend pgdir oldsz (rounds (pgroundup newsz) oldsz) (pgroundup newsz)
    pure newsz

def indices : List (Fin 512) := List.finRange 512

theorem indices_eq : indices = List.finRange 512 := rfl

-- The kernel and the elaborator do not look into a list of 512 elements.
attribute [irreducible] indices

/-- The body of a loop of `freevm`: what an entry leads to is freed by the loop below it. -/
def freeEntry (below : Nat → PM Unit) (table : Nat) (i : Fin 512) : PM Unit := do
  let e ← load (table, i)
  if present e then below (frame e) else pure ()

/-- The loops of `freevm` below the first table, each like the others; at the bottom are the pages that are
mapped. -/
def freeTable : Nat → Nat → PM Unit
  | 0 => kfree kend
  | n + 1 => fun table => do
      indices.forM (freeEntry (freeTable n) table)
      kfree kend table

def freevm (pml4 : Option Nat) : PM Unit := do
  match pml4 with
  | none => panic .freevm
  | some pml4 => do
      (indices.take 256).forM (freeEntry (freeTable kend 3) pml4)
      kfree kend pml4

def clearpteu (pgdir : Nat) (uva : UInt64) : PM Unit := do
  match ← walkpgdir pgdir uva false with
  | none => panic .clearpteu
  | some pte => do
      let e ← load pte
      store pte (e &&& ~~~pteU)

end

end Xv6.Paging
