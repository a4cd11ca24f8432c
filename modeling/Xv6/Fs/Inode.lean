import Xv6.Param
import Mathlib

namespace Xv6.Fs

/-- `struct dinode`; also the part of `struct inode` that is a copy of it. -/
structure Dinode where
  type : Int16
  major : Int16
  minor : Int16
  nlink : Int16
  size : UInt32
  addrs : Fin (ndirect + 1) → UInt32
  deriving DecidableEq

def Dinode.fresh (type : Int16) : Dinode := ⟨type, 0, 0, 0, 0, fun _ => 0⟩

/-- `struct inode` without its sleep lock; `valid` is the bit `I_VALID` of `flags`. -/
structure Inode extends Dinode where
  dev : Nat
  inum : Nat
  ref : Nat
  valid : Bool
  deriving DecidableEq

abbrev Inode.key (ip : Inode) : Nat × Nat := (ip.dev, ip.inum)

abbrev ICache := Fin ninode → Inode

def ICache.empty : ICache := fun _ => ⟨.fresh 0, 0, 0, 0, false⟩

def cached? (c : ICache) (dev inum : Nat) : Option (Fin ninode) :=
  (List.finRange ninode).find? fun i => 0 < (c i).ref ∧ (c i).dev = dev ∧ (c i).inum = inum

def unused? (c : ICache) : Option (Fin ninode) :=
  (List.finRange ninode).find? fun i => (c i).ref = 0

def iget (c : ICache) (dev inum : Nat) : Option (Fin ninode × ICache) :=
  match cached? c dev inum with
  | some i => some (i, Function.update c i { c i with ref := (c i).ref + 1 })
  | none => (unused? c).map fun i =>
      (i, Function.update c i { c i with dev := dev, inum := inum, ref := 1, valid := false })

def idup (c : ICache) (i : Fin ninode) : ICache :=
  Function.update c i { c i with ref := (c i).ref + 1 }

theorem cached?_some {c : ICache} {dev inum : Nat} {i : Fin ninode} (h : cached? c dev inum = some i) :
    0 < (c i).ref ∧ (c i).key = (dev, inum) := by
  have := List.find?_some h
  simp only [decide_eq_true_eq] at this
  exact ⟨this.1, by rw [Inode.key, this.2.1, this.2.2]⟩

theorem cached?_none {c : ICache} {dev inum : Nat} (h : cached? c dev inum = none) (i : Fin ninode)
    (hi : 0 < (c i).ref) : (c i).key ≠ (dev, inum) := by
  have := List.find?_eq_none.mp h i (List.mem_finRange i)
  intro hk
  rw [Inode.key, Prod.mk.injEq] at hk
  simp [hi, hk.1, hk.2] at this

theorem unused?_some {c : ICache} {i : Fin ninode} (h : unused? c = some i) : (c i).ref = 0 := by
  simpa using List.find?_some h

theorem iget_cases {c c' : ICache} {dev inum : Nat} {i : Fin ninode} (h : iget c dev inum = some (i, c')) :
    (0 < (c i).ref ∧ (c i).key = (dev, inum) ∧ c' = Function.update c i { c i with ref := (c i).ref + 1 }) ∨
      ((∀ j, 0 < (c j).ref → (c j).key ≠ (dev, inum)) ∧ (c i).ref = 0 ∧
        c' = Function.update c i { c i with dev := dev, inum := inum, ref := 1, valid := false }) := by
  unfold iget at h
  split at h
  next j hj =>
    simp only [Option.some.injEq, Prod.mk.injEq] at h
    obtain ⟨rfl, rfl⟩ := h
    exact .inl ⟨(cached?_some hj).1, (cached?_some hj).2, rfl⟩
  next hnone =>
    simp only [Option.map_eq_some_iff, Prod.mk.injEq] at h
    obtain ⟨j, hj, rfl, rfl⟩ := h
    exact .inr ⟨cached?_none hnone, unused?_some hj, rfl⟩

theorem iget_none {c : ICache} {dev inum : Nat} (h : iget c dev inum = none) (i : Fin ninode) :
    0 < (c i).ref ∧ (c i).key ≠ (dev, inum) := by
  unfold iget at h
  split at h
  next => cases h
  next hnone =>
    have hi := List.find?_eq_none.mp (Option.map_eq_none_iff.mp h) i (List.mem_finRange i)
    have hpos : 0 < (c i).ref := Nat.pos_of_ne_zero (by simpa using hi)
    exact ⟨hpos, cached?_none hnone i hpos⟩

end Xv6.Fs
