import Xv6.Fs.Ops
import Xv6.Lib.Ownership

namespace Xv6.Fs

open Lib Lib.Bytes Lib.Exec Lib.Ownership

/-- The places in an inode and its indirect block that hold block pointers. -/
inductive Slot
  | direct (k : Fin ndirect)
  | indirect
  | entry (k : Fin nindirect)
  deriving DecidableEq

def Dinode.ind (x : Dinode) : UInt32 := x.addrs (Fin.last ndirect)

def ptr (d : Disk) (x : Dinode) : Slot → Nat
  | .direct k => (x.addrs k.castSucc).toNat
  | .indirect => x.ind.toNat
  | .entry k => if x.ind = 0 then 0 else (getAddr (d x.ind.toNat) k).toNat

variable (sb : Layout)

def table (d : Disk) (N : Nat → Dinode) : Nat × Slot → Nat := fun k =>
  if k.1 < sb.ninodes ∧ (N k.1).type ≠ 0 then ptr d (N k.1) k.2 else 0

/-- The free map of the disk marks the metadata blocks, the blocks the inodes point to, and `X`. -/
abbrev Owns (d : Disk) (N : Nat → Dinode) (X : Set Nat) : Prop :=
  Owned sb.nmeta sb.size (inUse sb d) (table sb d N) X

variable {sb} {d d' : Disk} {N : Nat → Dinode} {X : Set Nat} {s : State} {x : Dinode} {i b : Nat}

theorem toNat_ne_zero {a : UInt32} : a.toNat ≠ 0 ↔ a ≠ 0 := by
  rw [Ne, ← UInt32.toNat_zero, UInt32.toNat_inj]

theorem ptr_congr (h : x.ind ≠ 0 → d' x.ind.toNat = d x.ind.toNat) (sl : Slot) : ptr d' x sl = ptr d x sl := by
  cases sl with
  | entry k =>
      by_cases h0 : x.ind = 0
      · simp [ptr, h0]
      · simp [ptr, h0, h h0]
  | _ => rfl

theorem table_live (hi : i < sb.ninodes) (ht : (N i).type ≠ 0) (sl : Slot) :
    table sb d N (i, sl) = ptr d (N i) sl := if_pos ⟨hi, ht⟩

theorem table_congr (h : ∀ i, i < sb.ninodes → (N i).type ≠ 0 → (N i).ind ≠ 0 →
    d' (N i).ind.toNat = d (N i).ind.toNat) : table sb d' N = table sb d N := by
  funext ⟨i, sl⟩
  unfold table
  split
  next hi => exact ptr_congr (h i hi.1 hi.2) sl
  next => rfl

theorem Owned.ind_used (h : Owns sb d N X) (hi : i < sb.ninodes) (ht : (N i).type ≠ 0) (h0 : (N i).ind ≠ 0) :
    sb.nmeta ≤ (N i).ind.toNat ∧ (N i).ind.toNat < sb.size ∧ inUse sb d (N i).ind.toNat = true := by
  have hk : table sb d N (i, .indirect) = (N i).ind.toNat := table_live hi ht .indirect
  have hne : table sb d N (i, .indirect) ≠ 0 := hk ▸ toNat_ne_zero.mpr h0
  rw [← hk]
  exact ⟨(h.range _ hne).1, (h.range _ hne).2, h.used_of_ne hne⟩

theorem Owned.meta_used (h : Owns sb d N X) (hb : b < sb.nmeta) : inUse sb d b = true := by
  have hle : sb.nmeta ≤ sb.size := Nat.sub_le _ _
  exact (h.used_iff b (by omega)).mpr (.inl hb)

structure Balloced (sb : Layout) (d d' : Disk) (b : Nat) : Prop where
  lo : sb.nmeta ≤ b
  hi : b < sb.size
  free : inUse sb d b = false
  zero : d' b = fun _ => 0
  data : ∀ c, sb.nmeta ≤ c → c ≠ b → d' c = d c
  nodes : ∀ i, i < sb.ninodes → dinode sb d' i = dinode sb d i
  bits : ∀ c, c < sb.size → inUse sb d' c = (decide (b = c) || inUse sb d c)

theorem Balloced.data_used (h : Balloced sb d d' b) {c : Nat} (hc : sb.nmeta ≤ c) (hu : inUse sb d c = true) :
    d' c = d c := by
  apply h.data c hc
  rintro rfl
  rw [h.free] at hu
  cases hu

theorem Balloced.table_eq (h : Balloced sb d d' b) (ho : Owns sb d N X) : table sb d' N = table sb d N := by
  apply table_congr
  intro i hi ht h0
  obtain ⟨hlo, -, hu⟩ := Owned.ind_used ho hi ht h0
  exact h.data_used hlo hu

theorem Balloced.owns (h : Balloced sb d d' b) (ho : Owns sb d N X) : Owns sb d' N (insert b X) := by
  rw [Owns, h.table_eq ho]
  exact Ownership.Owned.take ho h.hi h.free h.bits

theorem balloc_spec (ho : Owns sb s.disk N X) :
    wp (balloc sb) (fun a t => t.icache = s.icache ∧ Balloced sb s.disk t.disk a.toNat)
      (· = .panic .ballocOutOfBlocks) s := by
  simp only [balloc, wp_bind, wp_gets]
  cases hf : firstFree sb s.disk with
  | none => simp [Fs.panic]
  | some b =>
      have hb : b < sb.size := List.mem_range.mp (List.mem_of_find?_eq_some hf)
      have hfree : inUse sb s.disk b = false := by simpa using List.find?_some hf
      have hlo : sb.nmeta ≤ b := by
        by_contra hlt
        rw [Owned.meta_used ho (by omega)] at hfree
        cases hfree
      have hlt := sb.size_lt
      have hnat : (UInt32.ofNat b).toNat = b := UInt32.toNat_ofNat_of_lt' (by show b < 2 ^ 32; omega)
      have hbb := bblock_lt_nmeta sb hb
      simp only [bread, logWrite, bzero, wp_bind, wp_gets, wp_update, wp_pure, hnat]
      refine ⟨trivial, hlo, hb, hfree, by simp, fun c hc hcb => ?_, fun i hi => ?_, fun c hc => ?_⟩
      · rw [Function.update_of_ne hcb, Function.update_of_ne (by omega)]
      · rw [dinode_of_data sb _ _ hi hlo, dinode_of_bitmap sb _ _ hi]
      · rw [inUse_of_data sb _ _ hc hlo, inUse_setBit]

structure Bfreed (sb : Layout) (d d' : Disk) (b : Nat) : Prop where
  data : ∀ c, sb.nmeta ≤ c → d' c = d c
  nodes : ∀ i, i < sb.ninodes → dinode sb d' i = dinode sb d i
  bits : ∀ c, inUse sb d' c = (!decide (b = c) && inUse sb d c)

theorem bfree_spec (ho : Owns sb s.disk N X) (hb : b ∈ X) :
    wp (bfree sb b) (fun _ t => t.icache = s.icache ∧ Bfreed sb s.disk t.disk b ∧ Owns sb t.disk N (X \ {b}))
      (fun _ => False) s := by
  obtain ⟨hlo, hhi, -⟩ := ho.loose b hb
  have hu : getBit (s.disk (sb.bblock b)) (b % bpb) = true := (ho.used_iff b hhi).mpr (.inr (.inl hb))
  have hbb := bblock_lt_nmeta sb hhi
  have hfreed : Bfreed sb s.disk
      (Function.update s.disk (sb.bblock b) (clearBit (s.disk (sb.bblock b)) (b % bpb))) b := by
    refine ⟨fun c hc => ?_, fun i hi => dinode_of_bitmap sb _ _ hi b, fun c => inUse_clearBit sb _ b c⟩
    rw [Function.update_of_ne (by omega)]
  simp only [bfree, bread, wp_bind, wp_gets, hu, Bool.true_eq_false, if_false, logWrite, wp_update]
  refine ⟨trivial, hfreed, ?_⟩
  have ht : table sb (Function.update s.disk (sb.bblock b) (clearBit (s.disk (sb.bblock b)) (b % bpb))) N =
      table sb s.disk N :=
    table_congr fun i hi ht h0 => hfreed.data _ (Owned.ind_used ho hi ht h0).1
  rw [Owns, ht]
  exact Ownership.Owned.drop ho hb fun c _ => hfreed.bits c

end Xv6.Fs
