import Xv6.Fs.Inode
import Xv6.Lib.Bitmap
import Mathlib

namespace Xv6.Fs

open Lib.Bytes
open Function (update update_of_ne update_self)

structure Superblock where
  size : Nat
  nblocks : Nat
  ninodes : Nat
  nlog : Nat
  logstart : Nat
  inodestart : Nat
  bmapstart : Nat
  deriving DecidableEq, Repr

/-- A super block whose regions lie one after the other, as mkfs lays them out, with block numbers
that fit an `int` and inode numbers that fit a directory entry. -/
structure Layout extends Superblock where
  inodes_fit : inodestart + ninodes / ipb < bmapstart
  bitmap_fit : bmapstart + size / bpb < size - nblocks
  size_lt : size < 2 ^ 31
  ninodes_le : ninodes ≤ 2 ^ 16

def Superblock.nmeta (sb : Superblock) : Nat := sb.size - sb.nblocks

def Superblock.iblock (sb : Superblock) (i : Nat) : Nat := i / ipb + sb.inodestart

def Superblock.bblock (sb : Superblock) (b : Nat) : Nat := b / bpb + sb.bmapstart

def Dinode.bytes (d : Dinode) : List UInt8 :=
  leBytes 2 d.type.toUInt16.toNat ++ leBytes 2 d.major.toUInt16.toNat ++ leBytes 2 d.minor.toUInt16.toNat ++
    leBytes 2 d.nlink.toUInt16.toNat ++ leBytes 4 d.size.toNat ++
    (List.finRange (ndirect + 1)).flatMap fun k => leBytes 4 (d.addrs k).toNat

def Dinode.ofBytes (l : List UInt8) : Dinode where
  type := (UInt16.ofNat (field l 0 2)).toInt16
  major := (UInt16.ofNat (field l 2 2)).toInt16
  minor := (UInt16.ofNat (field l 4 2)).toInt16
  nlink := (UInt16.ofNat (field l 6 2)).toInt16
  size := UInt32.ofNat (field l 8 4)
  addrs := fun k => UInt32.ofNat (field l (12 + 4 * k.val) 4)

theorem Dinode.length_bytes (d : Dinode) : d.bytes.length = 64 := by
  have h : ((List.finRange (ndirect + 1)).flatMap fun k => leBytes 4 (d.addrs k).toNat).length = 52 := by
    simp [List.length_flatMap, ndirect]
  simp [Dinode.bytes, h]

theorem Dinode.ofBytes_bytes (d : Dinode) : Dinode.ofBytes d.bytes = d := by
  obtain ⟨type, major, minor, nlink, size, addrs⟩ := d
  have h2 (x : Int16) : (UInt16.ofNat (x.toUInt16.toNat % 256 ^ 2)).toInt16 = x := by
    rw [Nat.mod_eq_of_lt (by simpa using x.toUInt16.toNat_lt)]
    simp
  have h4 (x : UInt32) : UInt32.ofNat (x.toNat % 256 ^ 4) = x := by
    rw [Nat.mod_eq_of_lt (by simpa using x.toNat_lt)]
    simp
  simp only [Dinode.ofBytes, Dinode.bytes, Dinode.mk.injEq]
  refine ⟨?_, ?_, ?_, ?_, ?_, ?_⟩
  · rw [field_append_left (by simp), field_append_left (by simp), field_append_left (by simp),
      field_append_left (by simp), field_append_left (by simp), field_leBytes, h2]
  · rw [field_append_left (by simp), field_append_left (by simp), field_append_left (by simp),
      field_append_left (by simp), field_append_right (by simp), length_leBytes, field_leBytes, h2]
  · rw [field_append_left (by simp), field_append_left (by simp), field_append_left (by simp),
      field_append_right (by simp)]
    simp only [List.length_append, length_leBytes]
    rw [field_leBytes, h2]
  · rw [field_append_left (by simp), field_append_left (by simp), field_append_right (by simp)]
    simp only [List.length_append, length_leBytes]
    rw [field_leBytes, h2]
  · rw [field_append_left (by simp), field_append_right (by simp)]
    simp only [List.length_append, length_leBytes]
    rw [field_leBytes, h4]
  · funext k
    rw [field_append_right (by simp)]
    simp only [List.length_append, length_leBytes]
    rw [show 12 + 4 * k.val - (2 + 2 + 2 + 2 + 4) = 4 * k.val by omega,
      field_flatMap _ 4 _ k.val (by rw [List.length_finRange]; exact k.is_lt), h4]
    simp

def getDinode (b : Block) (i : Nat) : Dinode := .ofBytes (getBytes b (i % ipb * 64) 64)

def putDinode (b : Block) (i : Nat) (d : Dinode) : Block := putBytes b (i % ipb * 64) d.bytes

def getAddr (b : Block) (k : Nat) : UInt32 := UInt32.ofNat (getWord b (4 * k))

def putAddr (b : Block) (k : Nat) (a : UInt32) : Block := putWord b (4 * k) a.toNat

theorem getAddr_putAddr (b : Block) (k j : Nat) (a : UInt32) (hk : k < nindirect) (hj : j < nindirect) :
    getAddr (putAddr b k a) j = if j = k then a else getAddr b j := by
  have hn : nindirect = 128 := rfl
  have hb : bsize = 512 := rfl
  by_cases h : j = k
  · subst h
    rw [if_pos rfl, getAddr, putAddr, getWord_putWord_self _ _ _ (by omega) (by simpa using a.toNat_lt)]
    simp
  · rw [if_neg h, getAddr, putAddr, getWord_putWord_of_disjoint _ _ _ _ (by omega) (by omega), getAddr]

theorem getAddr_zero (k : Nat) : getAddr (fun _ => 0) k = 0 := by
  have h0 (i : Nat) : byteAt (fun _ => 0 : Block) i = 0 := by unfold byteAt; split <;> rfl
  simp [getAddr, getWord, getBytes, h0, List.range_succ, leVal]

theorem getDinode_zero (i : Nat) : getDinode (fun _ => 0) i = .fresh 0 := by
  have h0 (k : Nat) : byteAt (fun _ => 0 : Block) k = 0 := by unfold byteAt; split <;> rfl
  have hb : getBytes (fun _ => 0 : Block) (i % ipb * 64) 64 = List.replicate 64 0 := by
    simp [getBytes, h0, List.map_const']
  have hf (o w : Nat) : field (List.replicate 64 0) o w = 0 := by
    rw [field, List.drop_replicate, List.take_replicate]
    exact leVal_replicate_zero _
  simp only [getDinode, hb, Dinode.ofBytes, hf]
  rfl

section Views

variable (sb : Layout) (d : Disk)

def dinode (i : Nat) : Dinode := getDinode (d (sb.iblock i)) i

def inUse (b : Nat) : Bool := getBit (d (sb.bblock b)) (b % bpb)

theorem dinode_putDinode (i j : Nat) (x : Dinode) :
    dinode sb (update d (sb.iblock i) (putDinode (d (sb.iblock i)) i x)) j =
      if j = i then x else dinode sb d j := by
  have hb : bsize = 512 := rfl
  have hp : ipb = 8 := rfl
  have hi : i % ipb < 8 := Nat.mod_lt _ (by omega)
  have hj : j % ipb < 8 := Nat.mod_lt _ (by omega)
  have hlen := x.length_bytes
  by_cases h : sb.iblock j = sb.iblock i
  · rw [dinode, h, update_self, getDinode, putDinode]
    by_cases hij : j = i
    · subst hij
      have := getBytes_putBytes_self (d (sb.iblock j)) (j % ipb * 64) x.bytes (by omega)
      rw [hlen] at this
      rw [this, if_pos rfl, Dinode.ofBytes_bytes]
    · have hdiv : j / 8 + sb.inodestart = i / 8 + sb.inodestart := h
      have hne : i % ipb ≠ j % ipb := show i % 8 ≠ j % 8 by omega
      rw [getBytes_putBytes_of_disjoint _ _ _ _ _ (by omega) (by omega), if_neg hij, dinode, h, getDinode]
  · have hij : j ≠ i := fun e => h (by rw [e])
    rw [dinode, update_of_ne h, if_neg hij, dinode]

theorem inUse_update {v : Block} {f : Bool → Bool → Bool} (hfalse : ∀ x, f false x = x) (b c : Nat)
    (hv : ∀ k < 4096, getBit v k = f (decide (b % bpb = k)) (getBit (d (sb.bblock b)) k)) :
    inUse sb (update d (sb.bblock b) v) c = f (decide (b = c)) (inUse sb d c) := by
  by_cases h : sb.bblock c = sb.bblock b
  · rw [inUse, h, update_self, hv (c % bpb) (Nat.mod_lt c (by decide)), inUse, h]
    have hdiv : c / 4096 + sb.bmapstart = b / 4096 + sb.bmapstart := h
    have hmod : b % bpb = c % bpb ↔ b = c := show b % 4096 = c % 4096 ↔ b = c by omega
    simp only [hmod]
  · have hbc : b ≠ c := fun e => h (by rw [e])
    rw [inUse, update_of_ne h, decide_eq_false hbc, hfalse, inUse]

theorem inUse_setBit (b c : Nat) :
    inUse sb (update d (sb.bblock b) (setBit (d (sb.bblock b)) (b % bpb))) c = (decide (b = c) || inUse sb d c) :=
  inUse_update sb d Bool.false_or b c fun _ hk => getBit_setBit _ _ _ (Nat.div_lt_of_lt_mul hk)

theorem inUse_clearBit (b c : Nat) :
    inUse sb (update d (sb.bblock b) (clearBit (d (sb.bblock b)) (b % bpb))) c =
      (!decide (b = c) && inUse sb d c) :=
  inUse_update sb d (f := fun e x => !e && x) (fun _ => rfl) b c fun _ hk =>
    getBit_clearBit _ _ _ (Nat.div_lt_of_lt_mul hk)

end Views

section Regions

variable (sb : Layout) (d : Disk) {i b x : Nat} (v : Block)

theorem iblock_lt_bmapstart (hi : i < sb.ninodes) : sb.iblock i < sb.bmapstart := by
  have := sb.inodes_fit
  have := Nat.div_le_div_right (c := ipb) hi.le
  simp only [Superblock.iblock]
  omega

theorem bmapstart_le_bblock (b : Nat) : sb.bmapstart ≤ sb.bblock b := by simp [Superblock.bblock]

theorem bblock_lt_nmeta (hb : b < sb.size) : sb.bblock b < sb.nmeta := by
  have := sb.bitmap_fit
  have := Nat.div_le_div_right (c := bpb) hb.le
  simp only [Superblock.bblock, Superblock.nmeta]
  omega

theorem iblock_lt_nmeta (hi : i < sb.ninodes) : sb.iblock i < sb.nmeta := by
  have h := iblock_lt_bmapstart sb hi
  have hfit := sb.bitmap_fit
  have hdiv := Nat.zero_le (sb.size / bpb)
  simp only [Superblock.nmeta]
  omega

theorem dinode_of_data (hi : i < sb.ninodes) (hx : sb.nmeta ≤ x) :
    dinode sb (update d x v) i = dinode sb d i := by
  have := iblock_lt_nmeta sb hi
  rw [dinode, update_of_ne (by omega), dinode]

theorem dinode_of_bitmap (hi : i < sb.ninodes) (b : Nat) :
    dinode sb (update d (sb.bblock b) v) i = dinode sb d i := by
  have := iblock_lt_bmapstart sb hi
  have := bmapstart_le_bblock sb b
  rw [dinode, update_of_ne (by omega), dinode]

theorem inUse_of_data (hb : b < sb.size) (hx : sb.nmeta ≤ x) :
    inUse sb (update d x v) b = inUse sb d b := by
  have := bblock_lt_nmeta sb hb
  rw [inUse, update_of_ne (by omega), inUse]

theorem inUse_of_inode (hi : i < sb.ninodes) (b : Nat) :
    inUse sb (update d (sb.iblock i) v) b = inUse sb d b := by
  have := iblock_lt_bmapstart sb hi
  have := bmapstart_le_bblock sb b
  rw [inUse, update_of_ne (by omega), inUse]

end Regions

end Xv6.Fs
