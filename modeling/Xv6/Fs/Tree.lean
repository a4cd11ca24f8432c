import Xv6.Fs.BlockOwnership
import Xv6.Fs.Dir

namespace Xv6.Fs

open Lib Lib.Cstr

variable {sb : Layout} {d d' : Disk} {s t : State} {i : Fin ninode} {x : Dinode} {j k : Nat} {de : Dirent}

/-- What the directory tree knows of an inode. A directory has `ents`, followed by `rest` bytes that
are not enough for another one. -/
@[ext]
structure Node where
  type : Int16
  nlink : Int16
  ents : List Dirent
  rest : Nat
  deriving DecidableEq

namespace Node

def unused : Node := ⟨0, 0, [], 0⟩

def Orphan (x : Node) : Prop := x.type ≠ 0 ∧ x.nlink = 0

instance (x : Node) : Decidable x.Orphan := inferInstanceAs (Decidable (_ ∧ _))

end Node

abbrev Tree := Nat → Node

def Dinode.node (d : Disk) (x : Dinode) : Node where
  type := x.type
  nlink := x.nlink
  ents := if x.type = tDir then (List.range x.slots).map (dirent d x) else []
  rest := if x.type = tDir then x.size.toNat % 16 else 0

def tree (sb : Layout) (d : Disk) : Tree := fun j =>
  if j < sb.ninodes then (dinode sb d j).node d else .unused

theorem tree_of_lt (hj : j < sb.ninodes) : tree sb d j = (dinode sb d j).node d := if_pos hj

theorem lt_of_type_ne (h : (tree sb d j).type ≠ 0) : j < sb.ninodes := by
  by_contra hj
  rw [tree, if_neg hj] at h
  exact h rfl

theorem Dinode.node_of_not_dir (h : x.type ≠ tDir) : x.node d = ⟨x.type, x.nlink, [], 0⟩ := by
  rw [Dinode.node, if_neg h, if_neg h]

theorem Dinode.node_ents (h : x.type = tDir) : (x.node d).ents = (List.range x.slots).map (dirent d x) := if_pos h

theorem Dinode.length_ents (h : x.type = tDir) : (x.node d).ents.length = x.slots := by
  rw [Dinode.node_ents h, List.length_map, List.length_range]

theorem Dinode.slot_lt (h : k < x.slots) {p : Nat} (hp : p < 16) : 16 * k + p < blocks x.size.toNat * bsize := by
  have : 16 * k + p < x.size.toNat := by
    simp only [Dinode.slots] at h
    omega
  exact this.trans_le (blocks_le_iff.mp le_rfl)

theorem SameFile.node_eq (h : SameFile d d' x) (hf : x.type ≠ 0 → Filled d x (blocks x.size.toNat)) :
    x.node d' = x.node d := by
  by_cases ht : x.type = tDir
  · have hf := hf (by rw [ht]; decide)
    have hents : (List.range x.slots).map (dirent d' x) = (List.range x.slots).map (dirent d x) := by
      apply List.map_congr_left
      intro k hk
      apply dirent_congr
      intro p hp
      exact h.fileByte_eq (hf.fileBlock_ne (Dinode.slot_lt (List.mem_range.mp hk) hp))
    rw [Dinode.node, Dinode.node, hents]
  · rw [Dinode.node_of_not_dir ht, Dinode.node_of_not_dir ht]

theorem Touched.tree_eq (h : Touched sb j x d d') (hj : j < sb.ninodes)
    (hd : ∀ k, k < sb.ninodes → (dinode sb d k).type ≠ 0 →
    Filled d (dinode sb d k) (blocks (dinode sb d k).size.toNat)) :
    tree sb d' = Function.update (tree sb d) j (x.node d') := by
  funext k
  by_cases hk : k < sb.ninodes
  · rw [tree_of_lt hk, h.nodes k hk]
    by_cases hkj : k = j
    · rw [hkj, if_pos rfl, Function.update_self]
    · rw [if_neg hkj, Function.update_of_ne hkj, tree_of_lt hk]
      by_cases ht : (dinode sb d k).type = 0
      · have hnd : (dinode sb d k).type ≠ tDir := by rw [ht]; decide
        rw [Dinode.node_of_not_dir hnd, Dinode.node_of_not_dir hnd]
      · exact (h.others k hk hkj ht).node_eq (hd k hk)
  · have hkj : k ≠ j := by omega
    rw [Function.update_of_ne hkj, tree, tree, if_neg hk, if_neg hk]

def putEnt (es : List Dirent) (k : Nat) (de : Dirent) : List Dirent :=
  if k < es.length then es.set k de else es ++ [de]

theorem getElem?_putEnt {es : List Dirent} (hk : k ≤ es.length) (m : Nat) :
    (putEnt es k de)[m]? = if m = k then some de else es[m]? := by
  unfold putEnt
  split
  next hlt =>
    rw [List.getElem?_set]
    by_cases hm : m = k
    · rw [if_pos hm, if_pos hm.symm, if_pos (hm ▸ hlt)]
    · rw [if_neg hm, if_neg (Ne.symm hm)]
  next hge =>
    have hk : k = es.length := by omega
    by_cases hm : m = k
    · rw [if_pos hm, hm, hk, List.getElem?_concat_length]
    · rw [if_neg hm]
      rcases lt_or_gt_of_ne hm with hm | hm
      · rw [List.getElem?_append_left (by omega)]
      · rw [List.getElem?_eq_none (by simp; omega), List.getElem?_eq_none (by omega)]

theorem Written.node_eq (h : Written sb i de.src (16 * k) 16 s t x) (hde : de.name.length = dirsiz)
    (ht : (s.icache i).type = tDir) (hrest : ((s.icache i).node s.disk).rest = 0)
    (hk : k ≤ ((s.icache i).node s.disk).ents.length) :
    x.node t.disk =
      { (s.icache i).node s.disk with ents := putEnt ((s.icache i).node s.disk).ents k de } := by
  have hxt : x.type = tDir := h.type.trans ht
  have hlen : ((s.icache i).node s.disk).ents.length = (s.icache i).slots := Dinode.length_ents ht
  have hmod : (s.icache i).size.toNat % 16 = 0 := by simpa [Dinode.node, ht] using hrest
  have hsize := h.size
  have hslots : x.slots = max (s.icache i).slots (k + 1) := by
    simp only [Dinode.slots] at hlen ⊢
    omega
  have hents : (x.node t.disk).ents = putEnt ((s.icache i).node s.disk).ents k de := by
    apply List.ext_getElem?
    intro m
    rw [getElem?_putEnt hk, Dinode.node_ents hxt, Dinode.node_ents ht]
    by_cases hm : m = k
    · subst hm
      rw [if_pos rfl, List.getElem?_map, List.getElem?_range (by omega)]
      refine congrArg some (dirent_of_bytes de hde fun p hp => ?_)
      rw [h.bytes _ (.inr (by omega)), if_pos (by omega), Nat.add_sub_cancel_left]
      rfl
    · rw [if_neg hm]
      by_cases hlt : m < (s.icache i).slots
      · rw [List.getElem?_map, List.getElem?_map, List.getElem?_range (by omega), List.getElem?_range hlt]
        refine congrArg some (dirent_congr fun p hp => ?_)
        rw [h.bytes _ (.inl (Dinode.slot_lt hlt hp)), if_neg (by omega)]
      · rw [List.getElem?_eq_none, List.getElem?_eq_none]
        · simpa using hlt
        · simp only [List.length_map, List.length_range]
          omega
  have hrest' : (x.node t.disk).rest = ((s.icache i).node s.disk).rest := by
    rw [hrest]
    simp only [Dinode.node, hxt, if_true]
    omega
  have hnlink : x.nlink = (s.icache i).nlink := by rw [h.rest]
  exact Node.ext h.type hnlink hents hrest'

theorem Written.node_fill {f : Nat → Dirent} {m : Nat} (h : Written sb i (fun p => (f (p / 16)).src (p % 16)) 0
    (16 * m) s t x)
    (hf : ∀ k, (f k).name.length = dirsiz) (ht : (s.icache i).type = tDir) (hsize : (s.icache i).size = 0) :
    x.node t.disk = ⟨tDir, (s.icache i).nlink, (List.range m).map f, 0⟩ := by
  have hxt : x.type = tDir := h.type.trans ht
  have hxsize : x.size.toNat = 16 * m := by
    rw [h.size, hsize]
    exact (max_eq_right (Nat.zero_le _)).trans (Nat.zero_add _)
  have hslots : x.slots = m := by
    rw [Dinode.slots, hxsize]
    omega
  have hents : (x.node t.disk).ents = (List.range m).map f := by
    rw [Dinode.node_ents hxt, hslots]
    refine List.map_congr_left fun k hk => dirent_of_bytes (f k) (hf k) fun p hp => ?_
    have hk := List.mem_range.mp hk
    rw [h.bytes _ (.inr (by omega)), if_pos (by omega), Nat.sub_zero, show (16 * k + p) / 16 = k by omega,
      show (16 * k + p) % 16 = p by omega]
    rfl
  have hrest : (x.node t.disk).rest = 0 := by
    simp only [Dinode.node, hxt, if_true, hxsize]
    omega
  have hnlink : x.nlink = (s.icache i).nlink := by rw [h.rest]
  exact Node.ext hxt hnlink hents hrest

end Xv6.Fs
