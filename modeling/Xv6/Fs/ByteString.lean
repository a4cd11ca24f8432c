import Xv6.Fs.BlockOwnership
import Xv6.Fs.Supply

namespace Xv6.Fs

open Lib Lib.Bytes Lib.Exec

variable {sb : Layout} {d d' : Disk} {s t : State} {i : Fin ninode} {x : Dinode} {off n : UInt32}
    {src : Nat → UInt8}

def contents (d : Disk) (x : Dinode) : List UInt8 := (List.range x.size.toNat).map (fileByte d x)

@[simp] theorem length_contents (d : Disk) (x : Dinode) : (contents d x).length = x.size.toNat := by
  rw [contents, List.length_map, List.length_range]

theorem getElem?_contents {p : Nat} :
    (contents d x)[p]? = if p < x.size.toNat then some (fileByte d x p) else none := by
  rw [contents, List.getElem?_map]
  split
  next hp => rw [List.getElem?_range hp, Option.map_some]
  next hp => rw [List.getElem?_eq_none (by simpa using hp), Option.map_none]

def overwrite (c : List UInt8) (off : Nat) (data : List UInt8) : List UInt8 :=
  c.take off ++ data ++ c.drop (off + data.length)

theorem getElem?_overwrite {old data : List UInt8} {off : Nat} (h : off ≤ old.length) (p : Nat) :
    (overwrite old off data)[p]? = if off ≤ p ∧ p < off + data.length then data[p - off]? else old[p]? := by
  have htake : (old.take off).length = off := List.length_take_of_le h
  rw [overwrite, List.append_assoc]
  by_cases hlo : off ≤ p
  · rw [List.getElem?_append_right (by omega), htake]
    by_cases hhi : p < off + data.length
    · rw [if_pos ⟨hlo, hhi⟩, List.getElem?_append_left (by omega)]
    · rw [if_neg (by omega), List.getElem?_append_right (by omega), List.getElem?_drop]
      congr 1
      omega
  · rw [if_neg (by omega), List.getElem?_append_left (by omega), List.getElem?_take_of_lt (by omega)]

theorem SameFile.contents_eq (h : SameFile d d' x) (hf : Filled d x (blocks x.size.toNat)) :
    contents d' x = contents d x := by
  apply List.map_congr_left
  intro p hp
  exact h.fileByte_eq (hf.fileBlock_ne ((List.mem_range.mp hp).trans_le (blocks_le_iff.mp le_rfl)))

theorem Written.contents_eq {off n : Nat} (h : Written sb i src off n s t x)
    (hoff : off ≤ (s.icache i).size.toNat) :
    contents t.disk x =
      overwrite (contents s.disk (s.icache i).toDinode) off ((List.range n).map src) := by
  have hsize := h.size
  apply List.ext_getElem?
  intro p
  rw [getElem?_overwrite (by rwa [length_contents]), getElem?_contents, getElem?_contents, List.length_map,
    List.length_range]
  by_cases hin : off ≤ p ∧ p < off + n
  · rw [if_pos hin, if_pos (by omega), h.bytes p (.inr hin.2), if_pos hin, List.getElem?_map,
      List.getElem?_range (by omega), Option.map_some]
  · rw [if_neg hin]
    by_cases hp : p < (s.icache i).size.toNat
    · rw [if_pos hp, if_pos (by omega), h.bytes p (.inl (hp.trans_le (blocks_le_iff.mp le_rfl))), if_neg hin]
    · rw [if_neg hp, if_neg (by omega)]

def WriteBad (size : Nat) (off n : UInt32) : Prop :=
  size < off.toNat ∨ 2 ^ 32 ≤ off.toNat + n.toNat ∨ maxfile * bsize < off.toNat + n.toNat

def ReadBad (size : Nat) (off n : UInt32) : Prop := size < off.toNat ∨ 2 ^ 32 ≤ off.toNat + n.toNat

theorem add_lt_self_iff {off n : UInt32} : off + n < off ↔ 2 ^ 32 ≤ off.toNat + n.toNat := by
  have := off.toNat_lt
  have := n.toNat_lt
  rw [UInt32.lt_iff_toNat_lt, UInt32.toNat_add]
  omega

section Calls

variable [Devsw]

theorem writei_bad (hdev : (s.icache i).type ≠ tDev) (hbad : WriteBad (s.icache i).size.toNat off n) :
    writei sb i src off n s = .ok (-1, s) := by
  rw [writei, bind_ok (inode_eq i s), if_neg hdev]
  by_cases hguard : off > (s.icache i).size ∨ off + n < off
  · rw [if_pos hguard]
    rfl
  · rw [if_neg hguard]
    have hwrap : ¬ off + n < off := fun h => hguard (.inr h)
    have hoff : ¬ (s.icache i).size.toNat < off.toNat := fun h => hguard (.inl h)
    have hbig : maxfile * bsize < off.toNat + n.toNat := by
      rcases hbad with hbad | hbad | hbad
      · exact absurd hbad hoff
      · exact absurd (add_lt_self_iff.mpr hbad) hwrap
      · exact hbad
    rw [if_pos (by rwa [toNat_add_of_not_lt hwrap])]
    rfl

theorem readi_bad (hdev : (s.icache i).type ≠ tDev) (hbad : ReadBad (s.icache i).size.toNat off n) :
    readi sb i off n s = .ok ((-1, []), s) := by
  have hguard : off > (s.icache i).size ∨ off + n < off := hbad.imp id add_lt_self_iff.mpr
  rw [readi, bind_ok (inode_eq i s), if_neg hdev, if_pos hguard]
  rfl

theorem writei_ok (h : Consistent sb s) (hr : 0 < (s.icache i).ref) (hv : (s.icache i).valid = true)
    (hdev : (s.icache i).type ≠ tDev) (hgood : ¬ WriteBad (s.icache i).size.toNat off n)
    (hfree : growth (blocks (s.icache i).size.toNat) (blocks (off.toNat + n.toNat)) ≤ (freeList sb s.disk).length) :
    ∃ t x, writei sb i src off n s = .ok ((n.toNat : Int), t) ∧ Written sb i src off.toNat n.toNat s t x := by
  rw [WriteBad, not_or, not_or, not_lt, not_le, not_lt] at hgood
  obtain ⟨hoff, -, hmax⟩ := hgood
  have hwrite : wp (writei sb i src off n) _ BmapPanic s := writei_spec h hr hv hdev
  have hspec := wp_iff.mp (hwrite.conj (writei_takes h hr hv hdev hoff hmax))
  cases hm : writei sb i src off n s with
  | error e => exact absurd (hspec.2 e hm).2.2 (not_lt.mpr hfree)
  | ok r =>
      obtain ⟨r, t⟩ := r
      rcases (hspec.1 r t hm).1 with ⟨-, -, hbad | hbad⟩ | ⟨hr', -, -, x, hx⟩
      · exact absurd hbad (UInt32.not_lt.mpr hoff)
      · exact absurd hbad (not_lt.mpr hmax)
      · exact ⟨t, x, by rw [hr'], hx⟩

theorem readi_ok (sb : Layout) (hf : Filled s.disk (s.icache i).toDinode (blocks (s.icache i).size.toNat))
    (hdev : (s.icache i).type ≠ tDev) (hgood : ¬ ReadBad (s.icache i).size.toNat off n) :
    let bs := ((contents s.disk (s.icache i).toDinode).drop off.toNat).take n.toNat
    readi sb i off n s = .ok (((bs.length : Int), bs), s) := by
  intro bs
  have hbs : bs = (List.range (min n.toNat ((s.icache i).size.toNat - off.toNat))).map fun k =>
      fileByte s.disk (s.icache i).toDinode (off.toNat + k) := by
    apply List.ext_getElem?
    intro p
    simp only [bs, List.getElem?_take, List.getElem?_drop, getElem?_contents, List.getElem?_map]
    by_cases hp : p < min n.toNat ((s.icache i).size.toNat - off.toNat)
    · rw [if_pos (by omega), if_pos (by omega), List.getElem?_range hp, Option.map_some]
    · rw [List.getElem?_eq_none (by rw [List.length_range]; omega), Option.map_none]
      split
      · rw [if_neg (by omega)]
      · rfl
  have hread : wp (readi sb i off n) _ _ s := readi_filled hf hdev
  have hspec := wp_iff.mp hread
  cases hm : readi sb i off n s with
  | error e => exact (hspec.2 e hm).elim
  | ok r =>
      obtain ⟨⟨r, l⟩, t⟩ := r
      obtain ⟨rfl, ⟨-, hbad⟩ | ⟨-, -, hr', hl⟩⟩ := hspec.1 _ t hm
      · exact absurd hbad hgood
      · rw [← hbs] at hl
        simp only at hr' hl
        rw [hr', hl]

/-- A regular file is a byte string: `writei` replaces a part of it, or refuses, and touches no other inode;
`readi` returns a part of it. -/
theorem file_is_byte_string (h : Consistent sb s) (hr : 0 < (s.icache i).ref) (hv : (s.icache i).valid = true)
    (ht : (s.icache i).type = tFile) (off n : UInt32) (src : Nat → UInt8) :
    let c := contents s.disk (s.icache i).toDinode
    (writei sb i src off n s = .ok (-1, s) ↔
        c.length < off.toNat ∨ 2 ^ 32 ≤ off.toNat + n.toNat ∨ maxfile * bsize < off.toNat + n.toNat) ∧
      (¬ (c.length < off.toNat ∨ 2 ^ 32 ≤ off.toNat + n.toNat ∨ maxfile * bsize < off.toNat + n.toNat) →
        growth (blocks c.length) (blocks (off.toNat + n.toNat)) ≤ (freeList sb s.disk).length →
        ∃ t, writei sb i src off n s = .ok ((n.toNat : Int), t) ∧ Consistent sb t ∧
          contents t.disk (t.icache i).toDinode = overwrite c off.toNat ((List.range n.toNat).map src) ∧
          dinode sb t.disk (s.icache i).inum = (t.icache i).toDinode ∧
          t.icache i = { s.icache i with size := (t.icache i).size, addrs := (t.icache i).addrs } ∧
          (∀ k, k ≠ i → t.icache k = s.icache k) ∧
          ∀ j, j < sb.ninodes → j ≠ (s.icache i).inum → dinode sb t.disk j = dinode sb s.disk j ∧
            ((dinode sb s.disk j).type ≠ 0 →
              contents t.disk (dinode sb s.disk j) = contents s.disk (dinode sb s.disk j))) ∧
      (readi sb i off n s = .ok ((-1, []), s) ↔ c.length < off.toNat ∨ 2 ^ 32 ≤ off.toNat + n.toNat) ∧
      (¬ (c.length < off.toNat ∨ 2 ^ 32 ≤ off.toNat + n.toNat) →
        let bs := (c.drop off.toNat).take n.toNat
        readi sb i off n s = .ok (((bs.length : Int), bs), s)) := by
  intro c
  have hdev : (s.icache i).type ≠ tDev := by rw [ht]; decide
  have hc : c.length = (s.icache i).size.toNat := length_contents ..
  rw [hc]
  refine ⟨⟨fun he => ?_, writei_bad hdev⟩, fun hgood hfree => ?_, ⟨fun he => ?_, readi_bad hdev⟩,
    readi_ok sb (h.filled_cached hr hv) hdev⟩
  · -- a successful `writei` returns a length, which is not -1
    have hwrite : wp (writei sb i src off n) _ BmapPanic s := writei_spec h hr hv hdev
    rcases (wp_iff.mp hwrite).1 _ _ he with ⟨-, -, hbad | hbad⟩ | ⟨hn, -⟩
    · exact .inl hbad
    · exact .inr (.inr hbad)
    · omega
  · obtain ⟨t, x, hw, hx⟩ : ∃ t x, writei sb i src off n s = .ok ((n.toNat : Int), t) ∧ Written _ _ _ _ _ _ t x :=
      writei_ok h hr hv hdev hgood hfree
    have hoff : off.toNat ≤ (s.icache i).size.toNat := not_lt.mp fun hlt => hgood (.inl hlt)
    have hi : t.icache i = { s.icache i with toDinode := x } := by rw [hx.icache, Function.update_self]
    refine ⟨t, hw, hx.consistent, ?_, ?_, ?_, fun k hk => ?_, fun j hj hne => ⟨?_, fun htj => ?_⟩⟩
    · rw [hi]
      exact hx.contents_eq hoff
    · rw [hx.touched.nodes _ (h.cache.inum_lt i hr), if_pos rfl, hi]
    · rw [hi, hx.rest]
    · rw [hx.icache, Function.update_of_ne hk]
    · rw [hx.touched.nodes j hj, if_neg hne]
    · exact (hx.touched.others j hj hne htj).contents_eq (h.filled j hj htj)
  · by_contra hgood
    have hok := readi_ok sb (h.filled_cached hr hv) hdev hgood
    rw [he] at hok
    have hlen := congrArg (fun r : Except Halt ((Int × List UInt8) × State) => r.toOption.map (·.1.1)) hok
    simp only [Except.toOption, Option.map_some, Option.some.injEq] at hlen
    omega

end Calls

section

attribute [local instance] noDevices

theorem file_is_byte_string_oneFile :
    ∃ t, writei tiny 0 (fun k => UInt8.ofNat (k + 7)) 0 5 oneFile = .ok (5, t) ∧
      contents t.disk (t.icache 0).toDinode = [7, 8, 9, 10, 11] := by
  have h := (file_is_byte_string (i := 0) consistent_oneFile (by decide) (by decide)
    (by decide) 0 5 fun k => UInt8.ofNat (k + 7)).2.1 (by decide +kernel) (by decide +kernel)
  obtain ⟨t, hw, -, hc, -⟩ := h
  exact ⟨t, hw, hc.trans (by decide +kernel)⟩

end

end Xv6.Fs
