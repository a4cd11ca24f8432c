import Xv6.Fs.Consistent

namespace Xv6.Fs

open Lib Lib.Bytes Lib.Exec Lib.Ownership

variable {sb : Layout} {d d' : Disk} {N : Nat → Dinode} {X : Set Nat} {s t : State} {i : Fin ninode} {m bn b : Nat}

def freeList (sb : Layout) (d : Disk) : List Nat := (List.range sb.size).filter fun b => !inUse sb d b

theorem freeList_congr (h : ∀ c, c < sb.size → inUse sb d' c = inUse sb d c) : freeList sb d' = freeList sb d := by
  apply List.filter_congr
  intro c hc
  rw [h c (List.mem_range.mp hc)]

theorem firstFree_eq (d : Disk) : firstFree sb d = (freeList sb d).head? := (List.head?_filter ..).symm

theorem Balloced.freeList_eq (h : Balloced sb d d' b) (hb : firstFree sb d = some b) :
    freeList sb d = b :: freeList sb d' := by
  rw [firstFree_eq, List.head?_eq_some_iff] at hb
  obtain ⟨l, hl⟩ := hb
  have hnodup : (b :: l).Nodup := hl ▸ List.nodup_range.filter _
  have hfilter : freeList sb d' = (freeList sb d).filter fun c => decide (c ≠ b) := by
    rw [freeList, freeList, List.filter_filter]
    apply List.filter_congr
    intro c hc
    rw [h.bits c (List.mem_range.mp hc)]
    by_cases hbc : b = c
    · simp [hbc]
    · simp [hbc, Ne.symm hbc]
  rw [hfilter, hl, List.filter_cons_of_neg (by simp), List.filter_eq_self.mpr]
  intro c hc
  simp only [decide_eq_true_eq]
  rintro rfl
  exact (List.nodup_cons.mp hnodup).1 hc

theorem balloc_supply (ho : Owns sb s.disk N X) :
    wp (balloc sb) (fun a t => freeList sb s.disk = a.toNat :: freeList sb t.disk)
      (fun e => e = .panic .ballocOutOfBlocks ∧ freeList sb s.disk = []) s := by
  have hspec := balloc_spec ho
  rw [wp_iff] at hspec ⊢
  refine ⟨fun a t ha => ?_, fun e he => ⟨hspec.2 e he, ?_⟩⟩
  · obtain ⟨-, hb⟩ := hspec.1 a t ha
    refine hb.freeList_eq ?_
    cases hf : firstFree sb s.disk with
    | none =>
        rw [balloc, bind_ok (show Exec.gets _ s = .ok (s.disk, s) from rfl), hf] at ha
        cases ha
    | some c =>
        have hc : c < sb.size := List.mem_range.mp (List.mem_of_find?_eq_some hf)
        have hlt := sb.size_lt
        have hnat : (UInt32.ofNat c).toNat = c := UInt32.toNat_ofNat_of_lt' (by show c < 2 ^ 32; omega)
        rw [balloc, bind_ok (show Exec.gets _ s = .ok (s.disk, s) from rfl), hf] at ha
        obtain ⟨rfl, -⟩ := Prod.mk.inj (Except.ok.inj ha)
        rw [hnat]
  · cases hf : firstFree sb s.disk with
    | none => rwa [firstFree_eq, List.head?_eq_none_iff] at hf
    | some c =>
        rw [balloc, bind_ok (show Exec.gets _ s = .ok (s.disk, s) from rfl), hf] at he
        cases he

/-- The number of blocks that are allocated when a file of `m` blocks grows to `e` blocks. The
thirteenth block brings the indirect block with it. -/
def growth (m e : Nat) : Nat := (e - m) + if m ≤ ndirect ∧ ndirect < e then 1 else 0

theorem growth_of_le {e : Nat} (h : e ≤ m) : growth m e = 0 := by
  rw [growth, if_neg (by omega)]
  omega

theorem growth_succ {e : Nat} (h : m < e) : growth m e = growth m (m + 1) + growth (m + 1) e := by
  unfold growth
  split <;> split <;> split <;> omega

theorem growth_split {e : Nat} (hbn : bn ≤ m) (he : bn < e) :
    growth m e = growth m (bn + 1) + growth (max m (bn + 1)) e := by
  obtain hlt | rfl := hbn.lt_or_eq
  · rw [growth_of_le hlt, max_eq_left hlt, Nat.zero_add]
  · rw [max_eq_right (Nat.le_succ bn), growth_succ he]

/-- The computation takes the first `n` blocks that are not in use, or panics if there are not so many. -/
def Takes {α : Type} (sb : Layout) (n : Nat) (m : FsM α) (s : State) : Prop :=
  wp m (fun _ t => n ≤ (freeList sb s.disk).length ∧ freeList sb t.disk = (freeList sb s.disk).drop n)
    (fun e => e = .panic .ballocOutOfBlocks ∧ (freeList sb s.disk).length < n) s

theorem balloc_takes (ho : Owns sb s.disk N X) : Takes sb 1 (balloc sb) s := by
  refine (balloc_supply ho).mono (fun a t h => ?_) fun e ⟨he, h⟩ => ⟨he, ?_⟩
  · rw [h]
    simp
  · simp [h]

theorem bmapIndirect_takes (h : Cached sb N i s) :
    Takes sb (if (s.icache i).ind = 0 then 1 else 0) (bmapIndirect sb i) s := by
  simp only [Takes, bmapIndirect, inode, wp_bind, wp_gets]
  rw [wp_ite]
  refine ⟨fun h0 => ?_, fun h0 => ?_⟩
  · rw [if_pos (show (s.icache i).ind = 0 from h0)]
    exact (balloc_takes h.owns).bind fun a t ht => ht
  · rw [if_neg (show (s.icache i).ind ≠ 0 from h0)]
    simp

theorem bmap_takes (h : Cached sb N i s) (hf : Filled s.disk (s.icache i).toDinode m) (hbn : bn ≤ m)
    (hmax : bn < maxfile) : Takes sb (growth m (bn + 1)) (bmap sb i bn) s := by
  obtain hlt | rfl := hbn.lt_or_eq
  · rw [growth_of_le hlt]
    refine (bmap_old hf hlt).mono ?_ fun _ => False.elim
    rintro a t ⟨_, ht⟩
    rw [ht]
    simp
  · have hzero := (hf.block bn).not.mpr (lt_irrefl bn)
    by_cases hd : bn < ndirect
    · have h0 : (s.icache i).addrs (Fin.castSucc ⟨bn, hd⟩) = 0 := by
        rw [fileBlock_some (slotOf_direct hd), ptr, Ne, Decidable.not_not] at hzero
        rwa [← UInt32.toNat_inj, UInt32.toNat_zero]
      rw [show growth bn (bn + 1) = 1 by rw [growth, if_neg (by omega)]; omega]
      simp only [Takes, bmap, inode, wp_bind, wp_gets, dif_pos hd]
      rw [if_pos h0]
      exact (balloc_takes h.owns).bind fun a t ht => ht
    · have he : bn - ndirect < nindirect := by
        have hmf : maxfile = ndirect + nindirect := rfl
        omega
      have hgrow : growth bn (bn + 1) = (if (s.icache i).ind = 0 then 1 else 0) + 1 := by
        have hind := hf.ind
        unfold growth
        by_cases h0 : (s.icache i).ind = 0
        · rw [if_pos h0, if_pos]
          · omega
          · have := hind.not.mp (not_not.mpr h0)
            omega
        · rw [if_neg h0, if_neg]
          · omega
          · have := hind.mp h0
            omega
      rw [hgrow]
      simp only [Takes, bmap, inode, wp_bind, wp_gets, dif_neg hd, if_pos he]
      refine ((bmapIndirect_spec h).conj (bmapIndirect_takes h)).mono ?_
        (by rintro e ⟨_, he, hlt⟩; exact ⟨he, by omega⟩)
      rintro a t ⟨⟨x, hx⟩, hle, ht⟩
      have hnz : x.ind ≠ 0 := hx.ind ▸ hx.pos
      have h0 : getAddr (t.disk a.toNat) (bn - ndirect) = 0 := by
        rw [← hx.same bn, fileBlock_some (slotOf_entry hd he), ptr, if_neg hnz, Ne, Decidable.not_not,
          hx.ind] at hzero
        rwa [← UInt32.toNat_inj, UInt32.toNat_zero]
      simp only [bread, wp_bind, wp_gets]
      rw [if_pos h0]
      refine wp_bind.mpr ((balloc_takes hx.owns).mono ?_ ?_)
      · rintro b u ⟨hle', hu⟩
        rw [ht, List.length_drop] at hle'
        have hlo := (hx.ind_used h).1
        rw [hx.ind] at hlo
        simp only [logWrite, wp_bind, wp_update, wp_pure]
        refine ⟨by omega, ?_⟩
        rw [freeList_congr fun c hc => inUse_of_data sb u.disk _ hc hlo, hu, ht, List.drop_drop]
      · rintro e ⟨he, hlt⟩
        refine ⟨he, ?_⟩
        rw [ht, List.length_drop] at hlt
        omega

theorem writeChunks_takes (src : Nat → UInt8) (base tot n fuel : Nat) (hc : Cached sb N i s)
    (hf : Filled s.disk (s.icache i).toDinode m) (hle : base + tot ≤ m * bsize) (htot : tot ≤ n)
    (hfuel : n - tot ≤ fuel) (hmax : base + n ≤ maxfile * bsize) :
    Takes sb (growth m (blocks (base + n))) (writeChunks sb i src fuel tot (base + tot) n) s := by
  induction fuel generalizing tot m N s with
  | zero =>
      obtain rfl : tot = n := by omega
      rw [growth_of_le (blocks_le_iff.mpr hle)]
      simp [Takes, writeChunks]
  | succ fuel ih =>
      rw [Takes, writeChunks, wp_ite]
      refine ⟨fun hlt => ?_, fun hge => ?_⟩
      · have hmod : (base + tot) % bsize < bsize := Nat.mod_lt _ (by decide)
        have hbn : (base + tot) / bsize ≤ m := Nat.div_le_of_le_mul (by rwa [Nat.mul_comm])
        have hbm : (base + tot) / bsize < maxfile := Nat.div_lt_of_lt_mul (by rw [Nat.mul_comm]; omega)
        set c := min (n - tot) (bsize - (base + tot) % bsize) with hcdef
        have hblocks : blocks (base + (tot + c)) = (base + tot) / bsize + 1 := by
          have hb : bsize = 512 := rfl
          rw [hb] at hcdef hmod ⊢
          show (base + (tot + c) + 511) / 512 = _
          omega
        have hend : (base + tot) / bsize < blocks (base + n) := lt_blocks_iff.mpr (by
          have := Nat.div_mul_le_self (base + tot) bsize
          omega)
        have htakes := bmap_takes hc hf hbn hbm
        rw [← hblocks] at htakes
        rw [growth_split hbn hend, ← hblocks, wp_bind]
        refine ((bmap_spec hc hf hbn).conj htakes).mono ?_ ?_
        · rintro a t ⟨⟨x, hx⟩, hle₁, ht⟩
          simp only [bread, logWrite, wp_bind, wp_gets, wp_update]
          have hw := hx.wrote (fun p => src (p - base)) c hc hf hle (by omega) (by omega)
          have hfree : freeList sb (Function.update t.disk a.toNat (putBytes (t.disk a.toNat) ((base + tot) % bsize)
              ((List.range c).map fun k => src (base + tot + k - base)))) = freeList sb t.disk :=
            freeList_congr fun b hb => inUse_of_data sb t.disk _ hb (hx.used hc).1
          rw [Nat.add_assoc base tot c] at hw
          rw [src_add base, Nat.add_assoc base tot c]
          refine (ih _ (hw.cached hc) hw.next.1 hw.next.2 (by omega) (by omega)).mono ?_ ?_
          · rintro r u ⟨hle₂, hu⟩
            rw [hfree, ht, List.drop_drop] at hu
            rw [hfree, ht, List.length_drop] at hle₂
            exact ⟨by omega, hu⟩
          · rintro e ⟨he, hlt⟩
            refine ⟨he, ?_⟩
            rw [hfree, ht, List.length_drop] at hlt
            omega
        · rintro e ⟨_, he, hlt⟩
          refine ⟨he, ?_⟩
          omega
      · obtain rfl : tot = n := by omega
        rw [growth_of_le (blocks_le_iff.mpr hle)]
        simp

theorem writei_takes [Devsw] {src : Nat → UInt8} {off n : UInt32} (h : Consistent sb s) (hr : 0 < (s.icache i).ref)
    (hv : (s.icache i).valid = true) (hdev : (s.icache i).type ≠ tDev) (hoff : off ≤ (s.icache i).size)
    (hmax : off.toNat + n.toNat ≤ maxfile * bsize) :
    Takes sb (growth (blocks (s.icache i).size.toNat) (blocks (off.toNat + n.toNat)))
      (writei sb i src off n) s := by
  have hmaxb := maxfile_bsize
  have hwrap : ¬ off + n < off := by
    rw [UInt32.lt_iff_toNat_lt, UInt32.toNat_add, Nat.mod_eq_of_lt (by omega)]
    omega
  have hle : off.toNat ≤ (s.icache i).size.toNat := hoff
  simp only [Takes, writei, inode, wp_bind, wp_gets]
  rw [if_neg hdev, if_neg (not_or.mpr ⟨UInt32.not_lt.mpr hoff, hwrap⟩),
    if_neg (by rw [toNat_add_of_not_lt hwrap]; omega), wp_bind]
  refine ((writeChunks_spec src off.toNat 0 n.toNat n.toNat (h.cached hr hv) (h.filled_cached hr hv)
    (hle.trans (blocks_le_iff.mp le_rfl)) (Nat.zero_le _) le_rfl).conj
      (writeChunks_takes src off.toNat 0 n.toNat n.toNat (h.cached hr hv) (h.filled_cached hr hv)
    (hle.trans (blocks_le_iff.mp le_rfl)) (Nat.zero_le _) le_rfl hmax)).mono
      (fun r t ⟨⟨hr', x, hx⟩, hfree⟩ => ?_) fun e ⟨_, he⟩ => he
  simp only [wp_bind, wp_gets]
  rw [wp_ite]
  refine ⟨fun _ => ?_, fun _ => hfree⟩
  have hinum : (t.icache i).inum < sb.ninodes := by
    rw [hx.icache, Function.update_self]
    exact h.cache.inum_lt i hr
  simp only [setInode, iupdate, inode, bread, logWrite, wp_bind, wp_gets, wp_update, wp_pure, Function.update_self]
  rw [freeList_congr fun c _ => inUse_of_inode sb _ _ hinum c]
  exact hfree

end Xv6.Fs
