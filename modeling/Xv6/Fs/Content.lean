import Xv6.Fs.Bmap

namespace Xv6.Fs

open Lib Lib.Bytes Lib.Ownership
open Lib.Exec hiding update
open Function (update update_eq_self update_idem update_of_ne update_self)

variable {sb : Layout} {d d' : Disk} {N : Nat → Dinode} {X : Set Nat} {s t u : State} {i : Fin ninode}
  {x y : Dinode} {sl : Slot} {j b k m bn off e e' : Nat} {data : Nat → UInt8}

def blocks (n : Nat) : Nat := (n + (bsize - 1)) / bsize

theorem blocks_le_iff : blocks e ≤ m ↔ e ≤ m * bsize := by
  show (e + 511) / 512 ≤ m ↔ e ≤ m * 512
  omega

theorem lt_blocks_iff : k < blocks e ↔ k * bsize < e := by
  rw [← not_le, blocks_le_iff, not_le]

def fileByte (d : Disk) (x : Dinode) (p : Nat) : UInt8 := byteAt (d (fileBlock d x (p / bsize))) (p % bsize)

def SameFile (d d' : Disk) (x : Dinode) : Prop := ∀ sl, ptr d x sl ≠ 0 → d' (ptr d x sl) = d (ptr d x sl)

theorem SameFile.ptr_eq (h : SameFile d d' x) (sl : Slot) : ptr d' x sl = ptr d x sl :=
  ptr_congr (fun h0 => h .indirect (toNat_ne_zero.mpr h0)) sl

theorem SameFile.fileBlock_eq (h : SameFile d d' x) (k : Nat) : fileBlock d' x k = fileBlock d x k :=
  fileBlock_congr (fun sl _ => h.ptr_eq sl) k

theorem SameFile.trans {d'' : Disk} (h : SameFile d d' x) (h' : SameFile d' d'' x) : SameFile d d'' x := by
  intro sl h0
  have := h' sl (by rwa [h.ptr_eq])
  rw [h.ptr_eq] at this
  rw [this, h sl h0]

theorem SameFile.fileByte_eq (h : SameFile d d' x) {p : Nat} (hp : fileBlock d x (p / bsize) ≠ 0) :
    fileByte d' x p = fileByte d x p := by
  rw [fileByte, fileByte, h.fileBlock_eq]
  cases hs : slotOf (p / bsize) with
  | none => simp [fileBlock, hs] at hp
  | some sl =>
      rw [fileBlock_some hs] at hp ⊢
      rw [h sl hp]

theorem SameFile.filled (h : SameFile d d' x) (hf : Filled d x m) : Filled d' x m :=
  ⟨fun k => by rw [h.fileBlock_eq, hf.block], hf.ind⟩

theorem Filled.fileBlock_ne (h : Filled d x m) {p : Nat} (hp : p < m * bsize) : fileBlock d x (p / bsize) ≠ 0 :=
  (h.block _).mpr (Nat.div_lt_of_lt_mul (by rwa [Nat.mul_comm]))

theorem exists_slot (hj : j < sb.ninodes) (ht : (N j).type ≠ 0) (hk : fileBlock d (N j) k ≠ 0) :
    ∃ sl, slotOf k = some sl ∧ sl ≠ .indirect ∧ table sb d N (j, sl) = fileBlock d (N j) k := by
  cases hs : slotOf k with
  | none => simp [fileBlock, hs] at hk
  | some sl =>
      refine ⟨sl, rfl, ?_, ?_⟩
      · rintro rfl
        exact slotOf_ne_indirect hs
      · rw [table_live hj ht, fileBlock_some hs]

theorem Owned.fileBlock_ne_ind (ho : Owns sb d N X) (hj : j < sb.ninodes) (ht : (N j).type ≠ 0)
    (hb : fileBlock d (N j) bn ≠ 0) (hk : k < sb.ninodes) (htk : (N k).type ≠ 0) :
    (N k).ind.toNat ≠ fileBlock d (N j) bn := by
  obtain ⟨sl, -, hsl, htab⟩ := exists_slot hj ht hb
  intro e
  have := ho.inj (j, sl) (k, .indirect) (by rwa [htab]) (by rw [htab, table_live hk htk]; exact e.symm)
  exact hsl (congrArg Prod.snd this)

theorem Owned.fileBlock_inj (ho : Owns sb d N X) (hj : j < sb.ninodes) (ht : (N j).type ≠ 0)
    (k k' : Nat) (hb : fileBlock d (N j) k ≠ 0) (h : fileBlock d (N j) k = fileBlock d (N j) k') : k = k' := by
  obtain ⟨sl, hs, -, htab⟩ := exists_slot hj ht hb
  obtain ⟨sl', hs', -, htab'⟩ := exists_slot hj ht (h ▸ hb)
  have := ho.inj (j, sl) (j, sl') (by rwa [htab]) (by rw [htab, htab', h])
  have hsl : sl = sl' := congrArg Prod.snd this
  exact slotOf_inj hs (hsl ▸ hs')

theorem Owned.ptr_ne_fileBlock (ho : Owns sb d N X) (hj : j < sb.ninodes) (ht : (N j).type ≠ 0)
    (hb : fileBlock d (N j) bn ≠ 0) (hk : k < sb.ninodes) (htk : (N k).type ≠ 0) (hne : k ≠ j) (sl : Slot) :
    ptr d (N k) sl ≠ fileBlock d (N j) bn := by
  obtain ⟨sl', -, -, htab⟩ := exists_slot hj ht hb
  intro e
  have := ho.inj (j, sl') (k, sl) (by rwa [htab]) (by rw [htab, table_live hk htk, e])
  exact hne (congrArg Prod.fst this).symm

theorem Owned.ptr_used (ho : Owns sb d N X) (hj : j < sb.ninodes) (ht : (N j).type ≠ 0) (h0 : ptr d (N j) sl ≠ 0) :
    sb.nmeta ≤ ptr d (N j) sl ∧ ptr d (N j) sl < sb.size ∧ inUse sb d (ptr d (N j) sl) = true := by
  rw [← table_live hj ht] at h0 ⊢
  exact ⟨(ho.range _ h0).1, (ho.range _ h0).2, ho.used_of_ne h0⟩

theorem Owned.write_data (ho : Owns sb d N X) (hj : j < sb.ninodes) (ht : (N j).type ≠ 0)
    (hb : fileBlock d (N j) bn ≠ 0) (v : Block) : Owns sb (update d (fileBlock d (N j) bn) v) N X := by
  obtain ⟨sl, -, -, htab⟩ := exists_slot hj ht hb
  have hlo : sb.nmeta ≤ fileBlock d (N j) bn := htab ▸ (ho.range _ (by rwa [htab])).1
  have htable : table sb (update d (fileBlock d (N j) bn) v) N = table sb d N :=
    table_congr fun k hk htk _ => update_of_ne (Owned.fileBlock_ne_ind ho hj ht hb hk htk) ..
  rw [Owns, htable]
  exact Ownership.Owned.of_used ho fun c hc => inUse_of_data sb d v hc hlo

theorem div_mod_chunk {c : Nat} (hk : k < c) (hc : off % bsize + c ≤ bsize) :
    (off + k) / bsize = off / bsize ∧ (off + k) % bsize = off % bsize + k := by
  have hc' : off % 512 + c ≤ 512 := hc
  show (off + k) / 512 = off / 512 ∧ (off + k) % 512 = off % 512 + k
  omega

theorem getBytes_fileBlock {c : Nat} (hc : off % bsize + c ≤ bsize) :
    getBytes (d (fileBlock d x (off / bsize))) (off % bsize) c =
      (List.range c).map fun k => fileByte d x (off + k) := by
  refine List.map_congr_left fun k hk => ?_
  obtain ⟨hd, hm⟩ := div_mod_chunk (List.mem_range.mp hk) hc
  rw [fileByte, hd, hm]

theorem readChunks_spec (hf : Filled s.disk (s.icache i).toDinode m) {fuel n : Nat} (hn : n ≤ fuel)
    (hm : off + n ≤ m * bsize) :
    wp (readChunks sb i fuel off n)
      (fun bs t => bs = (List.range n).map (fun k => fileByte s.disk (s.icache i).toDinode (off + k)) ∧ t = s)
      (fun _ => False) s := by
  induction fuel generalizing off n with
  | zero =>
      obtain rfl : n = 0 := by omega
      simp [readChunks]
  | succ fuel ih =>
      rw [readChunks, wp_ite]
      refine ⟨fun h0 => by simp [h0], fun h0 => ?_⟩
      have hbn : off / bsize < m := Nat.div_lt_of_lt_mul (by rw [Nat.mul_comm]; omega)
      have hmod : off % bsize < bsize := Nat.mod_lt _ (by decide)
      set c := min n (bsize - off % bsize) with hc
      rw [wp_bind]
      refine (bmap_old hf hbn).imp ?_
      rintro a t ⟨ha, ht⟩
      subst ht
      simp only [bread, wp_bind, wp_gets]
      refine (ih (by omega) (by omega)).imp ?_
      rintro bs t ⟨hbs, ht⟩
      subst ht
      rw [wp_pure]
      refine ⟨?_, rfl⟩
      have hsum : n = c + (n - c) := by omega
      conv_rhs => rw [hsum, List.range_add]
      rw [ha, hbs, getBytes_fileBlock (by omega), List.map_append, List.map_map]
      simp [Function.comp_def, Nat.add_assoc]

theorem Mapped.others {a : UInt32} (h : Mapped sb N i m bn s t a x) (hc : Cached sb N i s) (hj : j < sb.ninodes)
    (hne : j ≠ (s.icache i).inum) (ht : (N j).type ≠ 0) : SameFile s.disk t.disk (N j) := by
  intro sl h0
  obtain ⟨hlo, hhi, hu⟩ := Owned.ptr_used hc.owns hj ht h0
  refine (h.keep _ hlo hhi hu fun e => ?_).1
  have := hc.owns.inj (j, sl) ((s.icache i).inum, .indirect) (by rwa [table_live hj ht])
    (by rw [table_live hj ht, table_live hc.inum_lt (by rw [hc.node]; exact hc.type), hc.node]; exact e)
  exact hne (congrArg Prod.fst this)

theorem Mapped.block_eq {a : UInt32} (h : Mapped sb N i m bn s t a x) (hc : Cached sb N i s)
    (hf : Filled s.disk (s.icache i).toDinode m) (hk : k < m) :
    t.disk (fileBlock s.disk (s.icache i).toDinode k) = s.disk (fileBlock s.disk (s.icache i).toDinode k) := by
  have h0 := (hf.block k).mpr hk
  have ht : (N (s.icache i).inum).type ≠ 0 := by rw [hc.node]; exact hc.type
  rw [← hc.node] at h0 ⊢
  obtain ⟨sl, -, -, htab⟩ := exists_slot hc.inum_lt ht h0
  have hr := hc.owns.range _ (by rwa [htab])
  have hu := hc.owns.used_of_ne (by rwa [htab])
  rw [htab] at hr hu
  refine (h.keep _ hr.1 hr.2 hu ?_).1
  have := Owned.fileBlock_ne_ind hc.owns hc.inum_lt ht h0 hc.inum_lt ht
  rw [hc.node] at this ⊢
  exact this.symm

theorem Mapped.used {a : UInt32} (h : Mapped sb N i m bn s t a x) (hc : Cached sb N i s) :
    sb.nmeta ≤ a.toNat ∧ a.toNat < sb.size ∧ inUse sb t.disk a.toNat = true := by
  have hN : update N (s.icache i).inum x (s.icache i).inum = x := update_self ..
  have hb0 : fileBlock t.disk x bn ≠ 0 := (h.filled.block _).mpr (by omega)
  obtain ⟨sl, -, -, htab⟩ := exists_slot (N := update N (s.icache i).inum x) hc.inum_lt
    (by rw [hN]; exact h.rest ▸ hc.type) (by rwa [hN])
  rw [hN, h.block] at htab
  rw [h.block] at hb0
  rw [← htab] at hb0 ⊢
  exact ⟨(h.owns.range _ hb0).1, (h.owns.range _ hb0).2, h.owns.used_of_ne hb0⟩

/-- Bytes `off` to `e` of a file of `m` blocks have been written; `x` is the inode that this leaves. -/
structure Wrote (sb : Layout) (N : Nat → Dinode) (i : Fin ninode) (m off e : Nat) (data : Nat → UInt8) (s t : State)
    (x : Dinode) : Prop where
  icache : t.icache = update s.icache i { s.icache i with toDinode := x }
  rest : x = { (s.icache i).toDinode with addrs := x.addrs }
  owns : Owns sb t.disk (update N (s.icache i).inum x) ∅
  filled : Filled t.disk x (max m (blocks e))
  bytes : ∀ p, p < m * bsize ∨ p < e → fileByte t.disk x p =
    if off ≤ p ∧ p < e then data p else fileByte s.disk (s.icache i).toDinode p
  zero : ∀ p, m * bsize ≤ p → e ≤ p → p < blocks e * bsize → fileByte t.disk x p = 0
  others : ∀ j, j < sb.ninodes → j ≠ (s.icache i).inum → (N j).type ≠ 0 → SameFile s.disk t.disk (N j)
  nodes : ∀ j, j < sb.ninodes → dinode sb t.disk j = dinode sb s.disk j
  quiet : blocks e ≤ m → x = (s.icache i).toDinode

theorem Wrote.refl (hc : Cached sb N i s) (hf : Filled s.disk (s.icache i).toDinode m) (hoff : off ≤ m * bsize) :
    Wrote sb N i m off off data s s (s.icache i).toDinode where
  icache := (update_eq_self i s.icache).symm
  rest := rfl
  owns := by rw [← hc.node, update_eq_self]; exact hc.owns
  filled := by rwa [max_eq_left (blocks_le_iff.mpr hoff)]
  bytes p _ := by rw [if_neg (by omega)]
  zero p hm _ hp := absurd (hp.trans_le (Nat.mul_le_mul_right _ (blocks_le_iff.mpr hoff))) (not_lt.mpr hm)
  others _ _ _ _ _ _ := rfl
  nodes _ _ := rfl
  quiet _ := rfl

theorem Wrote.cached (h : Wrote sb N i m off e data s t x) (hc : Cached sb N i s) :
    Cached sb (update N (s.icache i).inum x) i t where
  inum_lt := by simpa [h.icache] using hc.inum_lt
  node := by simp [h.icache]
  type := by rw [h.icache]; simpa using h.rest ▸ hc.type
  owns := h.owns

theorem Wrote.next (h : Wrote sb N i m off e data s t x) :
    Filled t.disk (t.icache i).toDinode (max m (blocks e)) ∧ e ≤ max m (blocks e) * bsize := by
  rw [h.icache, update_self]
  exact ⟨h.filled, (blocks_le_iff.mp le_rfl).trans (Nat.mul_le_mul_right _ (le_max_right ..))⟩

theorem src_add {src : Nat → UInt8} {tot} (base : Nat) :
    (fun k => src (tot + k)) = fun k => src (base + tot + k - base) := by
  funext k
  rw [Nat.add_assoc, Nat.add_sub_cancel_left]

theorem Wrote.trans (h : Wrote sb N i m off e data s t x) (hle : off ≤ e) (hle' : e ≤ e')
    (h' : Wrote sb (update N (s.icache i).inum x) i (max m (blocks e)) e e' data t u y) :
    Wrote sb N i m off e' data s u y := by
  have hx : t.icache i = { s.icache i with toDinode := x } := by rw [h.icache, update_self]
  have hmono : blocks e ≤ blocks e' := blocks_le_iff.mpr (hle'.trans (blocks_le_iff.mp le_rfl))
  refine ⟨?_, ?_, ?_, ?_, fun p hp => ?_, fun p hm he hp => ?_, fun j hj hne ht => ?_, fun j hj => ?_, fun hq => ?_⟩
  · rw [h'.icache, hx, h.icache, update_idem]
  · have hy := h'.rest
    rw [hx] at hy
    exact hy.trans (congrArg (fun z : Dinode => { z with addrs := y.addrs }) h.rest)
  · have := h'.owns
    rwa [hx, update_idem] at this
  · rw [show max m (blocks e') = max (max m (blocks e)) (blocks e') by omega]
    exact h'.filled
  · have hmax : m * bsize ≤ max m (blocks e) * bsize := Nat.mul_le_mul_right _ (le_max_left ..)
    rw [h'.bytes p (hp.imp_left fun h => h.trans_le hmax), hx]
    by_cases he : e ≤ p ∧ p < e'
    · rw [if_pos he, if_pos (by omega)]
    · rw [if_neg he, h.bytes p (hp.imp_right fun h => by omega)]
      simp only [show (off ≤ p ∧ p < e) ↔ (off ≤ p ∧ p < e') by omega]
  · by_cases hold : max m (blocks e) * bsize ≤ p
    · exact h'.zero p hold he hp
    · rw [not_le] at hold
      rw [h'.bytes p (.inl hold), if_neg (by omega), hx]
      refine h.zero p hm (hle'.trans he) ?_
      rcases le_total m (blocks e) with hmb | hmb
      · rwa [max_eq_right hmb] at hold
      · rw [max_eq_left hmb] at hold
        exact absurd hold (not_lt.mpr hm)
  · have hN : update N (s.icache i).inum x j = N j := update_of_ne hne ..
    have := h'.others j hj (by rwa [hx]) (by rwa [hN])
    rw [hN] at this
    exact (h.others j hj hne ht).trans this
  · rw [h'.nodes j hj, h.nodes j hj]
  · have hxs := h.quiet (by omega)
    rw [h'.quiet (by omega), hx, hxs]

theorem byteAt_chunk (b : Block) (f : Nat → UInt8) {c p : Nat} (hp : p / bsize = off / bsize) :
    byteAt (putBytes b (off % bsize) ((List.range c).map fun k => f (off + k))) (p % bsize) =
      if off ≤ p ∧ p < off + c then f p else byteAt b (p % bsize) := by
  have hp' : p / 512 = off / 512 := hp
  have hiff : (off % bsize ≤ p % bsize ∧ p % bsize < off % bsize + c) ↔ (off ≤ p ∧ p < off + c) := by
    show (off % 512 ≤ p % 512 ∧ p % 512 < off % 512 + c) ↔ _
    omega
  rw [byteAt_putBytes _ _ _ _ (Nat.mod_lt _ (by decide)), List.length_map, List.length_range]
  by_cases h : off ≤ p ∧ p < off + c
  · have hk : p % bsize - off % bsize = p - off := by
      show p % 512 - off % 512 = p - off
      omega
    rw [if_pos (hiff.mpr h), if_pos h, hk, List.getD_eq_getElem?_getD, List.getElem?_map,
      List.getElem?_range (by omega)]
    simp [Nat.add_sub_cancel' h.1]
  · rw [if_neg (hiff.not.mpr h), if_neg h]

theorem Mapped.wrote {a : UInt32} (data : Nat → UInt8) (c : Nat) (h : Mapped sb N i m (off / bsize) s t a x)
    (hc : Cached sb N i s)
    (hf : Filled s.disk (s.icache i).toDinode m) (hle : off ≤ m * bsize) (h0 : 0 < c)
    (hcb : off % bsize + c ≤ bsize) :
    Wrote sb N i m off (off + c) data s
      { t with disk := update t.disk a.toNat (putBytes (t.disk a.toNat) (off % bsize)
          ((List.range c).map fun k => data (off + k))) } x := by
  have hN : update N (s.icache i).inum x (s.icache i).inum = x := update_self ..
  have ht : x.type ≠ 0 := h.rest ▸ hc.type
  have hb0 : fileBlock t.disk x (off / bsize) ≠ 0 := (h.filled.block _).mpr (by omega)
  have hblocks : blocks (off + c) = off / bsize + 1 := by
    have hcb' : off % 512 + c ≤ 512 := hcb
    show (off + c + 511) / 512 = off / 512 + 1
    omega
  set v := putBytes (t.disk a.toNat) (off % bsize) ((List.range c).map fun k => data (off + k)) with hv
  have hN' : (update N (s.icache i).inum x (s.icache i).inum).type ≠ 0 := by rwa [hN]
  have hown := Owned.write_data h.owns hc.inum_lt hN' (by rwa [hN]) v
  rw [hN, h.block] at hown
  have hind : x.ind.toNat ≠ a.toNat := by
    have := Owned.fileBlock_ne_ind h.owns hc.inum_lt hN' (by rwa [hN]) hc.inum_lt hN'
    rwa [hN, h.block] at this
  have hfb (k) : fileBlock (update t.disk a.toNat v) x k = fileBlock t.disk x k :=
    fileBlock_congr (fun sl _ => ptr_congr (fun _ => update_of_ne hind ..) sl) k
  have hlo := (h.used hc).1
  refine ⟨h.icache, h.rest, hown, ?_, fun p hp => ?_, fun p hm he hp => ?_, fun j hj hne htj => ?_, fun j hj => ?_,
    fun hq => ?_⟩
  · rw [hblocks]
    exact ⟨fun k => by rw [hfb, h.filled.block], h.filled.ind⟩
  · show byteAt (update t.disk a.toNat v (fileBlock (update t.disk a.toNat v) x (p / bsize)))
      _ = _
    rw [hfb]
    by_cases hbn : p / bsize = off / bsize
    · rw [hbn, h.block, update_self, hv, byteAt_chunk _ _ hbn]
      split
      · rfl
      next hout =>
        have hlt : p / bsize < m := Nat.div_lt_of_lt_mul (by rw [Nat.mul_comm]; omega)
        rw [← h.block, ← hbn, h.same _ hlt, h.quiet (hbn ▸ hlt), fileByte]
    · have hout : ¬ (off ≤ p ∧ p < off + c) := fun hin => hbn (by
        have := (div_mod_chunk (k := p - off) (by omega) hcb).1
        rwa [Nat.add_sub_cancel' hin.1] at this)
      have hlt : p / bsize < m := Nat.div_lt_of_lt_mul (by rw [Nat.mul_comm]; omega)
      have hne : fileBlock t.disk x (p / bsize) ≠ a.toNat := fun e => by
        have := Owned.fileBlock_inj h.owns hc.inum_lt hN' (p / bsize) (off / bsize)
        rw [hN, h.block] at this
        exact hbn (this ((h.filled.block _).mpr (by omega)) e)
      rw [update_of_ne hne, if_neg hout, h.same _ hlt, h.block_eq hc hf hlt, fileByte]
  · show byteAt (update t.disk a.toNat v (fileBlock (update t.disk a.toNat v) x (p / bsize)))
      _ = _
    have hmp : m ≤ p / bsize := (Nat.le_div_iff_mul_le (by decide)).mpr hm
    have hpb : p / bsize < off / bsize + 1 := hblocks ▸ Nat.div_lt_of_lt_mul (by rwa [Nat.mul_comm])
    have hmo : off / bsize ≤ m := Nat.div_le_of_le_mul (by rwa [Nat.mul_comm])
    have hbn : p / bsize = off / bsize := by omega
    rw [hfb, hbn, h.block, update_self, hv, byteAt_chunk _ _ hbn, if_neg (by omega), h.zero (by omega)]
    unfold byteAt
    split <;> rfl
  · refine (h.others hc hj hne htj).trans fun sl hsl => update_of_ne ?_ ..
    have := Owned.ptr_ne_fileBlock h.owns hc.inum_lt hN' (by rwa [hN]) hj
      (by rwa [update_of_ne hne]) hne sl
    rwa [hN, h.block, update_of_ne hne] at this
  · rw [dinode_of_data sb _ _ hj hlo, h.nodes j hj]
  · have hic := h.icache
    rw [h.quiet (by omega)] at hic
    exact (congrArg Inode.toDinode ((congrFun hic i).trans (update_self ..))).symm

theorem writeChunks_spec (src : Nat → UInt8) (base tot n fuel : Nat) (hc : Cached sb N i s)
    (hf : Filled s.disk (s.icache i).toDinode m) (hle : base + tot ≤ m * bsize) (htot : tot ≤ n)
    (hfuel : n - tot ≤ fuel) :
    wp (writeChunks sb i src fuel tot (base + tot) n)
      (fun r t => r = base + n ∧ ∃ x, Wrote sb N i m (base + tot) (base + n) (fun p => src (p - base)) s t x)
      BmapPanic s := by
  induction fuel generalizing tot m N s with
  | zero =>
      obtain rfl : tot = n := by omega
      exact ⟨rfl, _, Wrote.refl hc hf hle⟩
  | succ fuel ih =>
      rw [writeChunks, wp_ite]
      refine ⟨fun hlt => ?_, fun hge => ?_⟩
      · have hmod : (base + tot) % bsize < bsize := Nat.mod_lt _ (by decide)
        have hbn : (base + tot) / bsize ≤ m := Nat.div_le_of_le_mul (by rwa [Nat.mul_comm])
        set c := min (n - tot) (bsize - (base + tot) % bsize) with hcdef
        rw [wp_bind]
        refine (bmap_spec hc hf hbn).imp ?_
        rintro a t ⟨x, hx⟩
        simp only [bread, logWrite, wp_bind, wp_gets, wp_update]
        have hw := hx.wrote (fun p => src (p - base)) c hc hf hle (by omega) (by omega)
        rw [Nat.add_assoc base tot c] at hw
        rw [src_add base, Nat.add_assoc base tot c]
        refine (ih _ (hw.cached hc) hw.next.1 hw.next.2 (by omega) (by omega)).imp ?_
        rintro r u ⟨hr, y, hy⟩
        exact ⟨hr, y, hw.trans (by omega) (by omega) hy⟩
      · obtain rfl : tot = n := by omega
        exact ⟨rfl, _, Wrote.refl hc hf hle⟩

end Xv6.Fs
