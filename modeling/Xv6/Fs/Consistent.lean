import Xv6.Fs.Content

namespace Xv6.Fs

open Lib Lib.Bytes Lib.Ownership
open Lib.Exec hiding update
open Function (update update_apply update_idem update_of_ne update_self)

variable {sb : Layout} {d d' : Disk} {N N' : Nat → Dinode} {X : Set Nat} {s t : State} {i : Fin ninode}
  {x y : Dinode} {c : ICache} {j k m : Nat}

/-- The cache has at most one entry for an inode; an entry that `ilock` has read is of an inode that
is in use. -/
structure CacheOk (sb : Layout) (c : ICache) : Prop where
  dev : ∀ i, 0 < (c i).ref → (c i).dev = rootdev
  inum_lt : ∀ i, 0 < (c i).ref → (c i).inum < sb.ninodes
  unique : ∀ i j, 0 < (c i).ref → 0 < (c j).ref → (c i).inum = (c j).inum → i = j
  live : ∀ i, 0 < (c i).ref → (c i).valid = true → (c i).type ≠ 0

/-- Every block in use is a metadata block or belongs to one place of one inode, every file has
the blocks that its size needs and no others, and the cache agrees with the disk. -/
structure Consistent (sb : Layout) (s : State) : Prop where
  owns : Owns sb s.disk (dinode sb s.disk) ∅
  filled : ∀ j, j < sb.ninodes → (dinode sb s.disk j).type ≠ 0 →
    Filled s.disk (dinode sb s.disk j) (blocks (dinode sb s.disk j).size.toNat)
  agree : ∀ i, 0 < (s.icache i).ref → (s.icache i).valid = true →
    (s.icache i).toDinode = dinode sb s.disk (s.icache i).inum
  cache : CacheOk sb s.icache

def putNode (sb : Layout) (d : Disk) (j : Nat) (x : Dinode) : Disk :=
  update d (sb.iblock j) (putDinode (d (sb.iblock j)) j x)

theorem dinode_putNode (k : Nat) : dinode sb (putNode sb d j x) k = if k = j then x else dinode sb d k :=
  dinode_putDinode sb d j k x

theorem putNode_data (hj : j < sb.ninodes) {c : Nat} (hc : sb.nmeta ≤ c) : putNode sb d j x c = d c := by
  have := iblock_lt_nmeta sb hj
  exact update_of_ne (by omega) ..

theorem table_congr_nodes (h : ∀ k, k < sb.ninodes → N' k = N k) : table sb d N' = table sb d N := by
  funext ⟨k, sl⟩
  by_cases hk : k < sb.ninodes
  · simp [table, h k hk]
  · simp [table, hk]

theorem Owned.putNode (ho : Owns sb d N X) (hj : j < sb.ninodes) : Owns sb (putNode sb d j x) N X := by
  have htab : table sb (Fs.putNode sb d j x) N = table sb d N :=
    table_congr fun k hk ht h0 => putNode_data hj (Owned.ind_used ho hk ht h0).1
  rw [Owns, htab]
  exact Ownership.Owned.of_used ho fun c _ => inUse_of_inode sb d _ hj c

theorem Owned.sameFile_putNode (ho : Owns sb d N X) (hj : j < sb.ninodes) (hk : k < sb.ninodes)
    (ht : (N k).type ≠ 0) : SameFile d (Fs.putNode sb d j x) (N k) := fun _ h0 =>
  putNode_data hj (Owned.ptr_used ho hk ht h0).1

theorem ptr_of_addrs (h : y.addrs = x.addrs) (sl : Slot) : ptr d y sl = ptr d x sl := by
  have hi : y.ind = x.ind := by rw [Dinode.ind, Dinode.ind, h]
  cases sl with
  | direct k => rw [ptr, ptr, h]
  | indirect => rw [ptr, ptr, hi]
  | entry k => rw [ptr, ptr, hi]

theorem fileBlock_of_addrs (h : y.addrs = x.addrs) (k : Nat) : fileBlock d y k = fileBlock d x k :=
  fileBlock_congr (fun sl _ => ptr_of_addrs h sl) k

theorem fileByte_of_addrs (h : y.addrs = x.addrs) (p : Nat) : fileByte d y p = fileByte d x p := by
  rw [fileByte, fileByte, fileBlock_of_addrs h]

theorem Filled.of_addrs (hf : Filled d x m) (h : y.addrs = x.addrs) : Filled d y m :=
  ⟨fun k => by rw [fileBlock_of_addrs h, hf.block], by rw [Dinode.ind, h]; exact hf.ind⟩

theorem Owned.of_addrs (ho : Owns sb d (update N j x) X) (ha : y.addrs = x.addrs)
    (ht : y.type = 0 ↔ x.type = 0) : Owns sb d (update N j y) X := by
  have htab : table sb d (update N j y) = table sb d (update N j x) := by
    funext ⟨k, sl⟩
    by_cases hk : k = j
    · subst hk
      simp only [table, update_self, Ne, ht, ptr_of_addrs ha]
    · simp only [table, update_of_ne hk]
  rw [Owns, htab]
  exact ho

theorem Consistent.cached (h : Consistent sb s) (hr : 0 < (s.icache i).ref) (hv : (s.icache i).valid = true) :
    Cached sb (dinode sb s.disk) i s :=
  ⟨h.cache.inum_lt i hr, (h.agree i hr hv).symm, h.cache.live i hr hv, h.owns⟩

theorem Consistent.filled_cached (h : Consistent sb s) (hr : 0 < (s.icache i).ref)
    (hv : (s.icache i).valid = true) :
    Filled s.disk (s.icache i).toDinode (blocks (s.icache i).size.toNat) := by
  have ht := h.cache.live i hr hv
  rw [h.agree i hr hv] at ht
  have := h.filled _ (h.cache.inum_lt i hr) ht
  rwa [← h.agree i hr hv] at this

/-- Inode `j` and its blocks have changed, and nothing else on the disk: what is left to check to
see that the file system is still consistent. -/
structure Touched (sb : Layout) (j : Nat) (x : Dinode) (d d' : Disk) : Prop where
  nodes : ∀ k, k < sb.ninodes → dinode sb d' k = if k = j then x else dinode sb d k
  others : ∀ k, k < sb.ninodes → k ≠ j → (dinode sb d k).type ≠ 0 → SameFile d d' (dinode sb d k)

theorem Touched.owns (h : Touched sb j x d d') (ho : Owns sb d' (update (dinode sb d) j x) X) :
    Owns sb d' (dinode sb d') X := by
  rw [Owns, table_congr_nodes (N := update (dinode sb d) j x)]
  · exact ho
  · intro k hk
    rw [h.nodes k hk, update_apply]

theorem Touched.filled (h : Touched sb j x d d')
    (hd : ∀ k, k < sb.ninodes → (dinode sb d k).type ≠ 0 →
    Filled d (dinode sb d k) (blocks (dinode sb d k).size.toNat))
    (hx : x.type ≠ 0 → Filled d' x (blocks x.size.toNat)) (hk : k < sb.ninodes) (ht : (dinode sb d' k).type ≠ 0) :
    Filled d' (dinode sb d' k) (blocks (dinode sb d' k).size.toNat) := by
  rw [h.nodes k hk] at ht ⊢
  by_cases hkj : k = j
  · rw [if_pos hkj] at ht ⊢
    exact hx ht
  · rw [if_neg hkj] at ht ⊢
    exact (h.others k hk hkj ht).filled (hd k hk ht)

theorem CacheOk.of_le {c' : ICache} (h : CacheOk sb c) (hc : ∀ k, 0 < (c' k).ref →
    0 < (c k).ref ∧ (c' k).key = (c k).key ∧ ((c' k).valid = true → (c' k).type ≠ 0)) : CacheOk sb c' := by
  have hkey (k) (hk : 0 < (c' k).ref) : (c' k).dev = (c k).dev ∧ (c' k).inum = (c k).inum := by
    simpa only [Prod.mk.injEq] using (hc k hk).2.1
  refine ⟨fun k hk => ?_, fun k hk => ?_, fun k l hk hl e => ?_, fun k hk => (hc k hk).2.2⟩
  · rw [(hkey k hk).1]
    exact h.dev k (hc k hk).1
  · rw [(hkey k hk).2]
    exact h.inum_lt k (hc k hk).1
  · rw [(hkey k hk).2, (hkey l hl).2] at e
    exact h.unique k l (hc k hk).1 (hc l hl).1 e

theorem CacheOk.setNode (h : CacheOk sb c) (hx : x.type ≠ 0) :
    CacheOk sb (update c i { c i with toDinode := x }) := by
  refine h.of_le fun k hk => ?_
  by_cases hki : k = i
  · subst hki
    simpa [hx] using hk
  · simp only [update_of_ne hki] at hk ⊢
    exact ⟨hk, trivial, h.live k hk⟩

theorem Consistent.of_cache {c' : ICache} (h : Consistent sb s) (hc : ∀ k, 0 < (c' k).ref →
    0 < (s.icache k).ref ∧ (c' k).key = (s.icache k).key ∧
      ((c' k).valid = true → (s.icache k).valid = true ∧ (c' k).toDinode = (s.icache k).toDinode)) :
    Consistent sb { s with icache := c' } := by
  refine ⟨h.owns, h.filled, fun k hr hv => ?_, h.cache.of_le fun k hk => ?_⟩
  · obtain ⟨hr', hkey, hval⟩ := hc k hr
    rw [(hval hv).2, show (c' k).inum = (s.icache k).inum from congrArg Prod.snd hkey]
    exact h.agree k hr' (hval hv).1
  · obtain ⟨hr', hkey, hval⟩ := hc k hk
    exact ⟨hr', hkey, fun hv => by rw [(hval hv).2]; exact h.cache.live k hr' (hval hv).1⟩

theorem Consistent.touch (h : Consistent sb s) (hr : 0 < (s.icache i).ref)
    (htouch : Touched sb (s.icache i).inum x s.disk d')
    (ho : Owns sb d' (update (dinode sb s.disk) (s.icache i).inum x) ∅) (ht : x.type ≠ 0)
    (hx : Filled d' x (blocks x.size.toNat)) :
    Consistent sb ⟨d', update s.icache i { s.icache i with toDinode := x }⟩ := by
  refine ⟨htouch.owns ho, fun k hk => htouch.filled h.filled (fun _ => hx) hk, fun k hrk hvk => ?_,
    h.cache.setNode ht⟩
  by_cases hk : k = i
  · subst hk
    have hlt := h.cache.inum_lt k hr
    simp [htouch.nodes _ hlt]
  · simp only [update_of_ne hk] at hrk hvk ⊢
    have hne : (s.icache k).inum ≠ (s.icache i).inum := fun e => hk (h.cache.unique k i hrk hr e)
    rw [htouch.nodes _ (h.cache.inum_lt k hrk), if_neg hne, h.agree k hrk hvk]

/-- `writei` has written `n` bytes at offset `off`; `x` is the inode that this leaves. -/
structure Written (sb : Layout) (i : Fin ninode) (src : Nat → UInt8) (off n : Nat) (s t : State) (x : Dinode) :
    Prop where
  icache : t.icache = update s.icache i { s.icache i with toDinode := x }
  rest : x = { (s.icache i).toDinode with size := x.size, addrs := x.addrs }
  size : x.size.toNat = max (s.icache i).size.toNat (off + n)
  touched : Touched sb (s.icache i).inum x s.disk t.disk
  bytes : ∀ p, p < blocks (s.icache i).size.toNat * bsize ∨ p < off + n → fileByte t.disk x p =
    if off ≤ p ∧ p < off + n then src (p - off) else fileByte s.disk (s.icache i).toDinode p
  zero : ∀ p, blocks (s.icache i).size.toNat * bsize ≤ p → off + n ≤ p → p < blocks (off + n) * bsize →
    fileByte t.disk x p = 0
  consistent : Consistent sb t

theorem Written.type {src : Nat → UInt8} {off n : Nat} (h : Written sb i src off n s t x) :
    x.type = (s.icache i).type := by
  rw [h.rest]

theorem Wrote.written {src : Nat → UInt8} {off n : Nat} {u : State}
    (hw : Wrote sb (dinode sb s.disk) i (blocks (s.icache i).size.toNat) off (off + n)
    (fun p => src (p - off)) s t x)
    (h : Consistent sb s) (hr : 0 < (s.icache i).ref) (hv : (s.icache i).valid = true)
    (hy : y = { x with size := y.size }) (hsize : y.size.toNat = max (s.icache i).size.toNat (off + n))
    (hic : u.icache = update s.icache i { s.icache i with toDinode := y })
    (hnodes : ∀ k, k < sb.ninodes → dinode sb u.disk k = if k = (s.icache i).inum then y else dinode sb s.disk k)
    (hdata : ∀ c, sb.nmeta ≤ c → u.disk c = t.disk c) (hbits : ∀ c, inUse sb u.disk c = inUse sb t.disk c) :
    Written sb i src off n s u y := by
  have hc := h.cached hr hv
  have hya : y.addrs = x.addrs := by rw [hy]
  have hyt : y.type = x.type := by rw [hy]
  have hxt : x.type ≠ 0 := hw.rest ▸ hc.type
  have hN : update (dinode sb s.disk) (s.icache i).inum x (s.icache i).inum = x := update_self ..
  have hself : SameFile t.disk u.disk x := fun sl h0 => by
    have := Owned.ptr_used hw.owns hc.inum_lt (by rwa [hN]) (by rwa [hN] : ptr t.disk _ sl ≠ 0)
    rw [hN] at this
    exact hdata _ this.1
  have htouch : Touched sb (s.icache i).inum y s.disk u.disk := by
    refine ⟨hnodes, fun k hk hne ht => (hw.others k hk hne ht).trans fun sl h0 => hdata _ ?_⟩
    rw [(hw.others k hk hne ht).ptr_eq] at h0 ⊢
    exact (Owned.ptr_used h.owns hk ht h0).1
  have hfill : Filled t.disk x (blocks y.size.toNat) := by
    have hmax : blocks y.size.toNat = max (blocks (s.icache i).size.toNat) (blocks (off + n)) := by
      rw [hsize]
      show (max _ _ + 511) / 512 = max ((_ + 511) / 512) ((_ + 511) / 512)
      omega
    rw [hmax]
    exact hw.filled
  have hown : Owns sb u.disk (update (dinode sb s.disk) (s.icache i).inum y) ∅ := by
    refine Owned.of_addrs ?_ hya (by rw [hyt])
    rw [Owns, table_congr fun k hk ht h0 => hdata _ (Owned.ind_used hw.owns hk ht h0).1]
    exact Ownership.Owned.of_used hw.owns fun c _ => hbits c
  have hbyte (p) (hp : p < blocks y.size.toNat * bsize) : fileByte u.disk y p = fileByte t.disk x p := by
    rw [fileByte_of_addrs hya, hself.fileByte_eq (hfill.fileBlock_ne hp)]
  have hmono (a) (ha : a ≤ y.size.toNat) : blocks a * bsize ≤ blocks y.size.toNat * bsize :=
    Nat.mul_le_mul_right _ (blocks_le_iff.mpr (ha.trans (blocks_le_iff.mp le_rfl)))
  refine ⟨hic, ?_, hsize, htouch, fun p hp => ?_, fun p hm he hp => ?_, ?_⟩
  · have := congrArg (fun z : Dinode => { z with size := y.size, addrs := y.addrs }) hw.rest
    rw [← hya] at this
    exact hy.trans (by simpa [← hya] using this)
  · rw [hbyte p ?_, hw.bytes p hp]
    rcases hp with hp | hp
    · exact hp.trans_le (hmono _ (by omega))
    · exact hp.trans_le ((blocks_le_iff.mp le_rfl).trans (hmono _ (by omega)))
  · rw [hbyte p (hp.trans_le (hmono _ (by omega))), hw.zero p hm he hp]
  · have := h.touch hr htouch hown (by rwa [hyt]) ((hself.filled hfill).of_addrs hya)
    rwa [← hic] at this

theorem toNat_add_of_not_lt {off n : UInt32} (h : ¬ off + n < off) : (off + n).toNat = off.toNat + n.toNat := by
  rw [UInt32.lt_iff_toNat_lt, UInt32.toNat_add] at h
  have := off.toNat_lt
  have := n.toNat_lt
  rw [UInt32.toNat_add]
  omega

theorem toInt_of_lt {n : UInt32} (h : n.toNat < 2 ^ 31) : n.toInt32.toInt = n.toNat := by
  rw [UInt32.toInt32, Int32.toInt, BitVec.toInt_eq_toNat_of_lt]
  · rfl
  · show 2 * n.toNat < 2 ^ 32
    omega

theorem maxfile_bsize : maxfile * bsize < 2 ^ 31 := by decide

variable [Devsw]

theorem writei_spec {src : Nat → UInt8} {off n : UInt32} (h : Consistent sb s) (hr : 0 < (s.icache i).ref)
    (hv : (s.icache i).valid = true) (hdev : (s.icache i).type ≠ tDev) :
    wp (writei sb i src off n) (fun r t =>
        (r = -1 ∧ t = s ∧ ((s.icache i).size < off ∨ maxfile * bsize < off.toNat + n.toNat)) ∨
        (r = n.toNat ∧ off ≤ (s.icache i).size ∧ off.toNat + n.toNat ≤ maxfile * bsize ∧
          ∃ x, Written sb i src off.toNat n.toNat s t x))
      BmapPanic s := by
  have hmaxb := maxfile_bsize
  simp only [writei, inode, wp_bind, wp_gets]
  rw [if_neg hdev, wp_ite]
  refine ⟨fun hbad => .inl ⟨rfl, rfl, hbad.imp_right fun hwrap => ?_⟩, fun hok => ?_⟩
  · rw [UInt32.lt_iff_toNat_lt, UInt32.toNat_add] at hwrap
    have := n.toNat_lt
    omega
  · simp only [not_or] at hok
    obtain ⟨hoff, hwrap⟩ := hok
    have hoff : off ≤ (s.icache i).size := UInt32.not_lt.mp hoff
    have hle : off.toNat ≤ (s.icache i).size.toNat := hoff
    have hsum := toNat_add_of_not_lt hwrap
    rw [wp_ite]
    refine ⟨fun hbig => .inl ⟨rfl, rfl, .inr (by omega)⟩, fun hsmall => ?_⟩
    rw [hsum, not_lt] at hsmall
    rw [wp_bind]
    refine (writeChunks_spec src off.toNat 0 n.toNat _ (h.cached hr hv) (h.filled_cached hr hv)
      (hle.trans (blocks_le_iff.mp le_rfl)) (Nat.zero_le _) le_rfl).imp ?_
    rintro r t ⟨hr', x, hx⟩
    subst hr'
    have hic : t.icache i = { s.icache i with toDinode := x } := by rw [hx.icache, update_self]
    have hsize : x.size = (s.icache i).size := by rw [hx.rest]
    have hret : n.toInt32.toInt = n.toNat := toInt_of_lt (by omega)
    have hinum := h.cache.inum_lt i hr
    simp only [wp_bind, wp_gets, hic, hsize]
    rw [wp_ite]
    refine ⟨fun hgrow => ?_, fun hsame => ?_⟩
    · have hnat : (UInt32.ofNat (off.toNat + n.toNat)).toNat = off.toNat + n.toNat :=
        UInt32.toNat_ofNat_of_lt' (by show _ < 2 ^ 32; omega)
      simp only [setInode, iupdate, inode, bread, logWrite, wp_bind, wp_gets, wp_update, wp_pure, update_self]
      refine .inr ⟨hret, hoff, hsmall, { x with size := UInt32.ofNat (off.toNat + n.toNat) },
        hx.written h hr hv rfl ?_ ?_ (fun k hk => ?_) (fun c hc => ?_) (fun c => ?_)⟩
      · rw [hnat]
        omega
      · simp only [hx.icache, update_idem]
      · rw [← putNode, dinode_putNode, hx.nodes k hk]
      · exact putNode_data hinum hc
      · exact inUse_of_inode sb _ _ hinum c
    · have hend : off.toNat + n.toNat ≤ (s.icache i).size.toNat := by
        rcases eq_or_ne n 0 with rfl | hn
        · exact hle
        · exact not_lt.mp fun hlt => hsame ⟨UInt32.pos_iff_ne_zero.mpr hn, hlt⟩
      have hxs := hx.quiet (blocks_le_iff.mpr (hend.trans (blocks_le_iff.mp le_rfl)))
      rw [wp_pure]
      refine .inr ⟨hret, hoff, hsmall, x, hx.written h hr hv rfl ?_ hx.icache (fun k hk => ?_) (fun _ _ => rfl)
        fun _ => rfl⟩
      · rw [hsize, Nat.add_zero, max_eq_left hend]
      · rw [hx.nodes k hk]
        split
        next hk' => rw [hxs, h.agree i hr hv, hk']
        next => rfl

theorem readi_filled {off n : UInt32} (hf : Filled s.disk (s.icache i).toDinode (blocks (s.icache i).size.toNat))
    (hdev : (s.icache i).type ≠ tDev) :
    wp (readi sb i off n) (fun r t => t = s ∧
        (r = (-1, []) ∧ ((s.icache i).size < off ∨ 2 ^ 32 ≤ off.toNat + n.toNat) ∨
          off ≤ (s.icache i).size ∧ off.toNat + n.toNat < 2 ^ 32 ∧ r.1 = r.2.length ∧
            r.2 = (List.range (min n.toNat ((s.icache i).size.toNat - off.toNat))).map fun k =>
              fileByte s.disk (s.icache i).toDinode (off.toNat + k)))
      (fun _ => False) s := by
  simp only [readi, inode, wp_bind, wp_gets]
  rw [if_neg hdev, wp_ite]
  refine ⟨fun hbad => ⟨rfl, .inl ⟨rfl, hbad.imp_right fun hwrap => ?_⟩⟩, fun hok => ?_⟩
  · rw [UInt32.lt_iff_toNat_lt, UInt32.toNat_add] at hwrap
    have := n.toNat_lt
    omega
  · simp only [not_or] at hok
    obtain ⟨hoff, hwrap⟩ := hok
    have hoff : off ≤ (s.icache i).size := UInt32.not_lt.mp hoff
    have hsum := toNat_add_of_not_lt hwrap
    have hle : off.toNat ≤ (s.icache i).size.toNat := hoff
    have hmax : (s.icache i).size.toNat ≤ maxfile * bsize := blocks_le_iff.mp hf.le_maxfile
    have hlt := (off + n).toNat_lt
    have hmaxb := maxfile_bsize
    set n' : UInt32 := if off + n > (s.icache i).size then (s.icache i).size - off else n with hn'
    have hnat : n'.toNat = min n.toNat ((s.icache i).size.toNat - off.toNat) := by
      rw [hn']
      split
      next hgt =>
        have : (s.icache i).size.toNat < (off + n).toNat := hgt
        rw [UInt32.toNat_sub_of_le _ _ hoff]
        omega
      next hgt =>
        have : ¬ (s.icache i).size.toNat < (off + n).toNat := hgt
        omega
    rw [wp_bind]
    refine (readChunks_spec hf le_rfl (?_ : off.toNat + n'.toNat ≤ _)).mono ?_
      (fun _ => id)
    · have := blocks_le_iff (e := (s.icache i).size.toNat).mp le_rfl
      omega
    · rintro bs t ⟨hbs, ht⟩
      rw [hnat] at hbs
      have hlen : bs.length = n'.toNat := by rw [hbs, hnat, List.length_map, List.length_range]
      exact ⟨ht, .inr ⟨hoff, by omega, by rw [toInt_of_lt (by omega), hlen], hbs⟩⟩

end Xv6.Fs
