import Xv6.Fs.Supply
import Xv6.Mkfs.Model

namespace Xv6.Mkfs

open Lib Lib.Bytes Lib.Exec Fs

variable {N : Nat → Dinode} {st st' : State} {inum m bn : Nat} {din : Dinode}

def ghost (st : State) : Disk := Function.update st.image sb.bmapstart (bitmap st.freeblock)

def kernel (st : State) (inum : Nat) (din : Dinode) : Fs.State :=
  ⟨ghost st, Function.update ICache.empty 0 ⟨din, rootdev, inum, 1, true⟩⟩

/-- The image has its full length, and its blocks from `freeblock` on have not been used. -/
structure Room (st : State) : Prop where
  nsect : st.nsect = fssize
  lo : nmeta ≤ st.freeblock
  hi : st.freeblock ≤ fssize
  zero : ∀ c, st.freeblock ≤ c → st.image c = fun _ => 0

theorem getBit_bitmap {used i : Nat} (hi : i < bpb) : getBit (bitmap used) i = decide (i < used) := by
  have hi8 : i / 8 < bsize := Nat.div_lt_of_lt_mul (by rw [Nat.mul_comm]; exact hi)
  induction used with
  | zero =>
      have : byteAt (fun _ => 0 : Block) (i / 8) = 0 := by unfold byteAt; split <;> rfl
      simp [bitmap, getBit, this]
  | succ used ih =>
      rw [bitmap, getBit_setBit _ _ _ hi8, ih]
      by_cases h : used = i
      · subst h; simp
      · have : i < used + 1 ↔ i < used := by omega
        simp [h, this]

theorem bblock_eq {c : Nat} (hc : c < fssize) : sb.bblock c = sb.bmapstart ∧ c % bpb = c := by
  have hc : c < 1000 := hc
  refine ⟨?_, Nat.mod_eq_of_lt (show c < 4096 by omega)⟩
  show c / 4096 + sb.bmapstart = sb.bmapstart
  omega

theorem inUse_ghost {c : Nat} (hc : c < fssize) : inUse sb (ghost st) c = decide (c < st.freeblock) := by
  have hlt : c < bpb := Nat.lt_trans hc (by decide)
  rw [inUse, (bblock_eq hc).1, ghost, Function.update_self, (bblock_eq hc).2, getBit_bitmap hlt]

theorem ghost_data {c : Nat} (hc : sb.nmeta ≤ c) : ghost st c = st.image c := by
  have : sb.bmapstart < sb.nmeta := by decide
  exact Function.update_of_ne (by omega) ..

theorem ghost_node {c : Nat} (hc : c < sb.bmapstart) : ghost st c = st.image c :=
  Function.update_of_ne hc.ne ..

theorem ghost_write {c : Nat} (hc : sb.nmeta ≤ c) (v : Block) :
    ghost (st.write c v) = Function.update (ghost st) c v := by
  have : sb.bmapstart < sb.nmeta := by decide
  exact Function.update_comm (by omega) ..

theorem kernel_write {c : Nat} (hc : sb.nmeta ≤ c) (v : Block) :
    kernel (st.write c v) inum din = { kernel st inum din with disk := Function.update (ghost st) c v } := by
  rw [kernel, ghost_write hc]
  rfl

theorem kernel_setNode (x : Dinode) : (kernel st inum din).setNode (ghost st') 0 x = kernel st' inum x := by
  simp [kernel, State.setNode]

theorem Room.balloced (h : Room st) (hlt : st.freeblock < fssize) :
    Balloced sb (ghost st) (ghost { st with freeblock := st.freeblock + 1 }) (UInt32.ofNat st.freeblock).toNat := by
  have hnat : (UInt32.ofNat st.freeblock).toNat = st.freeblock :=
    UInt32.toNat_ofNat_of_lt' (Nat.lt_trans hlt (by decide))
  have hmeta : sb.nmeta ≤ st.freeblock := h.lo
  rw [hnat]
  refine ⟨h.lo, hlt, ?_, ?_, fun c hc _ => ?_, fun i hi => ?_, fun c hc => ?_⟩
  · rw [inUse_ghost hlt]
    simp
  · rw [ghost_data hmeta]
    exact h.zero _ le_rfl
  · rw [ghost_data hc, ghost_data hc]
  · have := iblock_lt_bmapstart sb hi
    rw [dinode, dinode, ghost_node this, ghost_node this]
  · rw [inUse_ghost hc, inUse_ghost hc]
    by_cases h : st.freeblock = c
    · subst h; simp
    · have : c < st.freeblock + 1 ↔ c < st.freeblock := by omega
      simp [h, this]

theorem Room.next (h : Room st) (hlt : st.freeblock < fssize) : Room { st with freeblock := st.freeblock + 1 } :=
  ⟨h.nsect, h.lo.trans (Nat.le_succ _), hlt, fun c hc => h.zero c (Nat.le_of_succ_le hc)⟩

theorem Room.write (h : Room st) {c : Nat} (hc : c < st.freeblock) (v : Block) :
    Room (st.write c v) := by
  have hhi := h.hi
  refine ⟨?_, h.lo, h.hi, fun k hk => ?_⟩
  · show max st.nsect (c + 1) = fssize
    rw [h.nsect]
    omega
  · exact (Function.update_of_ne (by have : st.freeblock ≤ k := hk; omega) ..).trans (h.zero k hk)

structure Found (N : Nat → Dinode) (inum m bn : Nat) (st : State) (din : Dinode) (r : UInt32 × Dinode)
    (st' : State) :
    Prop where
  nsect : st'.nsect = fssize
  count : st'.freeblock = st.freeblock + growth m (bn + 1)
  bound : r.1.toNat < fssize ∨ fssize < st'.freeblock
  mapped : r.1.toNat < fssize → Room st' ∧ Mapped sb N 0 m bn (kernel st inum din) (kernel st' inum r.2) r.1 r.2

def Full (st : State) (m e : Nat) : Prop := fssize < st.freeblock + growth m e

theorem fileBlockOf_old (hr : Room st) (hc : Cached sb N 0 (kernel st inum din)) (hf : Filled (ghost st) din m)
    (hbn : bn < m) : wp (fileBlockOf din bn) (Found N inum m bn st din) (fun _ => Full st m (bn + 1)) st := by
  have hfound (a : UInt32) (ha : fileBlock (ghost st) din bn = a.toNat) : Found N inum m bn st din (a, din) st := by
    have hmapped := hc.mapped_self hf hbn ha
    refine ⟨hr.nsect, ?_, .inl (hmapped.used hc).2.1, fun _ => ⟨hr, hmapped⟩⟩
    rw [growth_of_le hbn, Nat.add_zero]
  have h0 := (hf.block bn).mpr hbn
  by_cases hd : bn < ndirect
  · have hfb := fileBlock_some (d := ghost st) (x := din) (slotOf_direct hd)
    rw [hfb] at h0
    simp only [fileBlockOf, dif_pos hd]
    rw [if_neg (toNat_ne_zero.mp h0), wp_pure]
    exact hfound _ hfb
  · have he : bn - ndirect < nindirect := by
      have := hf.le_maxfile
      have hmax : maxfile = ndirect + nindirect := rfl
      omega
    have hind : din.ind ≠ 0 := hf.ind.mpr (by omega)
    have hfb : fileBlock (ghost st) din bn = (getAddr (ghost st din.ind.toNat) (bn - ndirect)).toNat := by
      rw [fileBlock_some (slotOf_entry hd he), ptr, if_neg hind]
    obtain ⟨hlo, hhi, -⟩ := (hc.indirected_self hind).ind_used hc
    have hlo : sb.nmeta ≤ din.ind.toNat := hlo
    rw [hfb, ghost_data hlo] at h0
    rw [ghost_data hlo] at hfb
    simp only [fileBlockOf, indirectBlock, dif_neg hd, wp_bind]
    rw [if_neg hind]
    simp only [wp_pure, rsect, wp_bind, wp_gets]
    rw [if_pos (show din.ind.toNat < st.nsect from hr.nsect ▸ hhi), wp_gets, wp_ite]
    exact ⟨fun hz => absurd hz (toNat_ne_zero.mp h0), fun _ => hfound _ hfb⟩

theorem fileBlockOf_direct (hr : Room st) (hc : Cached sb N 0 (kernel st inum din)) (hf : Filled (ghost st) din bn)
    (hd : bn < ndirect) : wp (fileBlockOf din bn) (Found N inum bn bn st din)
    (fun _ => Full st bn (bn + 1)) st := by
  have h0 : din.addrs (Fin.castSucc ⟨bn, hd⟩) = 0 := by
    have := (hf.block bn).not.mpr (lt_irrefl bn)
    rw [fileBlock_some (slotOf_direct hd), ptr, Ne, Decidable.not_not] at this
    rwa [← UInt32.toNat_inj, UInt32.toNat_zero]
  simp only [fileBlockOf, dif_pos hd]
  rw [if_pos h0]
  simp only [newBlock, wp_bind, wp_gets, wp_update, wp_pure]
  have hnat := UInt32.toNat_ofNat_of_lt' (show st.freeblock < 2 ^ 32 from Nat.lt_of_le_of_lt hr.hi (by decide))
  refine ⟨hr.nsect, ?_, ?_, ?_⟩
  · rw [growth, if_neg (by omega)]
    show st.freeblock + 1 = _
    omega
  · rw [hnat]
    show _ ∨ fssize < st.freeblock + 1
    omega
  · intro hlt
    have hlt : st.freeblock < fssize := hnat ▸ hlt
    refine ⟨hr.next hlt, ?_⟩
    have := (hr.balloced hlt).mapped_direct hc hf hd rfl
    rwa [kernel_setNode] at this

theorem indirectBlock_spec (hr : Room st) (hc : Cached sb N 0 (kernel st inum din)) :
    wp (indirectBlock din) (fun x st' => st'.nsect = fssize ∧
        st'.freeblock = st.freeblock + (if din.ind = 0 then 1 else 0) ∧ (x.ind.toNat < fssize ∨
          fssize < st'.freeblock) ∧
        (x.ind.toNat < fssize → Room st' ∧ Indirected sb N 0 (kernel st inum din) (kernel st' inum x) x.ind x))
      (fun _ => False) st := by
  rw [indirectBlock, wp_ite]
  constructor
  · intro h0
    simp only [newBlock, wp_bind, wp_gets, wp_update, wp_pure]
    have hind : ({ din with addrs := Function.update din.addrs (Fin.last ndirect) (UInt32.ofNat st.freeblock) } :
        Dinode).ind = UInt32.ofNat st.freeblock := by simp [Dinode.ind]
    have hnat := UInt32.toNat_ofNat_of_lt' (show st.freeblock < 2 ^ 32 from Nat.lt_of_le_of_lt hr.hi (by decide))
    rw [hind, hnat, if_pos h0]
    refine ⟨hr.nsect, rfl, by omega, ?_⟩
    intro hlt
    refine ⟨hr.next hlt, ?_⟩
    have := (hr.balloced hlt).indirected hc h0 rfl
    rw [kernel_setNode] at this
    exact this
  · intro h0
    have hself := hc.indirected_self h0
    rw [if_neg h0]
    exact ⟨hr.nsect, rfl, .inl (hself.ind_used hc).2.1, fun _ => ⟨hr, hself⟩⟩

theorem fileBlockOf_entry (hr : Room st) (hc : Cached sb N 0 (kernel st inum din)) (hf : Filled (ghost st) din bn)
    (hd : ¬ bn < ndirect) (he : bn - ndirect < nindirect) :
    wp (fileBlockOf din bn) (Found N inum bn bn st din) (fun _ => Full st bn (bn + 1)) st := by
  have hgrowth : growth bn (bn + 1) = (if din.ind = 0 then 1 else 0) + 1 := by
    have hind := hf.ind
    unfold growth
    split
    next h => rw [if_pos (by by_contra h0; have := hind.mp h0; omega)]; omega
    next h => rw [if_neg (hind.mpr (by omega))]; omega
  simp only [fileBlockOf, dif_neg hd, wp_bind]
  refine (indirectBlock_spec hr hc).mono ?_ (fun _ => False.elim)
  rintro x st₁ ⟨hn, hcount, hbound, hx⟩
  simp only [rsect, wp_bind, wp_gets]
  rw [wp_ite, hn]
  constructor
  swap
  · intro hge
    show fssize < st.freeblock + growth bn (bn + 1)
    omega
  intro hlt
  obtain ⟨hr₁, hx⟩ := hx hlt
  obtain ⟨hlo, hhi, hu⟩ := hx.ind_used hc
  have hfree : x.ind.toNat < st₁.freeblock := by
    have : inUse sb (ghost st₁) x.ind.toNat = true := hu
    rw [inUse_ghost hlt] at this
    exact of_decide_eq_true this
  have hnz : x.ind ≠ 0 := hx.pos
  have h0 : getAddr (st₁.image x.ind.toNat) (bn - ndirect) = 0 := by
    have := (hf.block bn).not.mpr (lt_irrefl bn)
    have hs : fileBlock (ghost st₁) x bn = fileBlock (ghost st) din bn := hx.same bn
    rw [← hs, fileBlock_some (slotOf_entry hd he), ptr, if_neg hnz, Ne, Decidable.not_not, ghost_data hlo] at this
    rwa [← UInt32.toNat_inj, UInt32.toNat_zero]
  rw [wp_gets, if_pos h0]
  simp only [newBlock, wsect, wp_bind, wp_gets, wp_update, wp_pure]
  have hnat := UInt32.toNat_ofNat_of_lt' (show st₁.freeblock < 2 ^ 32 from Nat.lt_of_le_of_lt hr₁.hi (by decide))
  refine ⟨?_, ?_, ?_, ?_⟩
  · show max st₁.nsect (x.ind.toNat + 1) = fssize
    rw [hn]
    omega
  · show st₁.freeblock + 1 = _
    omega
  · rw [hnat]
    show _ ∨ fssize < st₁.freeblock + 1
    omega
  · intro hb
    have hb : st₁.freeblock < fssize := hnat ▸ hb
    refine ⟨(hr₁.next hb).write (hfree.trans (Nat.lt_succ_self _)) _, ?_⟩
    have := (hr₁.balloced hb).mapped_entry hx hc hf hd he
    rw [← ghost_write hlo] at this
    rw [← ghost_data hlo]
    exact this

theorem fileBlockOf_spec (hr : Room st) (hc : Cached sb N 0 (kernel st inum din)) (hf : Filled (ghost st) din m)
    (hbn : bn ≤ m) (hmax : bn < maxfile) :
    wp (fileBlockOf din bn) (Found N inum m bn st din) (fun _ => Full st m (bn + 1)) st := by
  obtain hlt | rfl := hbn.lt_or_eq
  · exact fileBlockOf_old hr hc hf hlt
  · by_cases hd : bn < ndirect
    · exact fileBlockOf_direct hr hc hf hd
    · have he : bn - ndirect < nindirect := by
        have hm : maxfile = ndirect + nindirect := rfl
        omega
      exact fileBlockOf_entry hr hc hf hd he

theorem take_eq_map {p : List UInt8} {data : Nat → UInt8} {off c : Nat} (hc : c ≤ p.length)
    (h : ∀ k (hk : k < p.length), data (off + k) = p[k]) : p.take c = (List.range c).map fun k => data
    (off + k) := by
  apply List.ext_getElem
  · simp [hc]
  · intro k hk _
    simp only [List.length_take] at hk
    simp [h k (by omega)]

def TooMuch (st : State) (m e : Nat) : Prop := maxfile * bsize < e ∨ Full st m (blocks e)

theorem blocks_chunk (off : Nat) {n : Nat} (hn : 0 < n) :
    blocks (off + min n (bsize - off % bsize)) = off / bsize + 1 := by
  show (off + min n (512 - off % 512) + 511) / 512 = off / 512 + 1
  omega

theorem appended_nil {p : List UInt8} (data : Nat → UInt8) {off : Nat} (hr : Room st)
    (hc : Cached sb N 0 (kernel st inum din)) (hf : Filled (ghost st) din m) (hle : off ≤ m * bsize) (hp : p = []) :
    (Room st ∧ off = off + p.length ∧
        Wrote sb N 0 m off (off + p.length) data (kernel st inum din) (kernel st inum din) din) ∧
      st.freeblock = st.freeblock + growth m (blocks (off + p.length)) := by
  subst hp
  refine ⟨⟨hr, rfl, Wrote.refl hc hf hle⟩, ?_⟩
  rw [List.length_nil, Nat.add_zero, growth_of_le (blocks_le_iff.mpr hle), Nat.add_zero]

/-- The loop of `iappend` writes to the file as the loop of `writei` does, and fails only if the file or the
file system gets too large. -/
theorem appendChunks_total {p : List UInt8} (data : Nat → UInt8) {off fuel : Nat} (hr : Room st)
    (hc : Cached sb N 0 (kernel st inum din)) (hf : Filled (ghost st) din m) (hle : off ≤ m * bsize)
    (hfuel : p.length ≤ fuel) (hdata : ∀ k (hk : k < p.length), data (off + k) = p[k]) :
    wp (appendChunks fuel din off p)
      (fun r st' => (Room st' ∧ r.2 = off + p.length ∧
        Wrote sb N 0 m off (off + p.length) data (kernel st inum din) (kernel st' inum r.1) r.1) ∧
        st'.freeblock = st.freeblock + growth m (blocks (off + p.length)))
      (fun _ => TooMuch st m (off + p.length)) st := by
  induction fuel generalizing p off m N st din with
  | zero => exact appended_nil data hr hc hf hle (List.length_eq_zero_iff.mp (by omega))
  | succ fuel ih =>
      rw [appendChunks, wp_ite]
      refine ⟨appended_nil data hr hc hf hle, ?_⟩
      intro hp
      have hpos : 0 < p.length := List.length_pos_iff.mpr hp
      have hbn : off / bsize ≤ m := Nat.div_le_of_le_mul (by rwa [Nat.mul_comm])
      have hdiv : off - off / bsize * bsize = off % bsize := by
        show off - off / 512 * 512 = off % 512
        omega
      have hroom : (off / bsize + 1) * bsize - off = bsize - off % bsize := by
        show (off / 512 + 1) * 512 - off = 512 - off % 512
        omega
      have hmod : off % bsize < bsize := Nat.mod_lt _ (by decide)
      have hfloor : off / bsize * bsize ≤ off := Nat.div_mul_le_self off bsize
      have hlast : off / bsize < blocks (off + p.length) := lt_blocks_iff.mpr (by omega)
      have hsplit := growth_split hbn hlast
      simp only [assert, hdiv, hroom]
      rw [wp_bind, wp_ite]
      constructor
      swap
      · intro hbig
        left
        have := Nat.mul_le_mul_right bsize (not_lt.mp hbig)
        omega
      intro hmax
      rw [wp_pure, wp_bind]
      refine (fileBlockOf_spec hr hc hf hbn hmax).mono ?_ ?_
      swap
      · intro e hfull
        right
        unfold Full at hfull ⊢
        omega
      rintro ⟨a, x⟩ st₁ hfound
      have hn := hfound.nsect
      have hcount := hfound.count
      set c := min p.length (bsize - off % bsize) with hcdef
      simp only [rsect, wp_bind, wp_gets]
      rw [wp_ite, hn]
      constructor
      swap
      · intro hge
        right
        have := hfound.bound.resolve_left hge
        unfold Full
        omega
      intro hlt
      obtain ⟨hr₁, hx⟩ := hfound.mapped hlt
      have hw := hx.wrote data c hc hf hle (by omega) (by omega)
      obtain ⟨hlo, -, hu⟩ := hx.used hc
      have hfree : a.toNat < st₁.freeblock := by
        have : inUse sb (ghost st₁) a.toNat = true := hu
        rw [inUse_ghost hlt] at this
        exact of_decide_eq_true this
      rw [wp_gets]
      simp only [wsect, wp_bind, wp_update]
      have hw : Wrote sb N 0 m off (off + c) data (kernel st inum din)
          (kernel (st₁.write a.toNat (putBytes (st₁.image a.toNat) (off % bsize) (p.take c))) inum x) x := by
        rw [take_eq_map (by omega) hdata, ← ghost_data hlo, kernel_write hlo]
        exact hw
      have hcap : off + c ≤ max m (blocks (off + c)) * bsize :=
        (blocks_le_iff.mp le_rfl).trans (Nat.mul_le_mul_right _ (le_max_right ..))
      have hblock : max m (blocks (off + c)) = max m (off / bsize + 1) := by
        rw [blocks_chunk off hpos]
      have hrest : off + c + (p.drop c).length = off + p.length := by
        rw [List.length_drop]
        omega
      have hfuel' : (p.drop c).length ≤ fuel := by
        rw [List.length_drop]
        omega
      have hdata' (k : Nat) (hk : k < (p.drop c).length) : data (off + c + k) = (p.drop c)[k] := by
        rw [List.length_drop] at hk
        rw [List.getElem_drop, Nat.add_assoc, hdata]
      have hnext := ih (hr₁.write hfree _) (hw.cached hc) hw.filled hcap hfuel' hdata'
      rw [hrest, hblock] at hnext
      refine hnext.mono ?_ ?_
      · rintro r st₂ ⟨⟨hr₂, hoff, hy⟩, hcount₂⟩
        rw [← hblock] at hy
        refine ⟨⟨hr₂, hoff, hw.trans (by omega) (by omega) hy⟩, ?_⟩
        rw [hcount₂]
        show st₁.freeblock + _ = _
        omega
      · rintro e (hbig | hfull)
        · exact .inl hbig
        · right
          have hfull : fssize < st₁.freeblock + growth (max m (off / bsize + 1)) (blocks (off + p.length)) := hfull
          unfold Full
          omega

end Xv6.Mkfs
