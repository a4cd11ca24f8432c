import Xv6.Fs.Blocks

namespace Xv6.Fs

open Lib Lib.Bytes Lib.Ownership
open Lib.Exec hiding update
open Function (update update_eq_self update_of_ne update_self)

variable {sb : Layout} {d d' : Disk} {N N' : Nat → Dinode} {X : Set Nat} {s t : State} {i : Fin ninode}
  {x x' : Dinode} {sl : Slot} {j b k m bn : Nat}

def slotOf (k : Nat) : Option Slot :=
  if h : k < ndirect then some (.direct ⟨k, h⟩)
  else if h : k - ndirect < nindirect then some (.entry ⟨k - ndirect, h⟩)
  else none

def fileBlock (d : Disk) (x : Dinode) (k : Nat) : Nat := (slotOf k).elim 0 (ptr d x)

/-- The file has its first `m` blocks and no others, and an indirect block if it needs one. -/
structure Filled (d : Disk) (x : Dinode) (m : Nat) : Prop where
  block : ∀ k, fileBlock d x k ≠ 0 ↔ k < m
  ind : x.ind ≠ 0 ↔ ndirect < m

theorem slotOf_direct (h : k < ndirect) : slotOf k = some (.direct ⟨k, h⟩) := dif_pos h

theorem slotOf_entry (h : ¬ k < ndirect) (h' : k - ndirect < nindirect) :
    slotOf k = some (.entry ⟨k - ndirect, h'⟩) := by
  rw [slotOf, dif_neg h, dif_pos h']

theorem slotOf_inj (h : slotOf k = some sl) (h' : slotOf j = some sl) : k = j := by
  unfold slotOf at h h'
  split at h
  · split at h'
    · cases h; cases h'; rfl
    · split at h' <;> cases h <;> cases h'
  · split at h
    · split at h'
      · cases h; cases h'
      · split at h'
        · cases h
          simp only [Option.some.injEq, Slot.entry.injEq, Fin.mk.injEq] at h'
          omega
        · cases h'
    · cases h

theorem slotOf_ne_indirect : slotOf k ≠ some .indirect := by
  unfold slotOf
  split
  · simp
  · split <;> simp

theorem fileBlock_some (h : slotOf k = some sl) : fileBlock d x k = ptr d x sl := by
  rw [fileBlock, h]
  rfl

theorem fileBlock_congr (h : ∀ sl, sl ≠ .indirect → ptr d' x' sl = ptr d x sl) (k : Nat) :
    fileBlock d' x' k = fileBlock d x k := by
  cases hs : slotOf k with
  | none => simp [fileBlock, hs]
  | some sl => rw [fileBlock_some hs, fileBlock_some hs, h sl (fun e => slotOf_ne_indirect (e ▸ hs))]

theorem Filled.le_maxfile (h : Filled d x m) : m ≤ maxfile := by
  by_contra hlt
  have h0 := (h.block maxfile).mpr (by omega)
  exact h0 (by simp [fileBlock, slotOf])

theorem Filled.unique {d : Disk} {x : Dinode} {m m' : Nat} (h : Filled d x m) (h' : Filled d x m') : m = m' := by
  have h1 := (h.block m).symm.trans (h'.block m)
  have h2 := (h.block m').symm.trans (h'.block m')
  omega

def Attached (d d' : Disk) (x x' : Dinode) (sl : Slot) (b : Nat) : Prop :=
  ∀ sl', ptr d' x' sl' = if sl' = sl then b else ptr d x sl'

theorem fileBlock_attached (h : Attached d d' x x' sl b) (hbn : slotOf bn = some sl) (k : Nat) :
    fileBlock d' x' k = if k = bn then b else fileBlock d x k := by
  cases hk : slotOf k with
  | none =>
      have hne : k ≠ bn := by
        rintro rfl
        rw [hbn] at hk
        cases hk
      simp [fileBlock, hk, hne]
  | some sl' =>
      rw [fileBlock_some hk, fileBlock_some hk, h sl']
      by_cases hsl : sl' = sl
      · subst hsl
        rw [if_pos rfl, if_pos (slotOf_inj hk hbn)]
      · have hne : k ≠ bn := by
          rintro rfl
          rw [hbn] at hk
          exact hsl (Option.some.inj hk).symm
        rw [if_neg hsl, if_neg hne]

theorem Filled.attach (h : ∀ k, fileBlock d x k ≠ 0 ↔ k < m) (ha : Attached d d' x x' sl b)
    (hm : slotOf m = some sl) (hb : b ≠ 0) (hind : x'.ind ≠ 0 ↔ ndirect < m + 1) : Filled d' x' (m + 1) := by
  refine ⟨fun k => ?_, hind⟩
  rw [fileBlock_attached ha hm]
  by_cases hk : k = m
  · subst hk
    simp [hb]
  · rw [if_neg hk, h k]
    omega

theorem table_attach (sl : Slot) (b : Nat) (hj : j < sb.ninodes) (ht : (N j).type ≠ 0) (ht' : (N' j).type ≠ 0)
    (hN : ∀ k, k ≠ j → N' k = N k)
    (hother : ∀ k, k ≠ j → k < sb.ninodes → (N k).type ≠ 0 → (N k).ind ≠ 0 →
      d' (N k).ind.toNat = d (N k).ind.toNat)
    (hself : Attached d d' (N j) (N' j) sl b) :
    table sb d' N' = update (table sb d N) (j, sl) b := by
  funext ⟨k, sl'⟩
  by_cases hk : k = j
  · subst hk
    rw [table_live hj ht', hself sl']
    by_cases hsl : sl' = sl
    · subst hsl
      rw [if_pos rfl, update_self]
    · rw [if_neg hsl, update_of_ne (by simpa using hsl), table_live hj ht]
  · rw [update_of_ne (by simp [hk])]
    simp only [table, hN k hk]
    split
    next h => exact ptr_congr (hother k hk h.1 h.2) sl'
    next => rfl

theorem Balloced.attach (h : Balloced sb d d' b) (ho : Owns sb d N ∅) (hj : j < sb.ninodes)
    (ht : (N j).type ≠ 0) (ht' : x'.type ≠ 0) (hself : Attached d d' (N j) x' sl b)
    (h0 : ptr d (N j) sl = 0) : Owns sb d' (update N j x') ∅ := by
  have hlift := h.owns ho
  rw [Owns, h.table_eq ho] at hlift
  rw [Owns, table_attach sl b hj ht (by simpa using ht') (fun k hk => by simp [hk]) ?_ (by simpa using hself)]
  · exact hlift.attach (Set.notMem_empty b) (by rw [table_live hj ht, h0])
  · intro k _ hk htk hk0
    obtain ⟨hlo, -, hu⟩ := Owned.ind_used ho hk htk hk0
    exact h.data_used hlo hu

theorem ind_update_direct (k : Fin ndirect) (a : UInt32) :
    ({ x with addrs := update x.addrs k.castSucc a } : Dinode).ind = x.ind := by
  simp [Dinode.ind, Fin.castSucc_ne_last k |>.symm]

theorem attached_direct (k : Fin ndirect) (a : UInt32) (h : x.ind ≠ 0 → d' x.ind.toNat = d x.ind.toNat) :
    Attached d d' x { x with addrs := update x.addrs k.castSucc a } (.direct k) a.toNat := by
  intro sl
  cases sl with
  | direct k' =>
      by_cases hk : k' = k
      · subst hk; simp [ptr]
      · have hne : k'.castSucc ≠ k.castSucc := fun e => hk (Fin.castSucc_injective _ e)
        simp [ptr, hk, hne]
  | indirect => simp [ptr, ind_update_direct]
  | entry k' =>
      have := ptr_congr h (.entry k')
      simpa [ptr, ind_update_direct] using this

theorem attached_indirect (a : UInt32) (h0 : x.ind = 0) (hz : d' a.toNat = fun _ => 0) :
    Attached d d' x { x with addrs := update x.addrs (Fin.last ndirect) a } .indirect a.toNat := by
  intro sl
  cases sl with
  | direct k => simp [ptr, Fin.castSucc_ne_last k]
  | indirect => simp [ptr, Dinode.ind]
  | entry k =>
      have hz' : getAddr (d' a.toNat) k = 0 := by rw [hz, getAddr_zero]
      simp [ptr, Dinode.ind, hz', show x.addrs (Fin.last ndirect) = 0 from h0]

theorem attached_entry (d' : Disk) (k : Fin nindirect) (a : UInt32) (h0 : x.ind ≠ 0)
    (hd : d' x.ind.toNat = putAddr (d x.ind.toNat) k a) : Attached d d' x x (.entry k) a.toNat := by
  intro sl
  cases sl with
  | direct k' => simp [ptr]
  | indirect => simp [ptr]
  | entry k' =>
      simp only [ptr, h0, if_false, hd, getAddr_putAddr _ _ _ _ k.isLt k'.isLt, Slot.entry.injEq, Fin.ext_iff]
      split <;> rfl

/-- Entry `i` of the cache holds an allocated inode, the one that `N` has under its number. -/
structure Cached (sb : Layout) (N : Nat → Dinode) (i : Fin ninode) (s : State) : Prop where
  inum_lt : (s.icache i).inum < sb.ninodes
  node : N (s.icache i).inum = (s.icache i).toDinode
  type : (s.icache i).type ≠ 0
  owns : Owns sb s.disk N ∅

/-- What `bmap` does when it returns block `a` for block `bn` of a file of `m` blocks; `x` is the
inode it leaves. -/
structure Mapped (sb : Layout) (N : Nat → Dinode) (i : Fin ninode) (m bn : Nat) (s t : State) (a : UInt32)
    (x : Dinode) : Prop where
  icache : t.icache = update s.icache i { s.icache i with toDinode := x }
  rest : x = { (s.icache i).toDinode with addrs := x.addrs }
  owns : Owns sb t.disk (update N (s.icache i).inum x) ∅
  filled : Filled t.disk x (max m (bn + 1))
  block : fileBlock t.disk x bn = a.toNat
  same : ∀ k, k < m → fileBlock t.disk x k = fileBlock s.disk (s.icache i).toDinode k
  keep : ∀ c, sb.nmeta ≤ c → c < sb.size → inUse sb s.disk c = true → c ≠ (s.icache i).ind.toNat →
    t.disk c = s.disk c ∧ inUse sb t.disk c = true
  zero : bn = m → t.disk a.toNat = fun _ => 0
  nodes : ∀ j, j < sb.ninodes → dinode sb t.disk j = dinode sb s.disk j
  quiet : bn < m → t = s

def BmapPanic (e : Halt) : Prop := e = .panic .ballocOutOfBlocks ∨ e = .panic .bmapOutOfRange

theorem Cached.mapped_self (h : Cached sb N i s) (hf : Filled s.disk (s.icache i).toDinode m) (hlt : bn < m)
    {a : UInt32} (ha : fileBlock s.disk (s.icache i).toDinode bn = a.toNat) :
    Mapped sb N i m bn s s a (s.icache i).toDinode where
  icache := (update_eq_self i s.icache).symm
  rest := rfl
  owns := by rw [← h.node, update_eq_self]; exact h.owns
  filled := by rw [max_eq_left (by omega)]; exact hf
  block := ha
  same _ _ := rfl
  keep _ _ _ hu _ := ⟨rfl, hu⟩
  zero hm := by omega
  nodes _ _ := rfl
  quiet _ := rfl

theorem bmap_old (hf : Filled s.disk (s.icache i).toDinode m) (hbn : bn < m) :
    wp (bmap sb i bn) (fun a t => a.toNat = fileBlock s.disk (s.icache i).toDinode bn ∧ t = s)
      (fun _ => False) s := by
  have h0 := (hf.block bn).mpr hbn
  by_cases hd : bn < ndirect
  · rw [fileBlock_some (slotOf_direct hd)] at h0 ⊢
    simp only [bmap, inode, wp_bind, wp_gets, dif_pos hd]
    rw [if_neg (toNat_ne_zero.mp h0), wp_pure]
    exact ⟨rfl, rfl⟩
  · have he : bn - ndirect < nindirect := by
      have := hf.le_maxfile
      have hmax : maxfile = ndirect + nindirect := rfl
      omega
    have hind : (s.icache i).ind ≠ 0 := hf.ind.mpr (by omega)
    rw [fileBlock_some (slotOf_entry hd he), ptr, if_neg hind] at h0 ⊢
    simp only [bmap, bmapIndirect, inode, wp_bind, wp_gets, dif_neg hd, if_pos he]
    rw [if_neg (show (s.icache i).addrs (Fin.last ndirect) ≠ 0 from hind)]
    simp only [wp_pure, bread, wp_bind, wp_gets, wp_ite]
    exact ⟨fun hz => absurd hz (toNat_ne_zero.mp h0), fun _ => ⟨rfl, trivial⟩⟩

def State.setNode (s : State) (d : Disk) (i : Fin ninode) (x : Dinode) : State :=
  ⟨d, update s.icache i { s.icache i with toDinode := x }⟩

theorem Balloced.mapped_direct {a : UInt32} (hb : Balloced sb s.disk d a.toNat) (h : Cached sb N i s)
    (hf : Filled s.disk (s.icache i).toDinode bn) (hd : bn < ndirect) {x : Dinode}
    (hx : x = { (s.icache i).toDinode with
      addrs := update (s.icache i).addrs (Fin.castSucc ⟨bn, hd⟩) a }) :
    Mapped sb N i bn bn s (s.setNode d i x) a x := by
  subst hx
  have hslot := slotOf_direct hd
  have h0 : ptr s.disk (s.icache i).toDinode (.direct ⟨bn, hd⟩) = 0 := by
    rw [← fileBlock_some hslot]
    exact not_not.mp ((hf.block bn).not.mpr (lt_irrefl bn))
  have hatt : Attached s.disk d (s.icache i).toDinode _ _ _ := attached_direct ⟨bn, hd⟩ a fun hne => by
    have := Owned.ind_used h.owns h.inum_lt (by rw [h.node]; exact h.type) (by rw [h.node]; exact hne)
    rw [h.node] at this
    exact hb.data_used this.1 this.2.2
  have hpos : a.toNat ≠ 0 := by have := h.owns.pos; have := hb.lo; omega
  refine ⟨rfl, rfl, ?_, ?_, ?_, fun k hk => ?_, fun c hc hlt hu _ => ⟨hb.data_used hc hu, ?_⟩, fun _ => hb.zero,
    hb.nodes, by omega⟩
  · exact hb.attach h.owns h.inum_lt (by rw [h.node]; exact h.type) h.type (by rw [h.node]; exact hatt)
      (by rw [h.node]; exact h0)
  · rw [max_eq_right (by omega)]
    refine Filled.attach hf.block hatt hslot hpos ?_
    rw [ind_update_direct, hf.ind]
    omega
  · exact (fileBlock_attached hatt hslot bn).trans (if_pos rfl)
  · exact (fileBlock_attached hatt hslot k).trans (if_neg (by omega))
  · show inUse sb d c = true
    rw [hb.bits c hlt, hu, Bool.or_true]

theorem bmap_direct (h : Cached sb N i s) (hf : Filled s.disk (s.icache i).toDinode bn) (hd : bn < ndirect) :
    wp (bmap sb i bn) (fun a t => ∃ x, Mapped sb N i bn bn s t a x) BmapPanic s := by
  have h0 : (s.icache i).addrs (Fin.castSucc ⟨bn, hd⟩) = 0 := by
    have := (hf.block bn).not.mpr (lt_irrefl bn)
    rw [fileBlock_some (slotOf_direct hd), ptr, Ne, Decidable.not_not] at this
    rwa [← UInt32.toNat_inj, UInt32.toNat_zero]
  simp only [bmap, inode, wp_bind, wp_gets, dif_pos hd]
  rw [if_pos h0, wp_bind]
  refine (balloc_spec h.owns).mono ?_ (fun e he => .inl he)
  rintro a t ⟨hic, hb⟩
  simp only [setAddr, inode, setInode, wp_bind, wp_gets, wp_update, wp_pure, hic]
  exact ⟨_, hb.mapped_direct h hf hd rfl⟩

/-- What `bmapIndirect` does: the inode `x` it leaves has the indirect block `a`, and the file blocks
are as before. -/
structure Indirected (sb : Layout) (N : Nat → Dinode) (i : Fin ninode) (s t : State) (a : UInt32) (x : Dinode) :
    Prop where
  icache : t.icache = update s.icache i { s.icache i with toDinode := x }
  rest : x = { (s.icache i).toDinode with addrs := x.addrs }
  owns : Owns sb t.disk (update N (s.icache i).inum x) ∅
  ind : x.ind = a
  pos : a ≠ 0
  same : ∀ k, fileBlock t.disk x k = fileBlock s.disk (s.icache i).toDinode k
  keep : ∀ c, sb.nmeta ≤ c → c < sb.size → inUse sb s.disk c = true →
    t.disk c = s.disk c ∧ inUse sb t.disk c = true
  old : (s.icache i).ind ≠ 0 → x = (s.icache i).toDinode
  new : (s.icache i).ind = 0 → inUse sb s.disk a.toNat = false
  nodes : ∀ j, j < sb.ninodes → dinode sb t.disk j = dinode sb s.disk j

theorem Balloced.indirected {a : UInt32} (hb : Balloced sb s.disk d a.toNat) (h : Cached sb N i s)
    (h0 : (s.icache i).ind = 0) {x : Dinode}
    (hx : x = { (s.icache i).toDinode with addrs := update (s.icache i).addrs (Fin.last ndirect) a }) :
    Indirected sb N i s (s.setNode d i x) a x := by
  subst hx
  have hatt : Attached s.disk d (s.icache i).toDinode _ _ _ := attached_indirect a h0 hb.zero
  have hpos : a.toNat ≠ 0 := by have := h.owns.pos; have := hb.lo; omega
  refine ⟨rfl, rfl, ?_, by simp [Dinode.ind], toNat_ne_zero.mp hpos, ?_, fun c hc hlt hu => ?_,
    fun hne => absurd h0 hne, fun _ => hb.free, hb.nodes⟩
  · exact hb.attach h.owns h.inum_lt (by rw [h.node]; exact h.type) h.type (by rw [h.node]; exact hatt)
      (by rw [h.node, ptr, h0]; rfl)
  · refine fileBlock_congr fun sl hsl => ?_
    exact (hatt sl).trans (if_neg hsl)
  · exact ⟨hb.data_used hc hu, (hb.bits c hlt).trans (by rw [hu, Bool.or_true])⟩

theorem Cached.indirected_self (h : Cached sb N i s) (h0 : (s.icache i).ind ≠ 0) :
    Indirected sb N i s s (s.icache i).ind (s.icache i).toDinode := by
  refine ⟨(update_eq_self i s.icache).symm, rfl, ?_, rfl, h0, fun _ => rfl,
    fun c _ _ hu => ⟨rfl, hu⟩, fun _ => rfl, fun hn => absurd hn h0, fun _ _ => rfl⟩
  rw [← h.node, update_eq_self]
  exact h.owns

theorem bmapIndirect_spec (h : Cached sb N i s) :
    wp (bmapIndirect sb i) (fun a t => ∃ x, Indirected sb N i s t a x) BmapPanic s := by
  simp only [bmapIndirect, inode, wp_bind, wp_gets]
  rw [wp_ite]
  refine ⟨fun h0 => ?_, fun h0 => ?_⟩
  · rw [wp_bind]
    refine (balloc_spec h.owns).mono ?_ (fun e he => .inl he)
    rintro a t ⟨hic, hb⟩
    simp only [setAddr, inode, setInode, wp_bind, wp_gets, wp_update, wp_pure, hic]
    exact ⟨_, hb.indirected h h0 rfl⟩
  · rw [wp_pure]
    exact ⟨_, h.indirected_self h0⟩

theorem Indirected.ind_used {a : UInt32} (h : Indirected sb N i s t a x) (hc : Cached sb N i s) :
    sb.nmeta ≤ x.ind.toNat ∧ x.ind.toNat < sb.size ∧ inUse sb t.disk x.ind.toNat = true := by
  have hx : update N (s.icache i).inum x (s.icache i).inum = x := update_self ..
  have := Owned.ind_used h.owns hc.inum_lt (by rw [hx]; exact h.rest ▸ hc.type) (by rw [hx, h.ind]; exact h.pos)
  rwa [hx] at this

theorem Owned.ind_ne (ho : Owns sb d N X) (hj : j < sb.ninodes) (ht : (N j).type ≠ 0) (hk : k < sb.ninodes)
    (htk : (N k).type ≠ 0) (hk0 : (N k).ind ≠ 0) (hne : k ≠ j) : (N k).ind.toNat ≠ (N j).ind.toNat := fun e => by
  have := ho.inj (k, .indirect) (j, .indirect) (by rw [table_live hk htk]; exact toNat_ne_zero.mpr hk0)
    (by rw [table_live hk htk, table_live hj ht]; exact e)
  exact hne (congrArg Prod.fst this)

theorem Balloced.attach_entry {a : UInt32} (h : Balloced sb d d' a.toNat) (ho : Owns sb d N ∅)
    (hj : j < sb.ninodes) (hx : N j = x) (ht : x.type ≠ 0) (h0 : x.ind ≠ 0) (k : Fin nindirect)
    (hk : getAddr (d x.ind.toNat) k = 0) :
    Owns sb (update d' x.ind.toNat (putAddr (d x.ind.toNat) k a)) N ∅ := by
  subst hx
  obtain ⟨hlo, -, hu⟩ := Owned.ind_used ho hj ht h0
  have hkeep := h.data_used hlo hu
  have hown : Owns sb d' N (insert a.toNat ∅) := h.owns ho
  have hatt := attached_entry (d := d') (update d' (N j).ind.toNat
    (putAddr (d (N j).ind.toNat) k a)) k a h0 (by rw [update_self, hkeep])
  rw [Owns, table_attach (.entry k) a.toNat hj ht ht (fun _ _ => rfl) ?_ hatt]
  · refine (hown.attach (Set.notMem_empty _) ?_).of_used fun c hc => inUse_of_data sb d' _ hc hlo
    rw [table_live hj ht, ptr, if_neg h0, hkeep, hk]
    rfl
  · intro k' hne hk' htk hk0
    rw [update_of_ne (Owned.ind_ne hown hj ht hk' htk hk0 hne)]

theorem Balloced.mapped_entry {a b : UInt32} (hb : Balloced sb t.disk d b.toNat)
    (hx : Indirected sb N i s t a x) (h : Cached sb N i s) (hf : Filled s.disk (s.icache i).toDinode bn)
    (hd : ¬ bn < ndirect) (he : bn - ndirect < nindirect) :
    Mapped sb N i bn bn s
      { t with disk := update d a.toNat (putAddr (t.disk a.toNat) (bn - ndirect) b) } b x := by
  have hslot := slotOf_entry hd he
  have hnz : x.ind ≠ 0 := hx.ind ▸ hx.pos
  have ht : x.type ≠ 0 := hx.rest ▸ h.type
  obtain ⟨hlo, hhi, hu⟩ := hx.ind_used h
  have h0 : getAddr (t.disk x.ind.toNat) (bn - ndirect) = 0 := by
    have := (hf.block bn).not.mpr (lt_irrefl bn)
    rw [← hx.same bn, fileBlock_some hslot, ptr, if_neg hnz, Ne, Decidable.not_not] at this
    rwa [← UInt32.toNat_inj, UInt32.toNat_zero]
  have hpos : b.toNat ≠ 0 := by have := h.owns.pos; have := hb.lo; omega
  have hne : b.toNat ≠ x.ind.toNat := fun e => by
    rw [← e, hb.free] at hu
    cases hu
  have hatt : Attached t.disk _ x x (.entry ⟨bn - ndirect, he⟩) b.toNat :=
    attached_entry (update d x.ind.toNat (putAddr (t.disk x.ind.toNat) (bn - ndirect) b))
      _ b hnz (by simp)
  rw [← hx.ind]
  refine ⟨hx.icache, hx.rest, ?_, ?_, ?_, fun k hk => ?_, fun c hc hlt hcu hci => ?_,
    fun _ => (update_of_ne hne ..).trans hb.zero, fun j hj => ?_, by omega⟩
  · exact hb.attach_entry hx.owns h.inum_lt (update_self ..) ht hnz ⟨bn - ndirect, he⟩ h0
  · rw [max_eq_right (by omega)]
    exact Filled.attach (fun k => by rw [hx.same, hf.block]) hatt hslot hpos (iff_of_true hnz (by omega))
  · rw [fileBlock_attached hatt hslot, if_pos rfl]
  · rw [fileBlock_attached hatt hslot, if_neg (by omega), hx.same]
  · obtain ⟨hck, hcu'⟩ := hx.keep c hc hlt hcu
    have hcx : c ≠ x.ind.toNat := by
      by_cases hold : (s.icache i).ind = 0
      · rintro rfl
        rw [hx.ind, hx.new hold] at hcu
        cases hcu
      · rwa [hx.old hold]
    refine ⟨?_, ?_⟩
    · show update d _ _ c = _
      rw [update_of_ne hcx, hb.data_used hc hcu', hck]
    · rw [inUse_of_data sb _ _ hlt hlo, hb.bits c hlt, hcu', Bool.or_true]
  · rw [dinode_of_data sb _ _ hj hlo, hb.nodes j hj, hx.nodes j hj]

theorem bmap_entry (h : Cached sb N i s) (hf : Filled s.disk (s.icache i).toDinode bn) (hd : ¬ bn < ndirect)
    (he : bn - ndirect < nindirect) :
    wp (bmap sb i bn) (fun a t => ∃ x, Mapped sb N i bn bn s t a x) BmapPanic s := by
  simp only [bmap, inode, wp_bind, wp_gets, dif_neg hd, if_pos he]
  refine (bmapIndirect_spec h).mono ?_ (fun _ => id)
  rintro a t ⟨x, hx⟩
  have hnz : x.ind ≠ 0 := hx.ind ▸ hx.pos
  have h0 : getAddr (t.disk a.toNat) (bn - ndirect) = 0 := by
    have := (hf.block bn).not.mpr (lt_irrefl bn)
    rw [← hx.same bn, fileBlock_some (slotOf_entry hd he), ptr, if_neg hnz, Ne, Decidable.not_not, hx.ind] at this
    rwa [← UInt32.toNat_inj, UInt32.toNat_zero]
  simp only [bread, wp_bind, wp_gets]
  rw [if_pos h0]
  refine wp_bind.mpr ((balloc_spec hx.owns).mono ?_ (fun e he => .inl he))
  rintro b t' ⟨hic, hb⟩
  simp only [logWrite, wp_bind, wp_update, wp_pure, hic]
  exact ⟨x, hb.mapped_entry hx h hf hd he⟩

theorem bmap_spec (h : Cached sb N i s) (hf : Filled s.disk (s.icache i).toDinode m) (hbn : bn ≤ m) :
    wp (bmap sb i bn) (fun a t => ∃ x, Mapped sb N i m bn s t a x) BmapPanic s := by
  obtain hlt | rfl := hbn.lt_or_eq
  · refine (bmap_old hf hlt).mono (fun a t ⟨ha, ht⟩ => ?_) (fun _ => False.elim)
    subst ht
    exact ⟨_, h.mapped_self hf hlt ha.symm⟩
  · by_cases hd : bn < ndirect
    · exact bmap_direct h hf hd
    · by_cases he : bn - ndirect < nindirect
      · exact bmap_entry h hf hd he
      · simp [bmap, inode, hd, he, Fs.panic, BmapPanic]

end Xv6.Fs
