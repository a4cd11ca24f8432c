import Xv6.Fs.Consistent

namespace Xv6.Fs

open Lib Lib.Bytes Lib.Ownership
open Lib.Exec hiding update
open Function (update update_eq_self update_idem update_of_ne update_self)

variable {sb : Layout} {d d' : Disk} {N : Nat → Dinode} {X : Set Nat} {s t u : State} {i : Fin ninode}
  {x y : Dinode} {j : Nat}

theorem Owned.clear (ho : Owns sb d N X) (hj : j < sb.ninodes) (ht : (N j).type ≠ 0) (S : Slot → Prop)
    (hx : x.type ≠ 0) (hS : ∀ sl, (S sl → ptr d x sl = 0) ∧ (¬ S sl → ptr d x sl = ptr d (N j) sl)) :
    Owns sb d (update N j x) (X ∪ {b | b ≠ 0 ∧ ∃ sl, S sl ∧ ptr d (N j) sl = b}) := by
  have hset : {b | b ≠ 0 ∧ ∃ sl, S sl ∧ ptr d (N j) sl = b} =
      {b | b ≠ 0 ∧ ∃ k : Nat × Slot, (k.1 = j ∧ S k.2) ∧ table sb d N k = b} := by
    ext b
    refine and_congr_right fun _ => ⟨?_, ?_⟩
    · rintro ⟨sl, hsl, rfl⟩
      exact ⟨(j, sl), ⟨rfl, hsl⟩, table_live hj ht sl⟩
    · rintro ⟨⟨k, sl⟩, ⟨rfl, hsl⟩, rfl⟩
      exact ⟨sl, hsl, (table_live hj ht sl).symm⟩
  rw [hset]
  refine Ownership.Owned.detach ho _ fun ⟨k, sl⟩ => ?_
  by_cases hk : k = j
  · subst hk
    rw [table_live hj ht, table_live hj (by rwa [update_self]), update_self]
    simpa using hS sl
  · simp [table, hk]

/-- Blocks of inode `i` have been freed, and only the inode and the free map have changed. -/
structure Trunced (sb : Layout) (N : Nat → Dinode) (i : Fin ninode) (s t : State) (x : Dinode) : Prop where
  icache : t.icache = update s.icache i { s.icache i with toDinode := x }
  owns : Owns sb t.disk (update N (s.icache i).inum x) ∅
  data : ∀ c, sb.nmeta ≤ c → t.disk c = s.disk c
  nodes : ∀ k, k < sb.ninodes → dinode sb t.disk k = dinode sb s.disk k

theorem Trunced.refl (hc : Cached sb N i s) : Trunced sb N i s s (s.icache i).toDinode where
  icache := (update_eq_self i s.icache).symm
  owns := by rw [← hc.node, update_eq_self]; exact hc.owns
  data _ _ := rfl
  nodes _ _ := rfl

theorem Trunced.cached (h : Trunced sb N i s t x) (hc : Cached sb N i s) (hx : x.type ≠ 0) :
    Cached sb (update N (s.icache i).inum x) i t where
  inum_lt := by simpa [h.icache] using hc.inum_lt
  node := by simp [h.icache]
  type := by rw [h.icache]; simpa using hx
  owns := h.owns

theorem Trunced.trans (h : Trunced sb N i s t x)
    (h' : Trunced sb (update N (s.icache i).inum x) i t u y) : Trunced sb N i s u y := by
  have hx : t.icache i = { s.icache i with toDinode := x } := by rw [h.icache, update_self]
  refine ⟨?_, ?_, fun c hc => by rw [h'.data c hc, h.data c hc], fun k hk => by rw [h'.nodes k hk, h.nodes k hk]⟩
  · rw [h'.icache, hx, h.icache, update_idem]
  · have := h'.owns
    rwa [hx, update_idem] at this

theorem Cached.type_node (hc : Cached sb N i s) : (N (s.icache i).inum).type ≠ 0 := by
  rw [hc.node]
  exact hc.type

theorem ptr_clear_direct (k : Fin ndirect) (sl : Slot) :
    ptr d { x with addrs := update x.addrs k.castSucc 0 } sl = if sl = .direct k then 0 else ptr d x sl :=
  attached_direct k 0 (fun _ => rfl) sl

theorem truncDirect_round (hc : Cached sb N i s) (k : Fin ndirect) (h0 : (s.icache i).addrs k.castSucc ≠ 0) :
    wp (do bfree sb ((s.icache i).addrs k.castSucc).toNat; setAddr i k.castSucc 0)
      (fun _ t => Trunced sb N i s t
        { (s.icache i).toDinode with addrs := update (s.icache i).addrs k.castSucc 0 })
      (fun _ => False) s := by
  have hown := Owned.clear (x := { (s.icache i).toDinode with
      addrs := update (s.icache i).addrs k.castSucc 0 }) hc.owns hc.inum_lt hc.type_node
    (fun sl => sl = .direct k) hc.type fun sl => by
      rw [ptr_clear_direct, hc.node]
      exact ⟨fun h => if_pos h, fun h => if_neg h⟩
  have hset : ∅ ∪ {b | b ≠ 0 ∧ ∃ sl, sl = Slot.direct k ∧ ptr s.disk (N (s.icache i).inum) sl = b} =
      {((s.icache i).addrs k.castSucc).toNat} := by
    ext b
    rw [Set.empty_union, hc.node]
    constructor
    · rintro ⟨-, sl, rfl, rfl⟩
      rfl
    · rintro rfl
      exact ⟨toNat_ne_zero.mpr h0, .direct k, rfl, rfl⟩
  rw [hset] at hown
  rw [wp_bind]
  refine (bfree_spec hown rfl).imp fun _ t ⟨hic, hfreed, ho⟩ => ?_
  simp only [setAddr, inode, setInode, wp_bind, wp_gets, wp_update, hic]
  refine ⟨rfl, ?_, hfreed.data, hfreed.nodes⟩
  rwa [Set.sdiff_self] at ho

def Dinode.clear (x : Dinode) (ks : List (Fin ndirect)) : Dinode :=
  { x with addrs := fun k => if k ∈ ks.map Fin.castSucc then 0 else x.addrs k }

theorem clear_update (k : Fin ndirect) (ks : List (Fin ndirect)) :
    ({ x with addrs := update x.addrs k.castSucc 0 } : Dinode).clear ks = x.clear (k :: ks) := by
  simp only [Dinode.clear, List.map_cons, List.mem_cons, Dinode.mk.injEq, true_and]
  funext l
  by_cases hl : l = k.castSucc
  · simp [hl]
  · simp [hl]

theorem clear_cons {k : Fin ndirect} (h : x.addrs k.castSucc = 0) (ks : List (Fin ndirect)) :
    x.clear ks = x.clear (k :: ks) := by
  rw [← clear_update, ← h, update_eq_self]

theorem truncDirect_spec (hc : Cached sb N i s) (ks : List (Fin ndirect)) :
    wp (truncDirect sb i (ks.map Fin.castSucc))
      (fun _ t => Trunced sb N i s t ((s.icache i).toDinode.clear ks)) (fun _ => False) s := by
  induction ks generalizing s N with
  | nil => exact Trunced.refl hc
  | cons k ks ih =>
      simp only [List.map_cons, truncDirect, inode, wp_bind, wp_gets]
      rw [wp_ite]
      refine ⟨fun h0 => ?_, fun h0 => ?_⟩
      · have hround := truncDirect_round hc k h0
        rw [wp_bind] at hround ⊢
        refine hround.imp fun _ t ht => wp_bind.mpr (ht.imp fun _ u hu => ?_)
        refine (ih (hu.cached hc hc.type)).imp fun _ v hv => ?_
        rw [hu.icache, update_self, clear_update] at hv
        exact hu.trans hv
      · rw [← clear_cons (not_not.mp h0)]
        exact ih hc

theorem truncEntries_spec {as : List UInt32} (ho : Owns sb s.disk N X) (hX : ∀ a ∈ as, a ≠ 0 → a.toNat ∈ X)
    (hne : as.Pairwise fun a b => a ≠ 0 → a ≠ b) :
    wp (truncEntries sb as)
      (fun _ t => t.icache = s.icache ∧ (∀ c, sb.nmeta ≤ c → t.disk c = s.disk c) ∧
        (∀ k, k < sb.ninodes → dinode sb t.disk k = dinode sb s.disk k) ∧
        Owns sb t.disk N (X \ {b | ∃ a ∈ as, a ≠ 0 ∧ a.toNat = b}))
      (fun _ => False) s := by
  induction as generalizing s X with
  | nil => simpa [truncEntries] using ho
  | cons a as ih =>
      rw [List.pairwise_cons] at hne
      rw [truncEntries, wp_ite]
      refine ⟨fun h0 => ?_, fun h0 => ?_⟩
      · rw [wp_bind]
        refine (bfree_spec ho (hX a (by simp) h0)).imp fun _ t ⟨hic, hfreed, ho'⟩ => ?_
        refine (ih ho' (fun b hb hb0 => ⟨hX b (by simp [hb]) hb0, fun e => ?_⟩) hne.2).imp
          fun _ u ⟨hic', hdata, hnodes, hou⟩ => ⟨hic'.trans hic, fun c hc => ?_, fun k hk => ?_, ?_⟩
        · exact hne.1 b hb h0 (UInt32.toNat_inj.mp e).symm
        · rw [hdata c hc, hfreed.data c hc]
        · rw [hnodes k hk, hfreed.nodes k hk]
        · convert hou using 1
          ext b
          constructor
          · rintro ⟨hb, hn⟩
            exact ⟨⟨hb, fun e => hn ⟨a, by simp, h0, e.symm⟩⟩, fun ⟨c, hc, hc0, e⟩ => hn ⟨c, by simp [hc], hc0, e⟩⟩
          · rintro ⟨⟨hb, hna⟩, hn⟩
            refine ⟨hb, ?_⟩
            rintro ⟨c, hc, hc0, rfl⟩
            rcases List.mem_cons.mp hc with rfl | hc
            · exact hna rfl
            · exact hn ⟨c, hc, hc0, rfl⟩
      · rw [not_not] at h0
        subst h0
        refine (ih ho (fun b hb => hX b (by simp [hb])) hne.2).imp fun _ u ⟨hic, hdata, hnodes, hou⟩ =>
          ⟨hic, hdata, hnodes, ?_⟩
        simpa using hou

theorem mem_entries {b : Block} {a : UInt32} : a ∈ entries b ↔ ∃ k : Fin nindirect, getAddr b k = a := by
  simp only [entries, List.mem_map, List.mem_range]
  exact ⟨fun ⟨k, hk, h⟩ => ⟨⟨k, hk⟩, h⟩, fun ⟨k, h⟩ => ⟨k, k.isLt, h⟩⟩

theorem Owned.entry_inj (ho : Owns sb d N X) (hj : j < sb.ninodes) (ht : (N j).type ≠ 0) (h0 : (N j).ind ≠ 0)
    {k : Fin nindirect} (hk : getAddr (d (N j).ind.toNat) k ≠ 0) :
    getAddr (d (N j).ind.toNat) k ≠ (N j).ind ∧
      ∀ l : Fin nindirect, getAddr (d (N j).ind.toNat) k = getAddr (d (N j).ind.toNat) l → k = l := by
  have hent (l : Fin nindirect) : table sb d N (j, .entry l) = (getAddr (d (N j).ind.toNat) l).toNat := by
    rw [table_live hj ht, ptr, if_neg h0]
  have hk0 : table sb d N (j, .entry k) ≠ 0 := by rw [hent]; exact toNat_ne_zero.mpr hk
  refine ⟨fun e => ?_, fun l e => ?_⟩
  · have := ho.inj (j, .entry k) (j, .indirect) hk0 (by rw [hent, table_live hj ht, ptr, e])
    cases congrArg Prod.snd this
  · have := ho.inj (j, .entry k) (j, .entry l) hk0 (by rw [hent, hent, e])
    exact Slot.entry.inj (congrArg Prod.snd this)

theorem ptr_clear_indirect (sl : Slot) :
    ptr d { x with addrs := update x.addrs (Fin.last ndirect) 0 } sl =
      match sl with
      | .direct k => ptr d x (.direct k)
      | _ => 0 := by
  cases sl with
  | direct k => simp [ptr, Fin.castSucc_ne_last k]
  | indirect => simp [ptr, Dinode.ind]
  | entry k => simp [ptr, Dinode.ind]

theorem truncIndirect_spec (hc : Cached sb N i s) :
    wp (truncIndirect sb i)
      (fun _ t => Trunced sb N i s t
        { (s.icache i).toDinode with addrs := update (s.icache i).addrs (Fin.last ndirect) 0 })
      (fun _ => False) s := by
  simp only [truncIndirect, inode, wp_bind, wp_gets]
  rw [wp_ite]
  refine ⟨fun h0 => ?_, fun h0 => ?_⟩
  · have hown := Owned.clear (x := { (s.icache i).toDinode with
        addrs := update (s.icache i).addrs (Fin.last ndirect) 0 }) hc.owns hc.inum_lt hc.type_node
      (fun sl => ∀ k, sl ≠ .direct k) hc.type fun sl => by
        rw [ptr_clear_indirect, hc.node]
        cases sl <;> simp
    have hinj (k : Fin nindirect) := Owned.entry_inj hc.owns hc.inum_lt hc.type_node (by rwa [hc.node]) (k := k)
    rw [Set.empty_union] at hown
    simp only [hc.node] at hown hinj
    simp only [bread, wp_bind, wp_gets]
    refine (truncEntries_spec hown (fun a ha ha0 => ?_) ?_).imp fun _ t ⟨hic, hdata, hnodes, ho⟩ => ?_
    · obtain ⟨k, rfl⟩ := mem_entries.mp ha
      exact ⟨toNat_ne_zero.mpr ha0, .entry k, by simp, if_neg h0⟩
    · refine List.pairwise_map.mpr (List.pairwise_lt_range.imp_of_mem fun {k l} hk hl hlt ha e => ?_)
      have := (hinj ⟨k, List.mem_range.mp hk⟩ ha).2 ⟨l, List.mem_range.mp hl⟩ e
      simp only [Fin.mk.injEq] at this
      omega
    · rw [wp_bind]
      refine (bfree_spec ho ?_).imp fun _ u ⟨hic', hfreed, ho'⟩ => ?_
      · refine ⟨⟨toNat_ne_zero.mpr h0, .indirect, by simp, rfl⟩, ?_⟩
        rintro ⟨a, ha, ha0, e⟩
        obtain ⟨k, rfl⟩ := mem_entries.mp ha
        exact (hinj k ha0).1 (UInt32.toNat_inj.mp e)
      · simp only [setAddr, inode, setInode, wp_bind, wp_gets, wp_update, hic', hic]
        refine ⟨rfl, ?_, fun c hc => by rw [hfreed.data c hc, hdata c hc],
          fun k hk => by rw [hfreed.nodes k hk, hnodes k hk]⟩
        convert ho' using 1
        refine (Set.eq_empty_of_forall_notMem ?_).symm
        rintro b ⟨⟨⟨hb0, sl, hsl, rfl⟩, hnot⟩, hind⟩
        cases sl with
        | direct k => exact hsl k rfl
        | indirect => exact hind rfl
        | entry k =>
            have hptr : ptr s.disk (s.icache i).toDinode (.entry k) = (getAddr _ k).toNat := if_neg h0
            rw [hptr] at hb0 hnot
            exact hnot ⟨_, mem_entries.mpr ⟨k, rfl⟩, toNat_ne_zero.mp hb0, rfl⟩
  · rw [not_not] at h0
    rw [wp_pure, ← h0, update_eq_self]
    exact Trunced.refl hc

def Dinode.truncated (x : Dinode) : Dinode := { x with size := 0, addrs := fun _ => 0 }

theorem clear_all : ({ x.clear (List.finRange ndirect) with
    addrs := update (x.clear (List.finRange ndirect)).addrs (Fin.last ndirect) 0, size := 0 } : Dinode) =
      x.truncated := by
  simp only [Dinode.truncated, Dinode.clear, Dinode.mk.injEq, true_and]
  funext k
  cases k using Fin.lastCases with
  | last => simp
  | cast k => simp [Fin.castSucc_ne_last k]

theorem itrunc_spec (hc : Cached sb N i s) :
    wp (itrunc sb i) (fun _ t =>
        t.icache = update s.icache i { s.icache i with toDinode := (s.icache i).truncated } ∧
        (∀ c, sb.nmeta ≤ c → t.disk c = s.disk c) ∧
        (∀ k, k < sb.ninodes → dinode sb t.disk k =
          if k = (s.icache i).inum then (s.icache i).truncated else dinode sb s.disk k) ∧
        Owns sb t.disk (update N (s.icache i).inum (s.icache i).truncated) ∅)
      (fun _ => False) s := by
  simp only [itrunc]
  rw [wp_bind]
  refine (truncDirect_spec hc _).imp fun _ t ht => ?_
  rw [wp_bind]
  have hct := ht.cached hc hc.type
  refine (truncIndirect_spec hct).imp fun _ u hu => ?_
  have hu := ht.trans hu
  simp only [ht.icache, update_self] at hu
  simp only [inode, setInode, iupdate, bread, logWrite, wp_bind, wp_gets, wp_update, update_self, hu.icache,
    update_idem]
  have hinum := hc.inum_lt
  refine ⟨?_, fun c hcb => ?_, fun k hk => ?_, ?_⟩
  · rw [← clear_all]
  · exact (putNode_data hinum hcb).trans (hu.data c hcb)
  · rw [← hu.nodes k hk, ← clear_all, ← putNode, dinode_putNode]
  · rw [← putNode]
    refine Owned.putNode (Owned.of_addrs hu.owns ?_ Iff.rfl) hinum
    rw [← clear_all]

def Inode.Dying (ip : Inode) : Prop := ip.ref = 1 ∧ ip.valid = true ∧ ip.nlink = 0

def Dinode.freed (x : Dinode) : Dinode := { x.truncated with type := 0 }

structure Freed (sb : Layout) (i : Fin ninode) (s t : State) : Prop where
  icache : t.icache = update s.icache i
    { s.icache i with toDinode := (s.icache i).freed, ref := 0, valid := false }
  data : ∀ c, sb.nmeta ≤ c → t.disk c = s.disk c
  nodes : ∀ k, k < sb.ninodes → dinode sb t.disk k =
    if k = (s.icache i).inum then (s.icache i).freed else dinode sb s.disk k

theorem Freed.consistent (hf : Freed sb i s t) (h : Consistent sb s) (hr : 0 < (s.icache i).ref)
    (ho : Owns sb t.disk (update (dinode sb s.disk) (s.icache i).inum (s.icache i).freed) ∅) :
    Consistent sb t := by
  have htouch : Touched sb (s.icache i).inum (s.icache i).freed s.disk t.disk :=
    ⟨hf.nodes, fun k hk _ ht sl h0 => hf.data _ (Owned.ptr_used h.owns hk ht h0).1⟩
  have hother (k) (hk : 0 < (t.icache k).ref) : k ≠ i := by
    rintro rfl
    simp [hf.icache] at hk
  refine ⟨htouch.owns ho, fun k hk => htouch.filled h.filled (fun ht => absurd rfl ht) hk, fun k hrk hvk => ?_,
    h.cache.of_le fun k hk => ?_⟩
  · have hk := hother k hrk
    simp only [hf.icache, update_of_ne hk] at hrk hvk ⊢
    have hne : (s.icache k).inum ≠ (s.icache i).inum := fun e => hk (h.cache.unique k i hrk hr e)
    rw [hf.nodes _ (h.cache.inum_lt k hrk), if_neg hne, h.agree k hrk hvk]
  · have hki := hother k hk
    simp only [hf.icache, update_of_ne hki] at hk ⊢
    exact ⟨hk, trivial, h.cache.live k hk⟩

theorem Owned.freed (ho : Owns sb d (update N j x.truncated) X) :
    Owns sb d (update N j x.freed) X := by
  have htab : table sb d (update N j x.freed) = table sb d (update N j x.truncated) := by
    funext ⟨k, sl⟩
    by_cases hk : k = j
    · subst hk
      have hptr : ptr d x.truncated sl = 0 := by cases sl <;> simp [ptr, Dinode.truncated, Dinode.ind]
      simp [table, Dinode.freed, hptr]
    · simp only [table, update_of_ne hk]
  rw [Owns, htab]
  exact ho

def State.setRef (s : State) (i : Fin ninode) (n : Nat) : State :=
  { s with icache := update s.icache i { s.icache i with ref := n } }

theorem Consistent.setRef (h : Consistent sb s) (hr : 0 < (s.icache i).ref) (n : Nat) :
    Consistent sb (s.setRef i n) := by
  refine h.of_cache fun k hk => ?_
  by_cases hki : k = i
  · subst hki
    simpa [State.setRef] using hr
  · simpa [State.setRef, hki] using hk

theorem iput_spec (h : Consistent sb s) (hr : 0 < (s.icache i).ref) :
    wp (iput sb i) (fun _ t => Consistent sb t ∧ ((s.icache i).Dying → Freed sb i s t) ∧
        (¬ (s.icache i).Dying → t = s.setRef i ((s.icache i).ref - 1)))
      (fun _ => False) s := by
  simp only [iput, inode, wp_bind, wp_gets]
  rw [wp_ite]
  refine ⟨fun hd => ?_, fun hd => ?_⟩
  · rw [wp_bind]
    refine (itrunc_spec (h.cached hr hd.2.1)).imp ?_
    rintro _ t ⟨hic, hdata, hnodes, ho⟩
    have hinum := h.cache.inum_lt i hr
    simp only [setInode, iupdate, inode, bread, logWrite, wp_bind, wp_gets, wp_update, update_self, hic,
      update_idem]
    have hfreed : Freed sb i s ⟨putNode sb t.disk (s.icache i).inum (s.icache i).freed, update s.icache i
        { s.icache i with toDinode := (s.icache i).freed, ref := 0, valid := false }⟩ := by
      refine ⟨rfl, fun c hc => (putNode_data hinum hc).trans (hdata c hc), fun k hk => ?_⟩
      rw [dinode_putNode, hnodes k hk]
      split <;> rfl
    have hcons := hfreed.consistent h hr (Owned.putNode (Owned.freed ho) hinum)
    rw [show (s.icache i).ref - 1 = 0 by rw [hd.1]]
    exact ⟨hcons, fun _ => hfreed, fun hnd => absurd hd hnd⟩
  · exact ⟨h.setRef hr _, fun hd' => absurd hd' hd, fun _ => rfl⟩

end Xv6.Fs
