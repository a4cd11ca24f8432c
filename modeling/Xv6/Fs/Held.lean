import Xv6.Fs.DirMap
import Xv6.Fs.Refs

namespace Xv6.Fs

open Lib Lib.RefCount
open Lib.Exec hiding update
open Function (update update_apply update_eq_self update_of_ne update_self)

variable {sb : Layout} {b J : Fin ninode → Nat} {s t : State} {i : Fin ninode} {j n : Nat} {l : Bool}

/-- A reference to an inode that a call holds: the cache entry, the number of the inode, and whether the
call has locked it. -/
structure Hold where
  ip : Fin ninode
  inum : Nat
  locked : Bool

variable {x : Hold} {L L' : List Hold}

/-- The state in a call that holds the references `L`, while the tables of the kernel have `b i` references to
the inode with number `J i` at entry `i`. Whatever is in use has a name or a valid cache entry. -/
structure Held (sb : Layout) (b J : Fin ninode → Nat) (L : List Hold) (s : State) : Prop where
  consistent : Consistent sb s
  exact : Exact (fun i => (s.icache i).ref) b (L.map Hold.ip)
  base : ∀ i, 0 < b i → (s.icache i).inum = J i
  held : ∀ x ∈ L, (s.icache x.ip).inum = x.inum ∧ (x.locked = true → (s.icache x.ip).valid = true)
  named : ∀ j, (tree sb s.disk j).Orphan → ∃ i, 0 < (s.icache i).ref ∧ (s.icache i).inum = j ∧
    (s.icache i).valid = true

def Used (s : State) (j : Nat) : Prop := ∃ i, 0 < (s.icache i).ref ∧ (s.icache i).inum = j

def Pinned (b J : Fin ninode → Nat) (L : List Hold) (j : Nat) : Prop :=
  (∃ i, 0 < b i ∧ J i = j) ∨ ∃ x ∈ L, x.inum = j

namespace Held

theorem ref_pos (h : Held sb b J L s) (hx : x ∈ L) : 0 < (s.icache x.ip).ref :=
  h.exact.pos (List.mem_map_of_mem hx)

theorem base_pos (h : Held sb b J L s) (hi : 0 < b i) : 0 < (s.icache i).ref := by
  have := h.exact i
  dsimp only at this
  omega

theorem perm (h : Held sb b J L s) (hp : L.Perm L') : Held sb b J L' s :=
  ⟨h.consistent, h.exact.perm (hp.map _), h.base, fun x hx => h.held x (hp.mem_iff.mpr hx), h.named⟩

theorem swap {x y : Hold} (h : Held sb b J (x :: y :: L) s) : Held sb b J (y :: x :: L) s := h.perm (.swap ..)

theorem unlock (h : Held sb b J (⟨i, j, l⟩ :: L) s) : Held sb b J (⟨i, j, false⟩ :: L) s := by
  refine ⟨h.consistent, h.exact, h.base, fun x hx => ?_, h.named⟩
  rcases List.mem_cons.mp hx with rfl | hx
  · exact ⟨(h.held _ List.mem_cons_self).1, fun hl => nomatch hl⟩
  · exact h.held x (List.mem_cons_of_mem _ hx)

theorem inum_lt (h : Held sb b J L s) (hx : x ∈ L) : x.inum < sb.ninodes :=
  (h.held x hx).1 ▸ h.consistent.cache.inum_lt _ (h.ref_pos hx)

theorem pinned_iff (h : Held sb b J L s) : Pinned b J L j ↔ Used s j := by
  constructor
  · rintro (⟨i, hi, rfl⟩ | ⟨x, hx, rfl⟩)
    · exact ⟨i, h.base_pos hi, h.base i hi⟩
    · exact ⟨x.ip, h.ref_pos hx, (h.held x hx).1⟩
  · rintro ⟨i, hi, hij⟩
    by_cases hb : 0 < b i
    · exact .inl ⟨i, hb, (h.base i hb).symm.trans hij⟩
    · have hc := h.exact i
      have hmem : i ∈ L.map Hold.ip := List.count_pos_iff.mp (by dsimp only at hc; omega)
      obtain ⟨x, hx, rfl⟩ := List.mem_map.mp hmem
      exact .inr ⟨x, hx, (h.held x hx).1.symm.trans hij⟩

theorem pinned (h : Held sb b J L s) (hj : (tree sb s.disk j).Orphan) : Pinned b J L j := by
  obtain ⟨i, hr, hij, -⟩ := h.named j hj
  exact h.pinned_iff.mpr ⟨i, hr, hij⟩

theorem node_eq (h : Held sb b J L s) (hx : x ∈ L) (hl : x.locked = true) :
    (s.icache x.ip).toDinode.node s.disk = tree sb s.disk x.inum := by
  have hr := h.ref_pos hx
  obtain ⟨hi, hv⟩ := h.held x hx
  rw [h.consistent.agree _ hr (hv hl), hi, tree_of_lt (h.inum_lt hx)]

theorem type_eq (h : Held sb b J L s) (hx : x ∈ L) (hl : x.locked = true) :
    (s.icache x.ip).type = (tree sb s.disk x.inum).type := by
  rw [← h.node_eq hx hl]
  rfl

theorem nlink_eq (h : Held sb b J L s) (hx : x ∈ L) (hl : x.locked = true) :
    (s.icache x.ip).nlink = (tree sb s.disk x.inum).nlink := by
  rw [← h.node_eq hx hl]
  rfl

theorem type_ne (h : Held sb b J L s) (hx : x ∈ L) (hl : x.locked = true) : (tree sb s.disk x.inum).type ≠ 0 := by
  rw [← h.type_eq hx hl]
  exact h.consistent.cache.live _ (h.ref_pos hx) ((h.held x hx).2 hl)

/-- The cache is changed at most where it has no references. What is new in `L'` and what has lost its name is
accounted for separately. -/
theorem frame (h : Held sb b J L s) (hc : Consistent sb t)
    (hx : Exact (fun i => (t.icache i).ref) b (L'.map Hold.ip))
    (hk : ∀ k, 0 < (s.icache k).ref → 0 < (t.icache k).ref →
      (t.icache k).inum = (s.icache k).inum ∧ ((s.icache k).valid = true → (t.icache k).valid = true))
    (hL : ∀ x ∈ L', x ∈ L ∨ (t.icache x.ip).inum = x.inum ∧ (x.locked = true → (t.icache x.ip).valid = true))
    (hn : ∀ j, (tree sb t.disk j).Orphan → (tree sb s.disk j).Orphan ∧
        (∀ i, 0 < (s.icache i).ref → (s.icache i).inum = j → 0 < (t.icache i).ref) ∨
      ∃ i, 0 < (t.icache i).ref ∧ (t.icache i).inum = j ∧ (t.icache i).valid = true) : Held sb b J L' t := by
  refine ⟨hc, hx, fun i hi => ?_, fun x hxL => ?_, fun j hj => ?_⟩
  · have ht : 0 < (t.icache i).ref := by
      have := hx i
      dsimp only at this
      omega
    rw [(hk i (h.base_pos hi) ht).1, h.base i hi]
  · rcases hL x hxL with hold | hnew
    · obtain ⟨hi, hv⟩ := hk _ (h.ref_pos hold) (hx.pos (List.mem_map_of_mem hxL))
      exact ⟨hi.trans (h.held x hold).1, fun hl => hv ((h.held x hold).2 hl)⟩
    · exact hnew
  · rcases hn j hj with ⟨ho, hr⟩ | hnew
    · obtain ⟨i, hi, hij, hv⟩ := h.named j ho
      obtain ⟨hi', hv'⟩ := hk i hi (hr i hi hij)
      exact ⟨i, hr i hi hij, hi'.trans hij, hv' hv⟩
    · exact hnew

theorem take (h : Held sb b J L s) (hi : 0 < (s.icache i).ref) (hij : (s.icache i).inum = j) :
    Held sb b J (⟨i, j, false⟩ :: L) (s.setRef i ((s.icache i).ref + 1)) := by
  have hkeep (k) : ((s.setRef i ((s.icache i).ref + 1)).icache k).inum = (s.icache k).inum ∧
      ((s.setRef i ((s.icache i).ref + 1)).icache k).valid = (s.icache k).valid := by
    by_cases hk : k = i
    · subst hk; simp [State.setRef]
    · simp [State.setRef, hk]
  have href (k) : ((s.setRef i ((s.icache i).ref + 1)).icache k).ref =
      update (fun k => (s.icache k).ref) i ((s.icache i).ref + 1) k := by
    by_cases hk : k = i
    · subst hk; simp [State.setRef]
    · simp [State.setRef, hk]
  refine h.frame (h.consistent.setRef hi _) ((h.exact.take i).congr href) (fun k _ _ => ?_) (fun x hx => ?_)
    fun k hk => .inl ⟨hk, fun m hm _ => ?_⟩
  · rw [(hkeep k).1, (hkeep k).2]
    exact ⟨rfl, id⟩
  · rcases List.mem_cons.mp hx with rfl | hx
    · exact .inr ⟨(hkeep i).1.trans hij, fun hl => (by cases hl)⟩
    · exact .inl hx
  · rw [href, update_apply]
    split <;> omega

theorem recycle (h : Held sb b J L s) (h0 : (s.icache i).ref = 0) (hc : Consistent sb (s.recycle i j)) :
    Held sb b J (⟨i, j, false⟩ :: L) (s.recycle i j) := by
  have hother (k) (hk : k ≠ i) : (s.recycle i j).icache k = s.icache k := update_of_ne hk ..
  have hself : (s.recycle i j).icache i = { s.icache i with dev := rootdev, inum := j, ref := 1, valid := false } :=
    update_self ..
  have hne (k) (hk : 0 < (s.icache k).ref) : k ≠ i := fun e => by
    rw [e, h0] at hk
    exact lt_irrefl 0 hk
  refine h.frame hc ((h.exact.take i).congr fun k => ?_) (fun k hk _ => ?_) (fun x hx => ?_)
    fun k hk => .inl ⟨hk, fun m hm _ => ?_⟩
  · by_cases hk : k = i
    · subst hk; simp [hself, h0]
    · simp [hother k hk, hk]
  · rw [hother k (hne k hk)]
    exact ⟨rfl, id⟩
  · rcases List.mem_cons.mp hx with rfl | hx
    · exact .inr ⟨by rw [hself], fun hl => nomatch hl⟩
    · exact .inl hx
  · rwa [hother m (hne m hm)]

theorem touch {y : Dinode} (h : Held sb b J L s) (hx : x ∈ L) (hl : x.locked = true)
    (hc : Consistent sb t) (ht : Touched sb x.inum y s.disk t.disk)
    (hi : t.icache = update s.icache x.ip { s.icache x.ip with toDinode := y }) :
    Held sb b J L t ∧ tree sb t.disk = update (tree sb s.disk) x.inum (y.node t.disk) := by
  have htree := ht.tree_eq (h.inum_lt hx) h.consistent.filled
  have hkeep (k) : (t.icache k).ref = (s.icache k).ref ∧ (t.icache k).inum = (s.icache k).inum ∧
      (t.icache k).valid = (s.icache k).valid := by
    by_cases hk : k = x.ip
    · subst hk; simp [hi]
    · simp [hi, hk]
  refine ⟨h.frame hc (h.exact.congr fun k => (hkeep k).1) (fun k _ _ => ?_) (fun _ hx => .inl hx)
    fun k hk => ?_, htree⟩
  · rw [(hkeep k).2.1, (hkeep k).2.2]
    exact ⟨rfl, id⟩
  · by_cases hkx : k = x.inum
    · obtain ⟨hinum, hv⟩ := h.held x hx
      refine .inr ⟨x.ip, ?_, ?_, ?_⟩
      · rw [(hkeep _).1]
        exact h.ref_pos hx
      · rw [(hkeep _).2.1, hinum, hkx]
      · rw [(hkeep _).2.2, hv hl]
    · rw [htree, update_of_ne hkx] at hk
      exact .inl ⟨hk, fun m hm _ => (hkeep m).1 ▸ hm⟩

theorem borrow (h : Held sb b J L s) (hi : 0 < b i) (hl : l = true → (s.icache i).valid = true) :
    Held sb (update b i (b i - 1)) J (⟨i, J i, l⟩ :: L) s := by
  refine ⟨h.consistent, fun k => ?_, fun k hk => h.base k ?_, fun x hx => ?_, h.named⟩
  · have hexact := h.exact k
    by_cases hk : k = i
    · subst hk
      rw [update_self, List.map_cons, List.count_cons_self]
      omega
    · rw [update_of_ne hk, List.map_cons, List.count_cons_of_ne (Ne.symm hk)]
      exact hexact
  · by_cases hki : k = i
    · rw [hki]
      exact hi
    · rwa [update_of_ne hki] at hk
  · rcases List.mem_cons.mp hx with rfl | hx
    · exact ⟨h.base i hi, hl⟩
    · exact h.held x hx

theorem giveBack (h : Held sb (update b i (b i - 1)) J (⟨i, J i, l⟩ :: L) s) (hi : 0 < b i) :
    Held sb b J L s := by
  have hmem : (⟨i, J i, l⟩ : Hold) ∈ (⟨i, J i, l⟩ : Hold) :: L := List.mem_cons_self
  refine ⟨h.consistent, fun k => ?_, fun k hk => ?_, fun x hx => h.held x (List.mem_cons_of_mem _ hx), h.named⟩
  · have hexact := h.exact k
    by_cases hk : k = i
    · subst hk
      rw [update_self, List.map_cons, List.count_cons_self] at hexact
      omega
    · rwa [update_of_ne hk, List.map_cons, List.count_cons_of_ne (Ne.symm hk)] at hexact
  · by_cases hki : k = i
    · rw [hki]
      exact (h.held _ hmem).1
    · exact h.base k (by rwa [update_of_ne hki])

end Held

def Crowded (b : Fin ninode → Nat) (L : List Hold) : Prop := ∀ i, 0 < b i ∨ ∃ x ∈ L, x.ip = i

theorem Held.crowded (h : Held sb b J L s) (hfull : ∀ i, 0 < (s.icache i).ref) : Crowded b L := by
  intro i
  by_cases hb : 0 < b i
  · exact .inl hb
  · have hc := h.exact i
    have := hfull i
    have hmem : i ∈ L.map Hold.ip := List.count_pos_iff.mp (by dsimp only at hc; omega)
    exact .inr (by simpa using hmem)

def busy (b J : Fin ninode → Nat) (L : List Hold) : Finset Nat :=
  (Finset.univ.filter fun i => 0 < b i).image J ∪ (L.map Hold.inum).toFinset

def Fits (U : Finset Nat) (j : Nat) : Prop := (insert j U).card ≤ ninode

theorem busy_cons : busy b J (x :: L) = insert x.inum (busy b J L) := by
  simp [busy, Finset.union_insert]

namespace Held

theorem busy_eq (h : Held sb b J L s) :
    busy b J L = (Finset.univ.filter fun i => 0 < (s.icache i).ref).image fun i => (s.icache i).inum := by
  ext j
  have hiff := h.pinned_iff (j := j)
  simp only [Pinned, Used] at hiff
  simpa [busy] using hiff

theorem card_busy (h : Held sb b J L s) :
    (busy b J L).card = (Finset.univ.filter fun i => 0 < (s.icache i).ref).card := by
  rw [h.busy_eq]
  apply Finset.card_image_of_injOn
  intro i hi k hk hik
  exact h.consistent.cache.unique i k (by simpa using hi) (by simpa using hk) hik

theorem fits (h : Held sb b J (x :: L) s) : Fits (busy b J L) x.inum := by
  rw [Fits, ← busy_cons, h.card_busy]
  exact (Finset.card_le_univ _).trans (Fintype.card_fin _).le

theorem not_fits (h : Held sb b J L s) (hfull : ∀ k, 0 < (s.icache k).ref ∧ (s.icache k).key ≠ (rootdev, j)) :
    ¬ Fits (busy b J L) j := by
  have hj : j ∉ busy b J L := by
    rw [h.busy_eq]
    simp only [Finset.mem_image, Finset.mem_filter, Finset.mem_univ, true_and, not_exists, not_and]
    intro i hi hij
    exact (hfull i).2 (Prod.ext (h.consistent.cache.dev i hi) hij)
  rw [Fits, Finset.card_insert_of_notMem hj, h.card_busy, Finset.filter_true_of_mem fun i _ => (hfull i).1,
    Finset.card_univ, Fintype.card_fin]
  exact Nat.not_succ_le_self _

end Held

theorem igetM_held (h : Held sb b J L s) (hj : j < sb.ninodes) :
    wp (igetM rootdev j) (fun i t => Held sb b J (⟨i, j, false⟩ :: L) t ∧ t.disk = s.disk)
      (fun e => e = .panic .igetNoInodes ∧ ¬ Fits (busy b J L) j ∧ Crowded b L) s := by
  refine ((igetM_spec h.consistent hj).conj (igetM_any rootdev j s)).mono (fun i t ⟨⟨hc, hg⟩, _⟩ => ?_)
    fun e ⟨_, he, hfull⟩ => ⟨he, h.not_fits hfull, h.crowded fun k => (hfull k).1⟩
  rcases hg with ⟨hr, hij, rfl⟩ | ⟨-, h0, rfl⟩
  · exact ⟨h.take hr hij, rfl⟩
  · exact ⟨h.recycle h0 hc, rfl⟩

theorem idupM_held (h : Held sb b J L s) (hi : 0 < b i) :
    wp (idupM i) (fun k t => Held sb b J (⟨k, J i, false⟩ :: L) t ∧ t.disk = s.disk) (fun _ => False) s := by
  simp only [idupM, idup, wp_bind, wp_update, wp_pure]
  exact ⟨h.take (h.base_pos hi) (h.base i hi), trivial⟩

theorem ilock_held (h : Held sb b J (⟨i, j, l⟩ :: L) s) :
    wp (ilock sb i) (fun _ t => Held sb b J (⟨i, j, true⟩ :: L) t ∧ t.disk = s.disk)
      (fun e => e = .panic .ilockNoType ∧ (tree sb s.disk j).type = 0) s := by
  have hmem : (⟨i, j, l⟩ : Hold) ∈ (⟨i, j, l⟩ : Hold) :: L := List.mem_cons_self
  have hr : 0 < (s.icache i).ref := h.ref_pos hmem
  have hij : (s.icache i).inum = j := (h.held _ hmem).1
  have hj : j < sb.ninodes := h.inum_lt hmem
  by_cases h0 : (tree sb s.disk j).type = 0
  · have hd : (dinode sb s.disk j).type = 0 := by
      rw [tree_of_lt hj] at h0
      exact h0
    have hv : ¬ (s.icache i).valid = true := fun hv => h.consistent.cache.live i hr hv (by
      rw [h.consistent.agree i hr hv, hij, hd])
    simp only [ilock, inode, bread, setInode, wp_bind, wp_gets]
    rw [if_neg (by omega), if_neg hv]
    simp only [wp_bind, wp_gets, wp_update]
    rw [if_pos (by rw [hij]; exact hd)]
    exact ⟨rfl, h0⟩
  · have hd : (dinode sb s.disk (s.icache i).inum).type ≠ 0 := by
      rw [hij]
      rw [tree_of_lt hj] at h0
      exact h0
    refine (ilock_spec h.consistent hr hd).mono ?_ fun _ => False.elim
    rintro _ t ⟨hc, hdisk, hic⟩
    refine ⟨?_, hdisk⟩
    have hkeep (k) : (t.icache k).ref = (s.icache k).ref ∧ (t.icache k).inum = (s.icache k).inum ∧
        ((s.icache k).valid = true → (t.icache k).valid = true) := by
      by_cases hk : k = i
      · subst hk; simp [hic]
      · simp [hic, hk]
    refine h.frame hc (h.exact.congr fun k => (hkeep k).1) (fun k _ _ => (hkeep k).2) (fun x hx => ?_)
      fun k hk => ?_
    · rcases List.mem_cons.mp hx with rfl | hx
      · exact .inr ⟨(hkeep i).2.1.trans hij, fun _ => by simp [hic]⟩
      · exact .inl (List.mem_cons_of_mem _ hx)
    · rw [hdisk] at hk
      exact .inl ⟨hk, fun m hm _ => (hkeep m).1 ▸ hm⟩

theorem ilock_live (h : Held sb b J (⟨i, j, l⟩ :: L) s) (hj : (tree sb s.disk j).type ≠ 0) :
    wp (ilock sb i) (fun _ t => Held sb b J (⟨i, j, true⟩ :: L) t ∧ t.disk = s.disk) (fun _ => False) s :=
  (ilock_held h).mono (fun _ _ => id) fun _ ⟨_, h0⟩ => hj h0

theorem iunlock_held (h : Held sb b J L s) (hx : x ∈ L) :
    wp (iunlock x.ip) (fun _ t => t = s) (fun _ => False) s := by
  have := h.ref_pos hx
  simp only [iunlock, inode, wp_bind, wp_gets]
  rw [if_neg (by omega)]
  rfl

def Vanished (b J : Fin ninode → Nat) (L : List Hold) (j : Nat) (T T' : Tree) : Prop :=
  ¬ Pinned b J L j ∧ (T j).Orphan ∧ T' = update T j .unused

theorem iput_held (h : Held sb b J (x :: L) s) :
    wp (iput sb x.ip) (fun _ t => Held sb b J L t ∧
        (t.disk = s.disk ∨ Vanished b J L x.inum (tree sb s.disk) (tree sb t.disk))) (fun _ => False) s := by
  have hmem : x ∈ x :: L := List.mem_cons_self
  have hr := h.ref_pos hmem
  have hij := (h.held x hmem).1
  have hexact := h.exact x.ip
  rw [List.map_cons, List.count_cons_self] at hexact
  refine (iput_spec h.consistent hr).imp fun _ t ⟨hc, hfree, hdrop⟩ => ?_
  by_cases hd : (s.icache x.ip).Dying
  · have hf := hfree hd
    obtain ⟨hr1, hv, hn⟩ := hd
    have hb : b x.ip = 0 := by dsimp only at hexact; omega
    have hnot : x.ip ∉ L.map Hold.ip := List.count_eq_zero.mp (by dsimp only at hexact; omega)
    have hlive := h.consistent.cache.live x.ip hr hv
    have hnode : (s.icache x.ip).toDinode.node s.disk = tree sb s.disk x.inum := by
      rw [h.consistent.agree _ hr hv, hij, tree_of_lt (h.inum_lt hmem)]
    have horphan : (tree sb s.disk x.inum).Orphan := by
      rw [← hnode]
      exact ⟨hlive, hn⟩
    have hother (k) (hk : k ≠ x.ip) : t.icache k = s.icache k := by rw [hf.icache, update_of_ne hk]
    have hself : (t.icache x.ip).ref = 0 := by rw [hf.icache, update_self]
    have hne (k) (hk : 0 < (t.icache k).ref) : k ≠ x.ip := fun e => by
      rw [e, hself] at hk
      exact lt_irrefl 0 hk
    have htouch : Touched sb (s.icache x.ip).inum (s.icache x.ip).freed s.disk t.disk :=
      ⟨hf.nodes, fun k hk _ ht sl h0 => hf.data _ (Owned.ptr_used h.consistent.owns hk ht h0).1⟩
    have htree := htouch.tree_eq (h.consistent.cache.inum_lt _ hr) h.consistent.filled
    have hunused : (s.icache x.ip).freed.node t.disk = .unused := by
      rw [Dinode.node_of_not_dir (show (0 : Int16) ≠ tDir by decide)]
      exact Node.ext rfl hn rfl rfl
    rw [hunused, hij] at htree
    refine ⟨h.frame hc (h.exact.drop.congr fun k => ?_) (fun k _ hk => ?_) (fun y hy => ?_) fun k hk => ?_,
      .inr ⟨?_, horphan, htree⟩⟩
    · by_cases hk : k = x.ip
      · rw [hk, hself, update_self]
        omega
      · rw [hother k hk, update_of_ne hk]
    · rw [hother k (hne k hk)]
      exact ⟨rfl, id⟩
    · exact .inl (List.mem_cons_of_mem _ hy)
    · have hkx : k ≠ x.inum := by
        rintro rfl
        rw [htree, update_self] at hk
        exact hk.1 rfl
      rw [htree, update_of_ne hkx] at hk
      refine .inl ⟨hk, fun m hm hmk => ?_⟩
      have hm' : m ≠ x.ip := fun e => hkx (by rw [← hmk, e, hij])
      rwa [hother m hm']
    · rintro (⟨m, hm, hmj⟩ | ⟨y, hy, hyj⟩)
      · have hm' : m = x.ip := h.consistent.cache.unique m x.ip (h.base_pos hm) hr (by rw [h.base m hm, hmj, hij])
        rw [hm', hb] at hm
        exact lt_irrefl 0 hm
      · have hy' := List.mem_cons_of_mem x hy
        have : y.ip = x.ip := h.consistent.cache.unique _ _ (h.ref_pos hy') hr (by rw [(h.held y hy').1, hyj, hij])
        exact hnot (this ▸ List.mem_map_of_mem hy)
  · obtain rfl := hdrop hd
    have hkeep (k) : ((s.setRef x.ip ((s.icache x.ip).ref - 1)).icache k).inum = (s.icache k).inum ∧
        ((s.setRef x.ip ((s.icache x.ip).ref - 1)).icache k).valid = (s.icache k).valid := by
      by_cases hk : k = x.ip
      · subst hk; simp [State.setRef]
      · simp [State.setRef, hk]
    have href (k) : ((s.setRef x.ip ((s.icache x.ip).ref - 1)).icache k).ref =
        update (fun k => (s.icache k).ref) x.ip ((s.icache x.ip).ref - 1) k := by
      by_cases hk : k = x.ip
      · subst hk; simp [State.setRef]
      · simp [State.setRef, hk]
    refine ⟨h.frame hc (h.exact.drop.congr href) (fun k _ _ => ?_) (fun y hy => .inl (List.mem_cons_of_mem _ hy))
      fun k hk => .inl ⟨hk, fun m hm hmk => ?_⟩, .inl rfl⟩
    · rw [(hkeep k).1, (hkeep k).2]
      exact ⟨rfl, id⟩
    · -- the entry of an inode without a name is valid, so its last reference would have been fatal
      rw [href, update_apply]
      split
      next hmx =>
        subst hmx
        obtain ⟨m', hm', hmk', hv⟩ := h.named k hk
        obtain rfl := h.consistent.cache.unique m' _ hm' hm (hmk'.trans hmk.symm)
        have hn : (s.icache x.ip).nlink = 0 := by
          rw [h.consistent.agree _ hm hv, hmk]
          rw [State.setRef, tree_of_lt (hmk ▸ h.consistent.cache.inum_lt _ hm)] at hk
          exact hk.2
        have : (s.icache x.ip).ref ≠ 1 := fun h1 => hd ⟨h1, hv, hn⟩
        omega
      next => exact hm

theorem iput_pinned (h : Held sb b J (x :: L) s) (hp : (tree sb s.disk x.inum).Orphan → Pinned b J L x.inum) :
    wp (iput sb x.ip) (fun _ t => Held sb b J L t ∧ t.disk = s.disk) (fun _ => False) s :=
  (iput_held h).imp fun _ _ ⟨ht, hdisk⟩ => ⟨ht, hdisk.resolve_right fun hv => hv.1 (hp hv.2.1)⟩

theorem iunlockput_held (h : Held sb b J (x :: L) s) :
    wp (iunlockput sb x.ip) (fun _ t => Held sb b J L t ∧
        (t.disk = s.disk ∨ Vanished b J L x.inum (tree sb s.disk) (tree sb t.disk))) (fun _ => False) s := by
  refine (iunlock_held h List.mem_cons_self).bind fun _ t ht => ?_
  rw [ht]
  exact iput_held h

theorem iunlockput_pinned (h : Held sb b J (x :: L) s) (hp : (tree sb s.disk x.inum).Orphan → Pinned b J L x.inum) :
    wp (iunlockput sb x.ip) (fun _ t => Held sb b J L t ∧ t.disk = s.disk) (fun _ => False) s := by
  refine (iunlock_held h List.mem_cons_self).bind fun _ t ht => ?_
  rw [ht]
  exact iput_pinned h hp

def State.putInode (sb : Layout) (s : State) (i : Fin ninode) (y : Dinode) : State :=
  ⟨putNode sb s.disk (s.icache i).inum y, update s.icache i { s.icache i with toDinode := y }⟩

theorem Consistent.putInode {y : Dinode} (h : Consistent sb s) (hr : 0 < (s.icache i).ref)
    (hv : (s.icache i).valid = true) (ht : y.type = (s.icache i).type) (hs : y.size = (s.icache i).size)
    (ha : y.addrs = (s.icache i).addrs) :
    Consistent sb (s.putInode sb i y) ∧ Touched sb (s.icache i).inum y s.disk (s.putInode sb i y).disk ∧
      y.node (s.putInode sb i y).disk = { (s.icache i).toDinode.node s.disk with nlink := y.nlink } := by
  have hlt := h.cache.inum_lt i hr
  have hagree := h.agree i hr hv
  have hlive := h.cache.live i hr hv
  have htouch : Touched sb (s.icache i).inum y s.disk (s.putInode sb i y).disk :=
    ⟨fun k _ => dinode_putNode k, fun k hk _ ht => Owned.sameFile_putNode h.owns hlt hk ht⟩
  have hown : Owns sb s.disk (update (dinode sb s.disk) (s.icache i).inum y) ∅ := by
    refine Owned.of_addrs (x := (s.icache i).toDinode) ?_ ha (by rw [ht])
    rw [hagree, update_eq_self]
    exact h.owns
  have hsame : SameFile s.disk (s.putInode sb i y).disk y := by
    have hnode : SameFile s.disk (putNode sb s.disk (s.icache i).inum y) (dinode sb s.disk (s.icache i).inum) :=
      Owned.sameFile_putNode h.owns hlt hlt (hagree ▸ hlive)
    intro sl h0
    rw [ptr_of_addrs ha, hagree] at h0 ⊢
    exact hnode sl h0
  have hfill : Filled s.disk y (blocks y.size.toNat) := by
    rw [hs]
    exact Filled.of_addrs (h.filled_cached hr hv) ha
  refine ⟨h.touch hr htouch (Owned.putNode hown hlt) (ht ▸ hlive) (hsame.filled hfill), htouch, ?_⟩
  have hents : (List.range y.slots).map (dirent s.disk y) =
      (List.range (s.icache i).slots).map (dirent s.disk (s.icache i).toDinode) := by
    rw [Dinode.slots, Dinode.slots, hs]
    exact List.map_congr_left fun k _ => dirent_congr fun p _ => fileByte_of_addrs ha _
  rw [hsame.node_eq fun _ => hfill]
  simp only [Dinode.node, hents, hs, ht]

theorem Held.setNlink (h : Held sb b J L s) (hx : x ∈ L) (hl : x.locked = true) (n : Int16) :
    let t := s.putInode sb x.ip { (s.icache x.ip).toDinode with nlink := n }
    Held sb b J L t ∧ tree sb t.disk = update (tree sb s.disk) x.inum
      { tree sb s.disk x.inum with nlink := n } := by
  intro t
  obtain ⟨hij, hv⟩ := h.held x hx
  obtain ⟨hc, htouch, hnode⟩ :=
    h.consistent.putInode (y := { (s.icache x.ip).toDinode with nlink := n }) (h.ref_pos hx)
    (hv hl) rfl rfl rfl
  rw [hij] at htouch
  rw [h.node_eq hx hl] at hnode
  rw [← hnode]
  exact h.touch hx hl hc htouch rfl

theorem node_fresh (d : Disk) (type : Int16) : (Dinode.fresh type).node d = ⟨type, 0, [], 0⟩ := by
  simp [Dinode.node, Dinode.fresh, Dinode.slots]

end Xv6.Fs
