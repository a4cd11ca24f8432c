import Xv6.Vm.Pages
import Xv6.Lib.Runs
import Mathlib

namespace Xv6.Vm

open Lib Lib.Radix Exec

/-- The pages on the free list and in a page table are different pages of the pool that `kinit1` made. -/
structure Frames (kend : Nat) (l : List Nat) (t : Pgdir) : Prop where
  once : ∀ f, l.count f + pageCount f t ≤ 1
  pool : ∀ f, 0 < l.count f + pageCount f t → kend ≤ f ∧ f < npages

/-- The user pages that are mapped are those from `PGSIZE` up to the size of the process. -/
def Synced (x : Image) : Prop := ∀ k, k < 2 ^ 35 → ((mapped x.pgdir k).isSome ↔ 1 ≤ k ∧ k < pages x.sz)

variable {kend : Nat} {l : List Nat} {t : Pgdir} {x : Image}

theorem Frames.of_count {l' : List Nat} {t' : Pgdir} (h : Frames kend l t)
    (hc : ∀ f, pageCount f t' + l'.count f = pageCount f t + l.count f) : Frames kend l' t' := by
  refine ⟨fun f => ?_, fun f hf => h.pool f ?_⟩
  · have := h.once f
    have := hc f
    omega
  · have := hc f
    omega

theorem Frames.length_le (h : Frames kend l t) : l.length ≤ npages := by
  have hnodup : l.Nodup := List.nodup_iff_count_le_one.mpr fun f => by
    have := h.once f
    omega
  have hsub : l.toFinset ⊆ Finset.range npages := fun f hf => by
    have := List.count_pos_iff.mpr (List.mem_toFinset.mp hf)
    exact Finset.mem_range.mpr (h.pool f (by omega)).2
  have hcard := Finset.card_le_card hsub
  rwa [List.toFinset_card_of_nodup hnodup, Finset.card_range] at hcard

theorem pageCount_pos {k : Nat} {pte : Pte} (h : mapped t k = some pte) : 0 < pageCount pte.page t := by
  have := pageCount_set (f := pte.page) (v := none) h
  simp only [if_true, Option.elim_none] at this
  omega

theorem Frames.mapped_pool (h : Frames kend l t) {k : Nat} {pte : Pte} (hk : mapped t k = some pte) :
    kend ≤ pte.page ∧ pte.page < npages :=
  h.pool _ (Nat.lt_of_lt_of_le (pageCount_pos hk) (Nat.le_add_left _ _))

theorem Frames.mapped_inj (h : Frames kend l t) {k k' : Nat} {pte pte' : Pte} (hk : k < 2 ^ 36) (hk' : k' < 2 ^ 36)
    (hm : mapped t k = some pte) (hm' : mapped t k' = some pte') (hp : pte.page = pte'.page) : k = k' := by
  by_contra hne
  have hleft : mapped (Radix.set 3 t k none) k' = some pte' := (mapped_set_of_ne hk hk' (Ne.symm hne)).trans hm'
  have hpos := pageCount_pos hleft
  have hset := pageCount_set (f := pte.page) (v := none) hm
  have honce := h.once pte.page
  simp only [if_true, Option.elim_none] at hset
  rw [← hp] at hpos
  omega

theorem Frames.pages_le (h : Frames kend l x.pgdir) (hs : Synced x) : pages x.sz ≤ npages + 1 := by
  by_contra hgt
  rw [not_le] at hgt
  have hsome (k : Nat) (hk : k ∈ Finset.Ico 1 (npages + 2)) : ∃ pte, mapped x.pgdir k = some pte := by
    rw [Finset.mem_Ico] at hk
    exact Option.isSome_iff_exists.mp ((hs k (lt_trans hk.2 (by decide))).mpr ⟨hk.1, by omega⟩)
  have hcard : (Finset.range npages).card < (Finset.Ico 1 (npages + 2)).card := by
    rw [Finset.card_range, Nat.card_Ico]
    decide
  have hmaps (k : Nat) (hk : k ∈ Finset.Ico 1 (npages + 2)) :
      ((mapped x.pgdir k).elim 0 Pte.page) ∈ Finset.range npages := by
    obtain ⟨pte, hpte⟩ := hsome k hk
    rw [hpte]
    exact Finset.mem_range.mpr (h.mapped_pool hpte).2
  obtain ⟨k, hk, k', hk', hne, heq⟩ := Finset.exists_ne_map_eq_of_card_lt_of_maps_to hcard hmaps
  obtain ⟨pte, hpte⟩ := hsome k hk
  obtain ⟨pte', hpte'⟩ := hsome k' hk'
  rw [hpte, hpte'] at heq
  rw [Finset.mem_Ico] at hk hk'
  exact hne (h.mapped_inj (lt_trans hk.2 (by decide)) (lt_trans hk'.2 (by decide)) hpte hpte' heq)

theorem Synced.free (hs : Synced x) {k : Nat} (hk : pages x.sz ≤ k) (hlt : k < 2 ^ 35) :
    mapped x.pgdir k = none := by
  by_contra hne
  have := ((hs k hlt).mp (Option.isSome_iff_ne_none.mpr hne)).2
  omega

def grown (t : Pgdir) (oldsz newsz : UInt64) (l : List Nat) : Pgdir × List Nat :=
  extend (fun _ => true) (pages newsz - pages oldsz) t (pages oldsz) l

def shrunk (t : Pgdir) (oldsz newsz : UInt64) (l : List Nat) : Pgdir × List Nat :=
  release (pages oldsz - pages newsz) t (pages newsz) l

def growDemand (t : Pgdir) (oldsz newsz : UInt64) : Nat := demand t (pages oldsz) (pages newsz - pages oldsz)

theorem pages_mono {a b : UInt64} (h : a ≤ b) : pages a ≤ pages b :=
  Nat.div_le_div_right (Nat.add_le_add_right (UInt64.le_iff_toNat_le.mp h) _)

theorem rounds_ge {a b : UInt64} {k : Nat} (ha : a.toNat = k * 4096) : pages b - k ≤ rounds a b := by
  show (b.toNat + 4095) / 4096 - k ≤ (b.toNat - a.toNat + 4095) / 4096
  omega

theorem toNat_lt_of_pages_le {sz : UInt64} (h : pages sz ≤ npages + 1) : sz.toNat ≤ 57345 * 4096 := by
  have h : (sz.toNat + 4095) / 4096 ≤ 57345 := h
  omega

theorem allocuvm_eq {oldsz newsz : UInt64} (hf : Frames kend l t) (hs : Synced ⟨oldsz, t⟩) (hnew : newsz < kernbase)
    (hle : oldsz ≤ newsz) :
    allocuvm kend t oldsz newsz ⟨l⟩ =
      if growDemand t oldsz newsz ≤ l.length then
        .ok (((grown t oldsz newsz l).1, newsz), ⟨(grown t oldsz newsz l).2⟩)
      else .error (.panic .outOfMemory) := by
  have hpages : pages oldsz ≤ npages + 1 := Frames.pages_le (x := ⟨oldsz, t⟩) hf hs
  have hold := toNat_lt_of_pages_le hpages
  have hlen := hf.length_le
  have hround : (pgroundup oldsz).toNat = pages oldsz * 4096 := pgroundup_toNat (by omega)
  have hmono := pages_mono hle
  have hloop := allocLoop_eq kend oldsz (t := t) (l := l) hround (Nat.add_sub_of_le hmono).symm (rounds_ge hround)
    (by
      have : pages oldsz + l.length ≤ 57345 + 57344 := Nat.add_le_add hpages hlen
      omega)
    (fun k hk hlt => hs.free hk hlt)
  have hnot : ¬ newsz ≥ kernbase := UInt64.not_le.mpr hnew
  have hnlt : ¬ newsz < oldsz := UInt64.not_lt.mpr hle
  rw [allocuvm, if_neg hnot, if_neg hnlt]
  by_cases hd : growDemand t oldsz newsz ≤ l.length
  · rw [if_pos (show demand _ _ _ ≤ _ from hd)] at hloop
    rw [if_pos hd, bind_ok hloop]
    rfl
  · rw [if_neg (show ¬ demand _ _ _ ≤ _ from hd)] at hloop
    rw [if_neg hd, bind_error hloop]

theorem deallocuvm_eq {oldsz newsz : UInt64} (hk : 0 < kend) (hf : Frames kend l t) (hs : Synced ⟨oldsz, t⟩)
    (hlt : newsz < oldsz) :
    deallocuvm kend t oldsz newsz ⟨l⟩ =
      .ok (((shrunk t oldsz newsz l).1, newsz), ⟨(shrunk t oldsz newsz l).2⟩) := by
  have hpages : pages oldsz ≤ npages + 1 := Frames.pages_le (x := ⟨oldsz, t⟩) hf hs
  have hold := toNat_lt_of_pages_le hpages
  have hlt' := UInt64.lt_iff_toNat_lt.mp hlt
  have hround : (pgroundup newsz).toNat = pages newsz * 4096 := pgroundup_toNat (by omega)
  have hmono := pages_mono (UInt64.le_of_lt hlt)
  have hloop := deallocLoop_eq (t := t) (l := l) hk hround (Nat.add_sub_of_le hmono).symm (rounds_ge hround)
    (by
      have : pages oldsz ≤ 57345 := hpages
      omega)
    (fun k pte _ _ hm => hf.mapped_pool hm)
  have hnot : ¬ newsz ≥ oldsz := UInt64.not_le.mpr hlt
  rw [deallocuvm, if_neg hnot, bind_ok hloop]
  rfl

theorem grown_spec {oldsz newsz : UInt64} (hf : Frames kend l t) (hs : Synced ⟨oldsz, t⟩) (hle : oldsz ≤ newsz)
    (hd : growDemand t oldsz newsz ≤ l.length) :
    Extends (fun _ => true) t (pages oldsz) (pages newsz - pages oldsz) l (grown t oldsz newsz l).1
      (grown t oldsz newsz l).2 ∧ pages newsz < 2 ^ 35 := by
  have hpages : pages oldsz ≤ 57345 := Frames.pages_le (x := ⟨oldsz, t⟩) hf hs
  have hlen : l.length ≤ 57344 := hf.length_le
  have hmono := pages_mono hle
  have hcnt : pages newsz - pages oldsz ≤ growDemand t oldsz newsz := Nat.le_add_right ..
  exact ⟨extend_spec hd (by omega) fun k hk hk' => hs.free hk (by omega), by omega⟩

section Sizes

variable {n : Int64}

theorem toUInt64_of_pos (h : 0 < n) : (n.toUInt64.toNat : Int) = n.toInt := by
  have hint := BitVec.toInt_eq_toNat_cond n.toBitVec
  have hpos : 0 < n.toInt := Int64.lt_iff_toInt_lt.mp h
  change n.toInt = if 2 * n.toUInt64.toNat < 2 ^ 64 then (n.toUInt64.toNat : Int) else (n.toUInt64.toNat : Int)
    - 2 ^ 64 at hint
  have hlt := n.toUInt64.toNat_lt
  split at hint <;> omega

theorem toUInt64_of_neg (h : n < 0) : (n.toUInt64.toNat : Int) = 2 ^ 64 + n.toInt := by
  have hint := BitVec.toInt_eq_toNat_cond n.toBitVec
  have hneg : n.toInt < 0 := Int64.lt_iff_toInt_lt.mp h
  change n.toInt = if 2 * n.toUInt64.toNat < 2 ^ 64 then (n.toUInt64.toNat : Int) else (n.toUInt64.toNat : Int)
    - 2 ^ 64 at hint
  split at hint <;> omega

def newsz (x : Image) (n : Int64) : UInt64 := x.sz + n.toUInt64

theorem toNat_newsz (x : Image) (n : Int64) : (newsz x n).toNat = (x.sz.toNat + n.toUInt64.toNat) % 2 ^ 64 :=
  UInt64.toNat_add ..

theorem newsz_of_pos (hx : x.sz.toNat ≤ 57345 * 4096) (h : 0 < n) :
    ((newsz x n).toNat : Int) = x.sz.toNat + n.toInt := by
  have hn := toUInt64_of_pos h
  have := n.toInt_lt
  rw [toNat_newsz, Nat.mod_eq_of_lt (by omega)]
  omega

theorem newsz_of_neg (h : n < 0) (hle : 0 ≤ x.sz.toNat + n.toInt) :
    ((newsz x n).toNat : Int) = x.sz.toNat + n.toInt := by
  have hn := toUInt64_of_neg h
  have hsz := x.sz.toNat_lt
  have hneg : n.toInt < 0 := Int64.lt_iff_toInt_lt.mp h
  rw [toNat_newsz]
  omega

theorem newsz_of_below (h : n < 0) (hlt : x.sz.toNat + n.toInt < 0) :
    x.sz ≤ newsz x n := by
  have hn := toUInt64_of_neg h
  have := n.le_toInt
  rw [UInt64.le_iff_toNat_le, toNat_newsz, Nat.mod_eq_of_lt (by omega)]
  omega

end Sizes

section Growproc

variable {n : Int64}

/-- A call of `growproc` by a process whose size and mappings are in step: a size that reaches the kernel is
refused, a difference of 0 and one that leads below 0 change nothing; otherwise the process grows or shrinks. -/
theorem growproc_eq (hk : 0 < kend) (hf : Frames kend l x.pgdir) (hs : Synced x) :
    growproc kend x n ⟨l⟩ =
      if 0 < n then
        if kernbase ≤ newsz x n then .ok ((-1, x), ⟨l⟩)
        else if growDemand x.pgdir x.sz (newsz x n) ≤ l.length then
          .ok ((0, ⟨newsz x n, (grown x.pgdir x.sz (newsz x n) l).1⟩), ⟨(grown x.pgdir x.sz (newsz x n) l).2⟩)
        else .error (.panic .outOfMemory)
      else if n < 0 then
        if x.sz.toNat + n.toInt < 0 then .ok ((if x.sz = 0 then -1 else 0, x), ⟨l⟩)
        else .ok ((if newsz x n = 0 then -1 else 0,
            ⟨if newsz x n = 0 then x.sz else newsz x n, (shrunk x.pgdir x.sz (newsz x n) l).1⟩),
          ⟨(shrunk x.pgdir x.sz (newsz x n) l).2⟩)
      else .ok ((0, x), ⟨l⟩) := by
  have hsz := toNat_lt_of_pages_le (hf.pages_le hs)
  rw [growproc]
  change (if 0 < n then (allocuvm kend x.pgdir x.sz (newsz x n) >>= _)
    else if n < 0 then (deallocuvm kend x.pgdir x.sz (newsz x n) >>= _) else _ : VmM _) ⟨l⟩ = _
  by_cases hpos : 0 < n
  · rw [if_pos hpos, if_pos hpos]
    have hnew := newsz_of_pos hsz hpos
    have hint : 0 < n.toInt := Int64.lt_iff_toInt_lt.mp hpos
    have hle : x.sz ≤ newsz x n := UInt64.le_iff_toNat_le.mpr (by omega)
    have hne : newsz x n ≠ 0 := fun e => by
      rw [e] at hnew
      change ((0 : Nat) : Int) = _ at hnew
      omega
    by_cases hbase : kernbase ≤ newsz x n
    · rw [if_pos hbase, bind_ok (a := (x.pgdir, 0)) (t := ⟨l⟩) (by rw [allocuvm, if_pos hbase]; rfl)]
      rfl
    · rw [if_neg hbase]
      have halloc := allocuvm_eq hf hs (UInt64.not_le.mp hbase) hle
      by_cases hd : growDemand x.pgdir x.sz (newsz x n) ≤ l.length
      · rw [if_pos hd] at halloc ⊢
        rw [bind_ok halloc]
        simp only [if_neg hne]
        rfl
      · rw [if_neg hd] at halloc ⊢
        rw [bind_error halloc]
  · rw [if_neg hpos, if_neg hpos]
    by_cases hneg : n < 0
    · rw [if_pos hneg, if_pos hneg]
      have hint : n.toInt < 0 := Int64.lt_iff_toInt_lt.mp hneg
      by_cases hlt : x.sz.toNat + n.toInt < 0
      · have hbelow : newsz x n ≥ x.sz := newsz_of_below hneg hlt
        rw [if_pos hlt, bind_ok (a := (x.pgdir, x.sz)) (t := ⟨l⟩) (by rw [deallocuvm, if_pos hbelow]; rfl)]
        by_cases h0 : x.sz = 0
        · simp only [if_pos h0]
          rfl
        · simp only [if_neg h0]
          rfl
      · have hnew := newsz_of_neg hneg (x := x) (by omega)
        have hshrink : newsz x n < x.sz := UInt64.lt_iff_toNat_lt.mpr (by omega)
        rw [if_neg hlt, bind_ok (deallocuvm_eq hk hf hs hshrink)]
        by_cases h0 : newsz x n = 0
        · simp only [if_pos h0]
          rfl
        · simp only [if_neg h0]
          rfl
    · rw [if_neg hneg, if_neg hneg]
      rfl

structure Fulfils (x : Image) (n : Int64) (r : Int) (x' : Image) : Prop where
  synced : Synced x'
  done : r = 0 → (x'.sz.toNat : Int) = x.sz.toNat + n.toInt
  undone : r = -1 → x'.sz = x.sz ∧ ∀ k, k < 2 ^ 35 → mapped x'.pgdir k = mapped x.pgdir k

/-- The calls that do so: from size 0 a process must not grow; it must not shrink below 0, and to 0 only if it has
no page. -/
def Sound (x : Image) (n : Int64) : Prop :=
  (0 < n.toInt → 0 < x.sz.toNat ∨ (kernbase.toNat : Int) ≤ x.sz.toNat + n.toInt) ∧
    (n.toInt < 0 → x.sz.toNat = 0 ∨ 0 < x.sz.toNat + n.toInt ∨ x.sz.toNat + n.toInt = 0 ∧ x.sz.toNat ≤ pgsize)

instance (x : Image) (n : Int64) : Decidable (Sound x n) := by
  unfold Sound
  infer_instance

theorem Fulfils.refl (hs : Synced x) (r : Int) (h : r = 0 → n.toInt = 0) : Fulfils x n r x :=
  ⟨hs, fun hr => by rw [h hr, add_zero], fun _ => ⟨rfl, fun _ _ => rfl⟩⟩

theorem pages_pos {sz : UInt64} (h : 0 < sz.toNat) : 1 ≤ pages sz := by
  show 1 ≤ (sz.toNat + 4095) / 4096
  omega

theorem synced_grown {newsz : UInt64} (hf : Frames kend l x.pgdir) (hs : Synced x) (hlt : x.sz < newsz)
    (hd : growDemand x.pgdir x.sz newsz ≤ l.length) :
    Synced ⟨newsz, (grown x.pgdir x.sz newsz l).1⟩ ↔ 0 < x.sz.toNat := by
  have hlt' := UInt64.lt_iff_toNat_lt.mp hlt
  have hmono := pages_mono (UInt64.le_of_lt hlt)
  obtain ⟨hext, hroom⟩ := grown_spec hf hs (UInt64.le_of_lt hlt) hd
  constructor
  · intro hsync
    by_contra h0
    have hzero : pages x.sz = 0 := by
      show (x.sz.toNat + 4095) / 4096 = 0
      omega
    obtain ⟨f, hm⟩ := hext.inside 0 (by omega) (by have : 1 ≤ pages newsz := pages_pos (by omega); omega)
    have := ((hsync 0 (by decide)).mp (by rw [hm]; rfl)).1
    omega
  · intro hpos k hk
    have h1 := pages_pos hpos
    by_cases hin : pages x.sz ≤ k ∧ k < pages newsz
    · obtain ⟨f, hm⟩ := hext.inside k hin.1 (by omega)
      simp only [hm, Option.isSome_some, true_iff]
      omega
    · rw [hext.outside k (by omega) (by omega), hs k hk]
      show _ ↔ _ ∧ k < pages newsz
      omega

theorem shrunk_spec {newsz : UInt64} (hf : Frames kend l x.pgdir) (hs : Synced x) (hlt : newsz < x.sz) :
    Releases x.pgdir (pages newsz) (pages x.sz - pages newsz) l (shrunk x.pgdir x.sz newsz l).1
      (shrunk x.pgdir x.sz newsz l).2 := by
  have hpages : pages x.sz ≤ 57345 := hf.pages_le hs
  have hmono := pages_mono (UInt64.le_of_lt hlt)
  exact release_spec (by omega)

theorem mapped_shrunk {newsz : UInt64} (hf : Frames kend l x.pgdir) (hs : Synced x) (hlt : newsz < x.sz) {k : Nat}
    (hk : k < 2 ^ 35) : (mapped (shrunk x.pgdir x.sz newsz l).1 k).isSome ↔ 1 ≤ k ∧ k < pages newsz := by
  have hmono := pages_mono (UInt64.le_of_lt hlt)
  have hrel := shrunk_spec (l := l) hf hs hlt
  by_cases hin : pages newsz ≤ k ∧ k < pages x.sz
  · rw [hrel.inside k hin.1 (by omega)]
    simp only [Option.isSome_none, Bool.false_eq_true, false_iff]
    omega
  · rw [hrel.outside k (by omega) (by omega), hs k hk]
    omega

theorem fulfils_emptied (hf : Frames kend l x.pgdir) (hs : Synced x) (hlt : 0 < x.sz) :
    Fulfils x n (-1) ⟨x.sz, (shrunk x.pgdir x.sz 0 l).1⟩ ↔ x.sz.toNat ≤ pgsize := by
  have hnone {k : Nat} (hk : k < 2 ^ 35) : mapped (shrunk x.pgdir x.sz 0 l).1 k = none := by
    have := mapped_shrunk (l := l) hf hs hlt hk
    rw [← Option.not_isSome_iff_eq_none, this]
    show ¬ (1 ≤ k ∧ k < 0)
    omega
  have hle : x.sz.toNat ≤ pgsize ↔ pages x.sz ≤ 1 := by
    show x.sz.toNat ≤ 4096 ↔ (x.sz.toNat + 4095) / 4096 ≤ 1
    omega
  rw [hle]
  constructor
  · intro hful
    by_contra hgt
    have := (hful.synced 1 (by decide)).mpr ⟨le_rfl, not_le.mp hgt⟩
    rw [hnone (by decide)] at this
    cases this
  · intro hone
    have hold {k : Nat} (hk : k < 2 ^ 35) : mapped x.pgdir k = none := by
      rw [← Option.not_isSome_iff_eq_none, hs k hk]
      omega
    refine ⟨fun k hk => ?_, nofun, fun _ => ⟨rfl, fun k hk => (hnone hk).trans (hold hk).symm⟩⟩
    rw [hnone hk]
    show _ ↔ 1 ≤ k ∧ k < pages x.sz
    simp only [Option.isSome_none, Bool.false_eq_true, false_iff]
    omega

theorem fulfils_iff (hk : 0 < kend) (hf : Frames kend l x.pgdir) (hs : Synced x) {r : Int} {x' : Image} {m' : Mem}
    (h : growproc kend x n ⟨l⟩ = .ok ((r, x'), m')) : Fulfils x n r x' ↔ Sound x n := by
  have hsz := toNat_lt_of_pages_le (hf.pages_le hs)
  rw [growproc_eq hk hf hs] at h
  by_cases hpos : 0 < n
  · rw [if_pos hpos] at h
    have hnew := newsz_of_pos hsz hpos
    have hint : 0 < n.toInt := Int64.lt_iff_toInt_lt.mp hpos
    by_cases hbase : kernbase ≤ newsz x n
    · rw [if_pos hbase] at h
      obtain ⟨⟨rfl, rfl⟩, rfl⟩ := by simpa using h
      have hbase := UInt64.le_iff_toNat_le.mp hbase
      exact iff_of_true (Fulfils.refl hs _ nofun) ⟨fun _ => .inr (by omega), fun h => by omega⟩
    · rw [if_neg hbase] at h
      split at h
      case isFalse => cases h
      case isTrue hd =>
        obtain ⟨⟨rfl, rfl⟩, rfl⟩ := by simpa using h
        have hbase := UInt64.lt_iff_toNat_lt.mp (UInt64.not_le.mp hbase)
        have hsync := synced_grown hf hs (UInt64.lt_iff_toNat_lt.mpr (by omega)) hd
        constructor
        · intro hful
          exact ⟨fun _ => .inl (hsync.mp hful.synced), fun h => by omega⟩
        · intro hsound
          refine ⟨hsync.mpr ((hsound.1 hint).resolve_right (by omega)), fun _ => hnew, nofun⟩
  · rw [if_neg hpos] at h
    by_cases hneg : n < 0
    · rw [if_pos hneg] at h
      have hint : n.toInt < 0 := Int64.lt_iff_toInt_lt.mp hneg
      by_cases hlt : x.sz.toNat + n.toInt < 0
      · rw [if_pos hlt] at h
        obtain ⟨⟨rfl, rfl⟩, rfl⟩ := by simpa using h
        by_cases h0 : x.sz = 0
        · rw [if_pos h0]
          exact iff_of_true (Fulfils.refl hs _ nofun) ⟨fun h => by omega, fun _ => .inl (by rw [h0]; rfl)⟩
        · rw [if_neg h0]
          have hne : x.sz.toNat ≠ 0 := fun e => h0 (UInt64.toNat_inj.mp e)
          refine iff_of_false (fun hful => ?_) (fun hsound => ?_)
          · have := hful.done rfl
            omega
          · have := hsound.2 hint
            omega
      · rw [if_neg hlt] at h
        obtain ⟨⟨rfl, rfl⟩, rfl⟩ := by simpa using h
        have hnew := newsz_of_neg hneg (x := x) (by omega)
        have hshrink : newsz x n < x.sz := UInt64.lt_iff_toNat_lt.mpr (by omega)
        by_cases h0 : newsz x n = 0
        · simp only [if_pos h0]
          rw [h0] at hnew hshrink
          change ((0 : Nat) : Int) = _ at hnew
          rw [h0, fulfils_emptied hf hs hshrink]
          constructor
          · intro hle
            exact ⟨fun h => by omega, fun _ => .inr (.inr ⟨hnew.symm, hle⟩)⟩
          · intro hsound
            have := hsound.2 hint
            have hz : 0 < x.sz.toNat := UInt64.lt_iff_toNat_lt.mp hshrink
            omega
        · rw [if_neg h0]
          have hne : (newsz x n).toNat ≠ 0 := fun e => h0 (UInt64.toNat_inj.mp e)
          refine iff_of_true ⟨fun k hk => ?_, fun _ => ?_, nofun⟩
            ⟨fun h => by omega, fun _ => .inr (.inl (by omega))⟩
          · simp only [if_neg h0]
            exact mapped_shrunk hf hs hshrink hk
          · simp only [if_neg h0]
            exact hnew
    · rw [if_neg hneg] at h
      obtain ⟨⟨rfl, rfl⟩, rfl⟩ := by simpa using h
      have hint : n.toInt = 0 := by
        have hge : ¬ 0 < n.toInt := fun h => hpos (Int64.lt_iff_toInt_lt.mpr h)
        have hle : ¬ n.toInt < 0 := fun h => hneg (Int64.lt_iff_toInt_lt.mpr h)
        omega
      exact iff_of_true (Fulfils.refl hs _ fun _ => hint) ⟨fun h => by omega, fun h => by omega⟩

theorem frames_growproc (hk : 0 < kend) (hf : Frames kend l x.pgdir) (hs : Synced x) {r : Int}
    {x' : Image} {m' : Mem}
    (h : growproc kend x n ⟨l⟩ = .ok ((r, x'), m')) : Frames kend m'.freelist x'.pgdir := by
  have hsz := toNat_lt_of_pages_le (hf.pages_le hs)
  rw [growproc_eq hk hf hs] at h
  by_cases hpos : 0 < n
  · rw [if_pos hpos] at h
    by_cases hbase : kernbase ≤ newsz x n
    · rw [if_pos hbase] at h
      obtain ⟨⟨rfl, rfl⟩, rfl⟩ := by simpa using h
      exact hf
    · rw [if_neg hbase] at h
      split at h
      case isFalse => cases h
      case isTrue hd =>
        obtain ⟨⟨rfl, rfl⟩, rfl⟩ := by simpa using h
        have hnew := newsz_of_pos hsz hpos
        have hint : 0 < n.toInt := Int64.lt_iff_toInt_lt.mp hpos
        exact hf.of_count (grown_spec hf hs (UInt64.le_iff_toNat_le.mpr (by omega)) hd).1.count
  · rw [if_neg hpos] at h
    by_cases hneg : n < 0
    · rw [if_pos hneg] at h
      by_cases hlt : x.sz.toNat + n.toInt < 0
      · rw [if_pos hlt] at h
        obtain ⟨⟨rfl, rfl⟩, rfl⟩ := by simpa using h
        exact hf
      · rw [if_neg hlt] at h
        obtain ⟨⟨rfl, rfl⟩, rfl⟩ := by simpa using h
        have hnew := newsz_of_neg hneg (x := x) (by omega)
        have hint : n.toInt < 0 := Int64.lt_iff_toInt_lt.mp hneg
        exact hf.of_count (shrunk_spec hf hs (UInt64.lt_iff_toNat_lt.mpr (by omega))).count
    · rw [if_neg hneg] at h
      obtain ⟨⟨rfl, rfl⟩, rfl⟩ := by simpa using h
      exact hf

end Growproc

section Sbrk

def sbrk (kend : Nat) (s : Image × Mem) (n : Int64) : Option (Image × Mem) :=
  match growproc kend s.1 n s.2 with
  | .ok ((_, x), m) => some (x, m)
  | .error _ => none

def InStep (kend : Nat) (s : Image × Mem) (n : Int64) : Prop :=
  ∀ r x' m', growproc kend s.1 n s.2 = .ok ((r, x'), m') → Fulfils s.1 n r x'

theorem growproc_of_sbrk {s t : Image × Mem} {n : Int64} (h : sbrk kend s n = some t) :
    ∃ r, growproc kend s.1 n s.2 = .ok ((r, t.1), t.2) := by
  rw [sbrk] at h
  split at h
  case h_1 r x m hg =>
    cases h
    exact ⟨r, hg⟩
  case h_2 => cases h

/-- In every run of `sbrk` calls in which the memory suffices, all calls do what they are to do exactly if all of
them are sound. -/
theorem sbrk_in_step (hk : 0 < kend) {s t : Image × Mem} {ns : List Int64} (hf : Frames kend s.2.freelist s.1.pgdir)
    (hs : Synced s.1) (hrun : Runs.run (sbrk kend) s ns = some t) :
    Runs.Along (sbrk kend) (InStep kend) s ns ↔ Runs.Along (sbrk kend) (fun s n => Sound s.1 n) s ns := by
  induction ns generalizing s with
  | nil => exact Iff.rfl
  | cons n ns ih =>
      obtain ⟨u, hu, hrest⟩ := Runs.run_cons.mp hrun
      obtain ⟨r, hg⟩ := growproc_of_sbrk hu
      have hiff := fulfils_iff hk hf hs hg
      have hframes := frames_growproc hk hf hs hg
      constructor
      · rintro ⟨hin, htail⟩
        have hful := hin r u.1 u.2 hg
        refine ⟨hiff.mp hful, fun v hv => ?_⟩
        obtain rfl := Option.some.inj (hu.symm.trans hv)
        exact (ih hframes hful.synced hrest).mp (htail u hu)
      · rintro ⟨hsound, htail⟩
        have hful := hiff.mpr hsound
        refine ⟨fun r' x' m' h => ?_, fun v hv => ?_⟩
        · obtain ⟨⟨rfl, rfl⟩, rfl⟩ := by simpa using hg.symm.trans h
          exact hful
        · obtain rfl := Option.some.inj (hu.symm.trans hv)
          exact (ih hframes hful.synced hrest).mpr (htail u hu)

theorem mapped_blank (f k : Nat) : mapped (blank 3 f) k = none := find_blank

theorem pageCount_blank (f g : Nat) : pageCount f (blank 3 g) = if g = f then 1 else 0 := weight_blank

theorem frames_blank {f : Nat} (hd : (f :: l).Nodup) (hpool : ∀ g ∈ f :: l, kend ≤ g ∧ g < npages) :
    Frames kend l (blank 3 f) := by
  have hc (g : Nat) : l.count g + pageCount g (blank 3 f) = (f :: l).count g := by
    rw [pageCount_blank, List.count_cons]
    simp only [beq_iff_eq]
  refine ⟨fun g => ?_, fun g hg => hpool g ?_⟩
  · rw [hc]
    exact List.nodup_iff_count_le_one.mp hd g
  · rw [hc] at hg
    exact List.count_pos_iff.mp hg

theorem synced_blank {sz : UInt64} (h : pages sz ≤ 1) (f : Nat) : Synced ⟨sz, blank 3 f⟩ := by
  intro k _
  simp only [mapped_blank, Option.isSome_none, Bool.false_eq_true, false_iff]
  show ¬ (1 ≤ k ∧ k < pages sz)
  omega

theorem sbrk_in_step_up_and_down :
    Runs.Along (sbrk 16) (InStep 16) (⟨4096, blank 3 20⟩, ⟨[21, 22, 23, 24, 25]⟩) [4096, 100, -8291, -1] := by
  have hrun : (Runs.run (sbrk 16) (⟨4096, blank 3 20⟩, ⟨[21, 22, 23, 24, 25]⟩) [4096, 100, -8291, -1]).isSome := by
    decide +kernel
  obtain ⟨t, ht⟩ := Option.isSome_iff_exists.mp hrun
  refine (sbrk_in_step (by decide) (frames_blank (by decide) (by decide)) (synced_blank (by decide) 20) ht).mpr ?_
  exact Runs.along_of_alongB (fun (s : Image × Mem) n => decide (Sound s.1 n))
    (fun _ _ h => of_decide_eq_true h) (by decide +kernel)

/-- A process of two pages shrinks to 0: the call fails, its size stays and its page is gone. -/
theorem shrink_to_zero : ∃ x l, Frames 16 l x.pgdir ∧ Synced x ∧ x.sz = 8192 ∧ ∃ x' m',
    growproc 16 x (-8192) ⟨l⟩ = .ok ((-1, x'), m') ∧ (mapped x.pgdir 1).isSome ∧ mapped x'.pgdir 1 = none := by
  have hf : Frames 16 [21, 22, 23, 24] (blank 3 20) := frames_blank (by decide) (by decide)
  have hs : Synced ⟨4096, blank 3 20⟩ := synced_blank (by decide) 20
  have hd : growDemand (blank 3 20) 4096 8192 ≤ [21, 22, 23, 24].length := by decide +kernel
  refine ⟨⟨8192, (grown (blank 3 20) 4096 8192 [21, 22, 23, 24]).1⟩,
    (grown (blank 3 20) 4096 8192 [21, 22, 23, 24]).2,
    hf.of_count (grown_spec hf hs (by decide) hd).1.count, (synced_grown hf hs (by decide) hd).mpr (by decide),
      rfl, ?_⟩
  have hres : (growproc 16 ⟨8192, (grown (blank 3 20) 4096 8192 [21, 22, 23, 24]).1⟩ (-8192)
      ⟨(grown (blank 3 20) 4096 8192 [21, 22, 23, 24]).2⟩).toOption.any
        (fun p => p.1.1 = -1 ∧ (mapped p.1.2.pgdir 1) = none) := by
    decide +kernel
  obtain ⟨⟨r, x'⟩, m', hg, hp⟩ := ok_of_any hres
  obtain ⟨rfl, hnone⟩ := of_decide_eq_true hp
  exact ⟨x', m', hg, by decide +kernel, hnone⟩

end Sbrk

end Xv6.Vm
