import Xv6.Lib.Refine
import Xv6.Vm.Growproc
import Mathlib

namespace Xv6.Vm

open Lib Lib.Radix Exec

variable {kend : Nat} {l : List Nat} {t t' : Pgdir} {m : Mem}

/-- No page has come to a page table and a free list or has left them, and the kernel's half is as before. -/
structure Kept (t : Pgdir) (l : List Nat) (t' : Pgdir) (l' : List Nat) : Prop where
  count : ∀ f, pageCount f t' + l'.count f = pageCount f t + l.count f
  top : SameTop t t'

theorem Kept.refl (t : Pgdir) (l : List Nat) : Kept t l t l := ⟨fun _ => rfl, rfl, fun _ _ => rfl⟩

theorem Kept.trans {t'' : Pgdir} {l' l'' : List Nat} (h : Kept t l t' l') (h' : Kept t' l' t'' l'') :
    Kept t l t'' l'' :=
  ⟨fun f => (h'.count f).trans (h.count f), h.top.trans h'.top⟩

theorem kalloc_ok {o : Option Nat} (h : kalloc ⟨l⟩ = .ok (o, m)) : ∃ f, o = some f ∧ l = f :: m.freelist := by
  cases l with
  | nil => cases h
  | cons f l =>
      cases h
      exact ⟨f, rfl, rfl⟩

theorem kernelHalf_base {va : UInt64} (h : vpage va = 2 ^ 35) : kernelHalf va = true := by
  rw [kernelHalf, h]
  decide

theorem mappages_ok {va : UInt64} {k : Nat} {pte : Pte} {r : Pgdir × Bool} (hva : vpage va = k) (hk : k ≤ 2 ^ 35)
    (h : mappages t va pte ⟨l⟩ = .ok (r, m)) :
    k < 2 ^ 35 ∧ mapped t k = none ∧ lacking 3 t k ≤ l.length ∧ r = (install t k l pte, true) ∧
      m = ⟨(grow 3 t k l).2⟩ := by
  rcases Nat.eq_or_lt_of_le hk with rfl | hlt
  · rw [mappages, if_pos (kernelHalf_base hva)] at h
    cases h
  · have hno : ¬ kernelHalf va = true := by
      rw [kernelHalf_of_lt (hva ▸ hlt)]
      exact Bool.false_ne_true
    have hfree : mapped t k = none := by
      by_contra hne
      obtain ⟨q, hq⟩ := Option.ne_none_iff_exists'.mp hne
      rw [mappages, if_neg hno, hva] at h
      obtain ⟨r, u, hwalk, hrest⟩ := bind_eq_ok.mp h
      rw [walkLevels_eq] at hwalk
      split at hwalk
      · cases hwalk
        have hsome : (find 3 (grow 3 t k l).1 k).join.isSome := by
          rw [get_grow, show (find 3 t k).join = some q from hq]
          rfl
        simp only [Bool.true_eq_false, if_false, if_pos hsome] at hrest
        cases hrest
      · cases hwalk
    rw [mappages_eq _ hva hlt hfree] at h
    split at h
    next hlack =>
      cases h
      exact ⟨hlt, hfree, hlack, rfl, rfl⟩
    next => cases h

theorem install_kept {k f : Nat} {u : Bool} (hk : k < 2 ^ 35) (hfree : mapped t k = none)
    (hlack : lacking 3 t k ≤ l.length) :
    Kept t (f :: l) (install t k l ⟨f, u⟩) (grow 3 t k l).2 := by
  refine ⟨fun g => ?_, (sameTop_grow hk).trans (sameTop_set hk)⟩
  have := pageCount_install (f := g) ⟨f, u⟩ hlack hfree
  rw [List.count_cons]
  simp only [beq_iff_eq] at this ⊢
  omega

theorem allocLoop_ok {oldsz newsz a : UInt64} {n lo cnt : Nat} {r : Pgdir × Bool} (ha : a.toNat = lo * 4096)
    (hcnt : pages newsz = lo + cnt) (hn : cnt ≤ n) (hlo : lo ≤ 2 ^ 35)
    (h : allocLoop kend oldsz newsz n t a ⟨l⟩ = .ok (r, m)) :
    r.2 = true ∧ lo + cnt ≤ 2 ^ 35 ∧ Kept t l r.1 m.freelist := by
  induction cnt generalizing t lo l a n with
  | zero =>
      have hnot : ¬ a < newsz := by
        rw [lt_of_page ha]
        omega
      cases n with
      | zero =>
          cases h
          exact ⟨rfl, hlo, .refl ..⟩
      | succ n =>
          rw [allocLoop, if_neg hnot] at h
          cases h
          exact ⟨rfl, hlo, .refl ..⟩
  | succ cnt ih =>
      obtain ⟨n, rfl⟩ : ∃ m, n = m + 1 := ⟨n - 1, by omega⟩
      have hlt : a < newsz := by
        rw [lt_of_page ha]
        omega
      rw [allocLoop, if_pos hlt] at h
      obtain ⟨o, u, hk, hrest⟩ := bind_eq_ok.mp h
      obtain ⟨f, rfl, rfl⟩ := kalloc_ok hk
      obtain ⟨q, v, hmap, hrest⟩ := bind_eq_ok.mp hrest
      obtain ⟨hlt, hfree, hlack, rfl, rfl⟩ := mappages_ok (vpage_of_toNat ha) hlo hmap
      obtain ⟨hdone, hle, hkept⟩ := ih (add_page ha (by omega)) (by omega) (by omega) (by omega) hrest
      exact ⟨hdone, by omega, (install_kept hlt hfree hlack).trans hkept⟩

/-- The size that `allocuvm` returns. -/
def allocSize (oldsz newsz : UInt64) : UInt64 :=
  if newsz ≥ kernbase then 0 else if newsz < oldsz then oldsz else newsz

theorem allocuvm_ok {oldsz newsz : UInt64} {r : Pgdir × UInt64} (hold : pages oldsz ≤ 2 ^ 35)
    (h : allocuvm kend t oldsz newsz ⟨l⟩ = .ok (r, m)) :
    r.2 = allocSize oldsz newsz ∧ pages r.2 ≤ 2 ^ 35 ∧ Kept t l r.1 m.freelist := by
  rw [allocuvm] at h
  rw [allocSize]
  by_cases hbase : newsz ≥ kernbase
  · rw [if_pos hbase] at h ⊢
    cases h
    exact ⟨rfl, by show pages 0 ≤ 2 ^ 35; decide, .refl ..⟩
  · rw [if_neg hbase] at h ⊢
    by_cases hlt : newsz < oldsz
    · rw [if_pos hlt] at h ⊢
      cases h
      exact ⟨rfl, hold, .refl ..⟩
    · rw [if_neg hlt] at h ⊢
      obtain ⟨q, v, hloop, hrest⟩ := bind_eq_ok.mp h
      have hsmall : oldsz.toNat ≤ 2 ^ 35 * 4096 := by
        have : (oldsz.toNat + 4095) / 4096 ≤ 2 ^ 35 := hold
        omega
      have hround : (pgroundup oldsz).toNat = pages oldsz * 4096 := pgroundup_toNat (by omega)
      have hmono := pages_mono (UInt64.not_lt.mp hlt)
      obtain ⟨hdone, hle, hkept⟩ := allocLoop_ok hround (Nat.add_sub_of_le hmono).symm
        (rounds_ge hround) hold hloop
      obtain ⟨t', done⟩ := q
      cases hdone
      cases hrest
      exact ⟨rfl, by show pages newsz ≤ _; omega, hkept⟩

theorem deallocuvm_ok {oldsz newsz : UInt64} {r : Pgdir × UInt64} (hk : 0 < kend) (hf : Frames kend l t)
    (hold : pages oldsz ≤ 2 ^ 35) (h : deallocuvm kend t oldsz newsz ⟨l⟩ = .ok (r, m)) :
    pages r.2 ≤ 2 ^ 35 ∧ Kept t l r.1 m.freelist := by
  rw [deallocuvm] at h
  by_cases hge : newsz ≥ oldsz
  · rw [if_pos hge] at h
    cases h
    exact ⟨hold, .refl ..⟩
  · rw [if_neg hge] at h
    have hlt := UInt64.not_le.mp hge
    have hlt' := UInt64.lt_iff_toNat_lt.mp hlt
    have hmono := pages_mono (UInt64.le_of_lt hlt)
    have hsmall : oldsz.toNat ≤ 2 ^ 35 * 4096 := by
      have : (oldsz.toNat + 4095) / 4096 ≤ 2 ^ 35 := hold
      omega
    have hround : (pgroundup newsz).toNat = pages newsz * 4096 := pgroundup_toNat (by omega)
    rw [bind_ok (deallocLoop_eq hk hround (Nat.add_sub_of_le hmono).symm (rounds_ge hround) (by omega)
      fun k pte _ _ hm => hf.mapped_pool hm)] at h
    cases h
    have hrel := release_spec (t := t) (l := l) ((Nat.add_sub_of_le hmono).trans_le hold)
    exact ⟨hmono.trans hold, hrel.count, hrel.top⟩

theorem growproc_ok {x : Image} {n : Int64} {r : Int × Image} (hk : 0 < kend) (hf : Frames kend l x.pgdir)
    (hsz : pages x.sz ≤ 2 ^ 35) (h : growproc kend x n ⟨l⟩ = .ok (r, m)) :
    pages r.2.sz ≤ 2 ^ 35 ∧ Kept x.pgdir l r.2.pgdir m.freelist := by
  have hset {q : Pgdir × UInt64} {u : Mem} (hq : pages q.2 ≤ 2 ^ 35 ∧ Kept x.pgdir l q.1 u.freelist)
      (h : (if q.2 = 0 then pure (-1, { x with pgdir := q.1 }) else pure (0, ⟨q.2, q.1⟩) : VmM (Int × Image)) u =
        .ok (r, m)) : pages r.2.sz ≤ 2 ^ 35 ∧ Kept x.pgdir l r.2.pgdir m.freelist := by
    split at h
    · cases h
      exact ⟨hsz, hq.2⟩
    · cases h
      exact hq
  rw [growproc] at h
  split at h
  · obtain ⟨q, u, hq, hrest⟩ := bind_eq_ok.mp h
    exact hset (allocuvm_ok hsz hq).2 hrest
  · split at h
    · obtain ⟨q, u, hq, hrest⟩ := bind_eq_ok.mp h
      exact hset (deallocuvm_ok hk hf hsz hq) hrest
    · cases h
      exact ⟨hsz, .refl ..⟩

/-- The entries of the first table from the kernel's half on are free, but for the kernel's own. -/
def LowOnly (t : Pgdir) : Prop := ∀ i : Fin 512, 256 ≤ i.val → t.2 i = none

theorem LowOnly.of_sameTop (h : LowOnly t) (ht : SameTop t t') : LowOnly t' :=
  fun i hi => (ht.2 i hi).trans (h i hi)

theorem lowOnly_blank (f : Nat) : LowOnly (blank 3 f) := fun _ _ => rfl

theorem copyLoop_ok {d : Pgdir} {sz i : UInt64} {n lo cnt : Nat} {r : Pgdir × Bool} (hi : i.toNat = lo * 4096)
    (hcnt : pages sz = lo + cnt) (hn : cnt ≤ n) (hle : lo + cnt ≤ 2 ^ 35)
    (h : copyLoop t sz n d i ⟨l⟩ = .ok (r, m)) : r.2 = true ∧ Kept d l r.1 m.freelist := by
  induction cnt generalizing d lo l i n with
  | zero =>
      have hnot : ¬ i < sz := by
        rw [lt_of_page hi]
        omega
      cases n with
      | zero =>
          cases h
          exact ⟨rfl, .refl ..⟩
      | succ n =>
          rw [copyLoop, if_neg hnot] at h
          cases h
          exact ⟨rfl, .refl ..⟩
  | succ cnt ih =>
      obtain ⟨n, rfl⟩ : ∃ m, n = m + 1 := ⟨n - 1, by omega⟩
      have hlt : i < sz := by
        rw [lt_of_page hi]
        omega
      rw [copyLoop, if_pos hlt, bind_ok (walkpgdir_eq (by rw [vpage_of_toNat hi]; omega))] at h
      generalize find 3 t (vpage i) = o at h
      rcases o with _ | _ | pte
      · cases h
      · cases h
      · obtain ⟨o, u, hk, hrest⟩ := bind_eq_ok.mp h
        obtain ⟨f, rfl, rfl⟩ := kalloc_ok hk
        obtain ⟨q, v, hmap, hrest⟩ := bind_eq_ok.mp hrest
        obtain ⟨hlt, hfree, hlack, rfl, rfl⟩ := mappages_ok (vpage_of_toNat hi) (by omega) hmap
        obtain ⟨hdone, hkept⟩ := ih (add_page hi (by omega)) (by omega) (by omega) (by omega) hrest
        exact ⟨hdone, (install_kept hlt hfree hlack).trans hkept⟩

theorem setupkvm_ok {o : Option Pgdir} (h : setupkvm ⟨l⟩ = .ok (o, m)) :
    ∃ f, o = some (blank 3 f) ∧ l = f :: m.freelist := by
  obtain ⟨o', u, hk, hrest⟩ := bind_eq_ok.mp h
  obtain ⟨f, rfl, rfl⟩ := kalloc_ok hk
  cases hrest
  exact ⟨f, rfl, rfl⟩

theorem copyuvm_ok {sz : UInt32} {o : Option Pgdir} (h : copyuvm kend t sz ⟨l⟩ = .ok (o, m)) :
    ∃ d, o = some d ∧ (∀ f, pageCount f d + m.freelist.count f = l.count f) ∧ LowOnly d := by
  obtain ⟨o', u, hset, hrest⟩ := bind_eq_ok.mp h
  obtain ⟨f, rfl, rfl⟩ := setupkvm_ok hset
  obtain ⟨r, v, hloop, hrest⟩ := bind_eq_ok.mp hrest
  have hsz : sz.toUInt64.toNat < 2 ^ 32 := by
    rw [UInt32.toNat_toUInt64]
    exact sz.toNat_lt
  have hpages : pages sz.toUInt64 ≤ 2 ^ 35 := by
    show (sz.toUInt64.toNat + 4095) / 4096 ≤ 2 ^ 35
    omega
  have hone : (4096 : UInt64).toNat = 1 * 4096 := rfl
  have hdone : r.2 = true ∧ Kept (blank 3 f) u.freelist r.1 v.freelist := by
    by_cases h1 : 1 ≤ pages sz.toUInt64
    · exact copyLoop_ok hone (Nat.add_sub_of_le h1).symm (rounds_ge hone) (by omega) hloop
    · have hnot : ¬ (4096 : UInt64) < sz.toUInt64 := by
        rw [lt_of_page hone]
        omega
      cases hn : rounds 4096 sz.toUInt64 with
      | zero =>
          rw [hn] at hloop
          cases hloop
          exact ⟨rfl, .refl ..⟩
      | succ n =>
          rw [hn, copyLoop, if_neg hnot] at hloop
          cases hloop
          exact ⟨rfl, .refl ..⟩
  obtain ⟨d, done⟩ := r
  obtain ⟨rfl, hkept⟩ := hdone
  cases hrest
  refine ⟨d, rfl, fun g => ?_, (lowOnly_blank f).of_sameTop hkept.top⟩
  have hcount : pageCount g d + m.freelist.count g = pageCount g (blank 3 f) + u.freelist.count g := hkept.count g
  rw [pageCount_blank] at hcount
  rw [hcount, List.count_cons, Nat.add_comm]
  simp only [beq_iff_eq]

theorem clearpteu_ok {uva : UInt64} (hva : vpage uva < 2 ^ 35) (h : clearpteu t uva ⟨l⟩ = .ok (t', m)) :
    m = ⟨l⟩ ∧ Kept t l t' l := by
  rw [clearpteu, bind_ok (walkpgdir_eq hva)] at h
  rcases hpte : find 3 t (vpage uva) with _ | _ | pte
  · rw [hpte] at h
    cases h
  · rw [hpte] at h
    cases h
    exact ⟨rfl, .refl ..⟩
  · rw [hpte] at h
    cases h
    refine ⟨rfl, fun f => ?_, sameTop_set hva⟩
    have hmapped : mapped t (vpage uva) = some pte := by rw [mapped, hpte]; rfl
    have := pageCount_set (f := f) (v := some { pte with user := false }) hmapped
    simp only [Option.elim_some] at this
    omega

section Free

variable {f : Nat}

theorem kfree_ok {v : Nat} (h : kfree kend v ⟨l⟩ = .ok ((), m)) : m = ⟨v :: l⟩ := by
  rw [kfree] at h
  split at h
  · cases h
  · cases h
    rfl

theorem forM_count {α : Type} {g : α → VmM Unit} {c : α → Nat}
    (hg : ∀ i l m, g i ⟨l⟩ = .ok ((), m) → m.freelist.count f = c i + l.count f) {is : List α}
    (h : is.forM g ⟨l⟩ = .ok ((), m)) : m.freelist.count f = (is.map c).sum + l.count f := by
  induction is generalizing l with
  | nil =>
      cases h
      simp
  | cons i is ih =>
      obtain ⟨_, u, hi, hrest⟩ := bind_eq_ok.mp h
      have h1 := hg i l u hi
      have h2 := ih hrest
      rw [List.map_cons, List.sum_cons]
      omega

theorem entry_count {n : Nat} {o : Option (Table 512 Nat Pte n)} {c : Table 512 Nat Pte n → Nat}
    (hc : ∀ t l m, freeTable kend n t ⟨l⟩ = .ok ((), m) → m.freelist.count f = c t + l.count f)
    (h : (o.elim (pure ()) (freeTable kend n) : VmM Unit) ⟨l⟩ = .ok ((), m)) :
    m.freelist.count f = o.elim 0 c + l.count f := by
  cases o with
  | none =>
      cases h
      simp
  | some t => exact hc t l m h

theorem freeTable_count {n : Nat} {t : Table 512 Nat Pte n} (h : freeTable kend n t ⟨l⟩ = .ok ((), m)) :
    m.freelist.count f =
      weight (fun g => if g = f then 1 else 0) (fun p : Pte => if p.page = f then 1 else 0) n t + l.count f := by
  induction n generalizing l m with
  | zero =>
      obtain rfl := kfree_ok h
      rw [List.count_cons]
      simp only [beq_iff_eq, weight]
      omega
  | succ n ih =>
      obtain ⟨_, u, hloop, hrest⟩ := bind_eq_ok.mp h
      obtain rfl := kfree_ok hrest
      have hsum := forM_count (fun i l m hi => entry_count (fun t l m => ih) hi) hloop
      rw [← Fin.sum_univ_def] at hsum
      rw [List.count_cons, hsum]
      simp only [beq_iff_eq, weight]
      omega

theorem freevm_none : freevm kend none = panic .freevm := rfl

theorem freevm_ok (ht : LowOnly t) (h : freevm kend (some t) ⟨l⟩ = .ok ((), m)) :
    m.freelist.count f = pageCount f t + l.count f := by
  obtain ⟨_, u, hloop, hrest⟩ := bind_eq_ok.mp h
  obtain rfl := kfree_ok hrest
  have hsum := forM_count (f := f) (fun i l m hi => entry_count (fun t l m => freeTable_count) hi) hloop
  have hhigh : ∀ i ∈ (List.finRange 512).drop 256, 256 ≤ i.val := by
    intro i hi
    obtain ⟨j, hj, rfl⟩ := List.mem_iff_getElem.mp hi
    simp
  have hall := Fin.sum_univ_def fun i => (t.2 i).elim 0
    (weight (fun g => if g = f then 1 else 0) (fun p : Pte => if p.page = f then 1 else 0) 3)
  rw [← List.take_append_drop 256 (List.finRange 512), List.map_append, List.sum_append] at hall
  have hzero : (((List.finRange 512).drop 256).map fun i => (t.2 i).elim 0
      (weight (fun g => if g = f then 1 else 0) (fun p : Pte => if p.page = f then 1 else 0) 3)).sum = 0 := by
    refine List.sum_eq_zero fun x hx => ?_
    obtain ⟨i, hi, rfl⟩ := List.mem_map.mp hx
    rw [ht i (hhigh i hi)]
    rfl
  have hcount : pageCount f t = (if t.1 = f then 1 else 0) + ∑ i, (t.2 i).elim 0
      (weight (fun g => if g = f then 1 else 0) (fun p : Pte => if p.page = f then 1 else 0) 3) := rfl
  rw [List.count_cons, hsum, hcount, hall, hzero]
  simp only [beq_iff_eq]
  omega

end Free

end Xv6.Vm
