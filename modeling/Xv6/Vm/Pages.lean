import Xv6.Vm.Model

namespace Xv6.Vm

open Lib Lib.Radix Exec Finset

section Addresses

theorem and_highMask {j x : Nat} (hj : j ≤ 64) (h : x < 2 ^ 64) : x &&& (2 ^ 64 - 2 ^ j) = x / 2 ^ j * 2 ^ j := by
  have hc : (2 ^ 64 - 2 ^ j : Nat) = (2 ^ (64 - j) - 1) <<< j := by
    rw [Nat.shiftLeft_eq, Nat.sub_mul, ← pow_add, Nat.sub_add_cancel hj, Nat.one_mul]
  have hx : x / 2 ^ j * 2 ^ j = (x >>> j) <<< j := by rw [Nat.shiftLeft_eq, Nat.shiftRight_eq_div_pow]
  rw [hc, hx]
  apply Nat.eq_of_testBit_eq
  intro i
  rw [Nat.testBit_and, Nat.testBit_shiftLeft, Nat.testBit_shiftLeft, Nat.testBit_two_pow_sub_one,
    Nat.testBit_shiftRight]
  by_cases hi : j ≤ i
  · simp only [hi, decide_true, Bool.true_and]
    rw [Nat.add_sub_cancel' hi]
    by_cases hlt : i - j < 64 - j
    · simp [hlt]
    · have : x.testBit i = false :=
        Nat.testBit_lt_two_pow (h.trans_le (Nat.pow_le_pow_right (by decide) (by omega)))
      simp [this]
  · simp [hi]

def pages (sz : UInt64) : Nat := (sz.toNat + 4095) / pgsize

theorem pgroundup_toNat {a : UInt64} (h : a.toNat + 4095 < 2 ^ 64) : (pgroundup a).toNat = pages a * 4096 := by
  have h1 : (a.toNat + (4095 : UInt64).toNat) % 2 ^ 64 = a.toNat + 4095 := Nat.mod_eq_of_lt h
  have h2 : (~~~4095 : UInt64).toNat = 2 ^ 64 - 4096 := by decide
  rw [pgroundup, UInt64.toNat_and, UInt64.toNat_add, h1, h2, show (4096 : Nat) = 2 ^ 12 from rfl,
    and_highMask (by decide) h]
  rfl

theorem vpage_of_toNat {a : UInt64} {k : Nat} (h : a.toNat = k * 4096) : vpage a = k := by
  rw [vpage, h]
  exact Nat.mul_div_cancel k (by decide)

theorem kernelHalf_of_lt {a : UInt64} (h : vpage a < 2 ^ 35) : kernelHalf a = false := by
  refine decide_eq_false fun he => ?_
  have hv := congrArg Fin.val he
  simp only [index, Fin.val_ofNat] at hv
  have : vpage a / 512 ^ 3 < 256 := Nat.div_lt_of_lt_mul (by simpa using h)
  rw [Nat.mod_eq_of_lt (by omega)] at hv
  have h256 : ((256 : Fin 512) : Nat) = 256 := rfl
  omega

theorem lt_of_page {a b : UInt64} {k : Nat} (ha : a.toNat = k * 4096) : a < b ↔ k < pages b := by
  rw [UInt64.lt_iff_toNat_lt, ha]
  show k * 4096 < b.toNat ↔ k < (b.toNat + 4095) / 4096
  omega

theorem add_page {a : UInt64} {k : Nat} (ha : a.toNat = k * 4096) (h : (k + 1) * 4096 < 2 ^ 64) :
    (a + 4096).toNat = (k + 1) * 4096 := by
  rw [UInt64.toNat_add, ha]
  have : (4096 : UInt64).toNat = 4096 := rfl
  rw [this, Nat.mod_eq_of_lt (by omega)]
  omega

end Addresses

def mapped (t : Pgdir) (k : Nat) : Option Pte := (find 3 t k).join

def pageCount (f : Nat) (t : Pgdir) : Nat :=
  weight (fun g => if g = f then 1 else 0) (fun p => if p.page = f then 1 else 0) 4 t

theorem kalloc_cons (r : Nat) (l : List Nat) : kalloc ⟨r :: l⟩ = .ok (some r, ⟨l⟩) := rfl

theorem kalloc_nil : kalloc ⟨[]⟩ = .error (.panic .outOfMemory) := rfl

theorem walkLevels_eq (n : Nat) (t : Table 512 Nat Pte (n + 1)) (k : Nat) (l : List Nat) :
    walkLevels n t k ⟨l⟩ =
      if lacking n t k ≤ l.length then .ok (((grow n t k l).1, true), ⟨(grow n t k l).2⟩)
      else .error (.panic .outOfMemory) := by
  induction n generalizing l with
  | zero => rfl
  | succ n ih =>
      rw [walkLevels]
      cases hc : t.2 (index 512 (n + 1) k) with
      | some c =>
          rw [lacking_some hc, grow_some hc]
          simp only
          by_cases h : lacking n c k ≤ l.length
          · have hstep : walkLevels n c k ⟨l⟩ = .ok (((grow n c k l).1, true), ⟨(grow n c k l).2⟩) := by
              rw [ih, if_pos h]
            rw [if_pos h, bind_ok hstep]
            rfl
          · rw [if_neg h, bind_error (by rw [ih, if_neg h])]
      | none =>
          rw [lacking_none hc]
          simp only
          cases l with
          | nil =>
              rw [bind_error kalloc_nil]
              simp
          | cons f l =>
              have hb : lacking n (blank n f : Table 512 Nat Pte (n + 1)) k = n := lacking_blank
              rw [bind_ok (kalloc_cons f l), grow_none hc]
              simp only [List.length_cons, Nat.add_le_add_iff_right]
              by_cases h : n ≤ l.length
              · have hstep := ih (blank n f) l
                rw [hb, if_pos h] at hstep
                rw [if_pos h, bind_ok hstep]
                rfl
              · rw [if_neg h, bind_error (by rw [ih, hb, if_neg h])]

section Extend

variable {t : Pgdir} {k k' lo cnt : Nat} {l : List Nat} {pte : Pte} {f : Nat} {u : Nat → Bool}

def install (t : Pgdir) (k : Nat) (l : List Nat) (pte : Pte) : Pgdir := Radix.set 3 (grow 3 t k l).1 k (some pte)

theorem mappages_eq {va : UInt64} (pte : Pte) (hva : vpage va = k) (hk : k < 2 ^ 35) (hfree : mapped t k = none) :
    mappages t va pte ⟨l⟩ =
      if lacking 3 t k ≤ l.length then .ok ((install t k l pte, true), ⟨(grow 3 t k l).2⟩)
      else .error (.panic .outOfMemory) := by
  rw [mappages, if_neg (by rw [kernelHalf_of_lt (hva ▸ hk)]; simp), hva]
  by_cases h : lacking 3 t k ≤ l.length
  · have hwalk := walkLevels_eq 3 t k l
    rw [if_pos h] at hwalk
    have hnone : (find 3 (grow 3 t k l).1 k).join.isSome = false := by
      rw [get_grow, show (find 3 t k).join = none from hfree]
      rfl
    rw [if_pos h, bind_ok hwalk]
    simp only [Bool.true_eq_false, if_false, hnone]
    rfl
  · rw [if_neg h, bind_error (by rw [walkLevels_eq, if_neg h])]

theorem mapped_install_self (h : lacking 3 t k ≤ l.length) : mapped (install t k l pte) k = some pte := by
  rw [mapped, install, find_set_self (grow_spec h).2]
  rfl

theorem mapped_install_of_ne (hk : k < 2 ^ 36) (hk' : k' < 2 ^ 36) (hne : k' ≠ k) :
    mapped (install t k l pte) k' = mapped t k' := by
  have hmod : k % 512 ^ (3 + 1) ≠ k' % 512 ^ (3 + 1) := by
    rw [Nat.mod_eq_of_lt (by simpa using hk), Nat.mod_eq_of_lt (by simpa using hk')]
    exact hne.symm
  rw [mapped, install, find_set_of_ne hmod, get_grow]
  rfl

theorem pageCount_install (pte : Pte) (h : lacking 3 t k ≤ l.length) (hfree : mapped t k = none) :
    pageCount f (install t k l pte) + (grow 3 t k l).2.count f =
      pageCount f t + l.count f + if pte.page = f then 1 else 0 := by
  have hsum (l : List Nat) : (l.map fun g => if g = f then 1 else 0).sum = l.count f := by
    rw [List.count_eq_countP, List.countP_eq_length_filter]
    induction l with
    | nil => rfl
    | cons g l ih => by_cases hg : g = f <;> simp [hg, ih, Nat.add_comm]
  have hgrow := weight_grow (a := fun g => if g = f then 1 else 0) (b := fun p : Pte => if p.page = f then 1 else 0)
    (t := t) (k := k) (l := l)
  obtain ⟨o, ho⟩ := Option.isSome_iff_exists.mp (grow_spec h).2
  have hset := weight_set (a := fun g => if g = f then 1 else 0) (b := fun p : Pte => if p.page = f then 1 else 0)
    (v := some pte) ho
  have hnone : o = none := by
    have : (find 3 (grow 3 t k l).1 k).join = none := get_grow.trans hfree
    rwa [ho, Option.join_some] at this
  rw [hsum, hsum] at hgrow
  subst hnone
  simp only [Option.elim_none, Option.elim_some] at hset
  show weight _ _ (3 + 1) (Radix.set 3 _ _ _) + _ = weight _ _ (3 + 1) t + _ + _
  omega

/-- How many pages it takes to map the virtual pages from `lo` on: one for each and the tables that are missing. -/
def demand (t : Pgdir) (lo cnt : Nat) : Nat := cnt + (missing 3 t (Ico lo (lo + cnt))).card

/-- The page table after virtual pages from `lo` on have been mapped, with pages from a list, and the rest of
the list. -/
def extend (u : Nat → Bool) : (cnt : Nat) → Pgdir → Nat → List Nat → Pgdir × List Nat
  | cnt + 1, t, k, f :: l => extend u cnt (install t k l ⟨f, u k⟩) (k + 1) (grow 3 t k l).2
  | _, t, _, l => (t, l)

theorem demand_zero : demand t lo 0 = 0 := by simp [demand, missing]

theorem demand_succ (cnt : Nat) (pte : Pte) (h : lacking 3 t lo ≤ l.length) :
    demand t lo (cnt + 1) = 1 + lacking 3 t lo + demand (install t lo l pte) (lo + 1) cnt := by
  have hico : Ico lo (lo + (cnt + 1)) = insert lo (Ico (lo + 1) (lo + 1 + cnt)) := by
    ext x
    simp only [mem_Ico, mem_insert]
    omega
  have hset : missing 3 (install t lo l pte) (Ico (lo + 1) (lo + 1 + cnt)) =
      missing 3 (grow 3 t lo l).1 (Ico (lo + 1) (lo + 1 + cnt)) := by
    simp only [missing, install, present_set]
  rw [demand, demand, hico, card_missing_insert h, hset]
  omega

theorem le_demand (t : Pgdir) (lo cnt : Nat) : 1 + lacking 3 t lo ≤ demand t lo (cnt + 1) := by
  have hroom : lacking 3 t lo ≤ (List.replicate (lacking 3 t lo) 0).length := by simp
  have := demand_succ cnt ⟨0, true⟩ hroom
  omega

theorem index_lt {k : Nat} (h : k < 2 ^ 35) : (index 512 3 k).val < 256 := by
  have : k / 512 ^ 3 < 256 := Nat.div_lt_of_lt_mul (by simpa using h)
  rw [index, Fin.val_ofNat, Nat.mod_eq_of_lt (by omega)]
  exact this

def SameTop (t t' : Pgdir) : Prop := t'.1 = t.1 ∧ ∀ i : Fin 512, 256 ≤ i.val → t'.2 i = t.2 i

theorem SameTop.trans {t t' t'' : Pgdir} (h : SameTop t t') (h' : SameTop t' t'') : SameTop t t'' :=
  ⟨h'.1.trans h.1, fun i hi => (h'.2 i hi).trans (h.2 i hi)⟩

theorem sameTop_set {v : Option Pte} (hk : k < 2 ^ 35) : SameTop t (Radix.set 3 t k v) := by
  refine ⟨label_set, fun i hi => entry_set fun e => ?_⟩
  have := index_lt hk
  rw [← e] at this
  omega

theorem sameTop_grow (hk : k < 2 ^ 35) : SameTop t (grow 3 t k l).1 := by
  refine ⟨label_grow, fun i hi => entry_grow fun e => ?_⟩
  have := index_lt hk
  rw [← e] at this
  omega

theorem length_grow (h : lacking 3 t k ≤ l.length) : (grow 3 t k l).2.length + lacking 3 t k = l.length := by
  rw [(grow_spec h).1, List.length_drop]
  omega

structure Extends (u : Nat → Bool) (t : Pgdir) (lo cnt : Nat) (l : List Nat) (t' : Pgdir) (l' : List Nat) :
    Prop where
  length : l'.length + demand t lo cnt = l.length
  inside : ∀ k, lo ≤ k → k < lo + cnt → ∃ f, mapped t' k = some ⟨f, u k⟩
  outside : ∀ k, k < 2 ^ 36 → (k < lo ∨ lo + cnt ≤ k) → mapped t' k = mapped t k
  count : ∀ f, pageCount f t' + l'.count f = pageCount f t + l.count f
  top : SameTop t t'

theorem extend_spec (h : demand t lo cnt ≤ l.length) (hcnt : lo + cnt ≤ 2 ^ 35)
    (hfree : ∀ k, lo ≤ k → k < lo + cnt → mapped t k = none) :
    Extends u t lo cnt l (extend u cnt t lo l).1 (extend u cnt t lo l).2 := by
  induction cnt generalizing t lo l with
  | zero =>
      refine ⟨?_, fun k hk hk' => absurd hk' (by omega), fun _ _ _ => rfl, fun _ => rfl, rfl, fun _ _ => rfl⟩
      rw [demand_zero]
      rfl
  | succ cnt ih =>
      cases l with
      | nil =>
          have := le_demand t lo cnt
          simp only [List.length_nil] at h
          omega
      | cons f l =>
          have hlack : lacking 3 t lo ≤ l.length := by
            have := le_demand t lo cnt
            rw [List.length_cons] at h
            omega
          have hdem := demand_succ cnt ⟨f, u lo⟩ hlack
          have hlen := length_grow hlack
          have hother {k : Nat} (hk : k < 2 ^ 36) (hne : k ≠ lo) : mapped (install t lo l ⟨f, u lo⟩) k =
            mapped t k :=
            mapped_install_of_ne (by omega) hk hne
          have hrest := @ih (install t lo l ⟨f, u lo⟩) (lo + 1) (grow 3 t lo l).2
            (by rw [List.length_cons] at h; omega) (by omega)
            (fun k hk hk' => (hother (by omega) (by omega)).trans (hfree k (by omega) (by omega)))
          rw [extend]
          refine ⟨?_, fun k hk hk' => ?_, fun k hk hk' => ?_, fun g => ?_, ?_⟩
          · have := hrest.length
            rw [List.length_cons]
            omega
          · by_cases hlo : k = lo
            · subst hlo
              refine ⟨f, (hrest.outside k (by omega) (by omega)).trans (mapped_install_self hlack)⟩
            · exact hrest.inside k (by omega) (by omega)
          · rw [hrest.outside k hk (by omega)]
            exact hother hk (by omega)
          · have hc := hrest.count g
            have hi := pageCount_install (f := g) ⟨f, u lo⟩ hlack (hfree lo (by omega) (by omega))
            rw [List.count_cons]
            simp only [beq_iff_eq] at hi ⊢
            omega
          · exact ((sameTop_grow (by omega)).trans (sameTop_set (by omega))).trans hrest.top

theorem allocLoop_eq (kend : Nat) (oldsz : UInt64) {newsz a : UInt64} {n : Nat} (ha : a.toNat = lo * 4096)
    (hcnt : pages newsz = lo + cnt) (hn : cnt ≤ n) (hroom : lo + l.length < 2 ^ 35)
    (hfree : ∀ k, lo ≤ k → k < 2 ^ 35 → mapped t k = none) :
    allocLoop kend oldsz newsz n t a ⟨l⟩ =
      if demand t lo cnt ≤ l.length then
        .ok (((extend (fun _ => true) cnt t lo l).1, true), ⟨(extend (fun _ => true) cnt t lo l).2⟩)
      else .error (.panic .outOfMemory) := by
  induction cnt generalizing t lo l a n with
  | zero =>
      have hnot : ¬ a < newsz := by
        rw [lt_of_page ha]
        omega
      rw [demand_zero, if_pos (Nat.zero_le _)]
      cases n with
      | zero => rfl
      | succ n =>
          rw [allocLoop, if_neg hnot]
          rfl
  | succ cnt ih =>
      obtain ⟨n, rfl⟩ : ∃ m, n = m + 1 := ⟨n - 1, by omega⟩
      have hlt : a < newsz := by
        rw [lt_of_page ha]
        omega
      have hdem := le_demand t lo cnt
      rw [allocLoop, if_pos hlt]
      cases l with
      | nil =>
          rw [bind_error kalloc_nil, if_neg]
          simp only [List.length_nil]
          omega
      | cons f l =>
          rw [bind_ok (kalloc_cons f l)]
          rw [List.length_cons] at hroom
          have hmap := mappages_eq (l := l) ⟨f, true⟩ (vpage_of_toNat ha) (by omega)
            (hfree lo (by omega) (by omega))
          by_cases hlack : lacking 3 t lo ≤ l.length
          · rw [if_pos hlack] at hmap
            have hlen := length_grow hlack
            have hsucc := demand_succ cnt ⟨f, true⟩ hlack
            have hstep := @ih (install t lo l ⟨f, true⟩) (lo + 1) (grow 3 t lo l).2 (a + 4096) n
              (add_page ha (by omega)) (by omega) (by omega) (by omega)
              (fun k hk hk' => (mapped_install_of_ne (by omega) (by omega) (by omega)).trans
                (hfree k (by omega) hk'))
            show (mappages t a ⟨f, true⟩ >>= _) ⟨l⟩ = _
            rw [bind_ok hmap]
            simp only [if_true]
            rw [hstep, List.length_cons]
            refine if_congr ?_ rfl rfl
            omega
          · rw [if_neg hlack] at hmap
            show (mappages t a ⟨f, true⟩ >>= _) ⟨l⟩ = _
            rw [bind_error hmap, if_neg]
            rw [List.length_cons]
            omega

end Extend

section Release

variable {t : Pgdir} {lo cnt : Nat} {l : List Nat}

/-- The page table after the user pages from `lo` on have been freed, and the free list. -/
def release : (cnt : Nat) → Pgdir → Nat → List Nat → Pgdir × List Nat
  | 0, t, _, l => (t, l)
  | cnt + 1, t, k, l => match mapped t k with
    | none => release cnt t (k + 1) l
    | some pte => release cnt (Radix.set 3 t k none) (k + 1) (pte.page :: l)

structure Releases (t : Pgdir) (lo cnt : Nat) (l : List Nat) (t' : Pgdir) (l' : List Nat) : Prop where
  inside : ∀ k, lo ≤ k → k < lo + cnt → mapped t' k = none
  outside : ∀ k, k < 2 ^ 36 → (k < lo ∨ lo + cnt ≤ k) → mapped t' k = mapped t k
  count : ∀ f, pageCount f t' + l'.count f = pageCount f t + l.count f
  top : SameTop t t'

theorem mapped_set_none {k : Nat} {pte : Pte} (h : mapped t k = some pte) :
    mapped (Radix.set 3 t k none) k = none := by
  have hsome : (find 3 t k).isSome := by
    cases hf : find 3 t k with
    | none => rw [mapped, hf] at h; cases h
    | some o => rfl
  rw [mapped, find_set_self hsome]
  rfl

theorem mapped_set_of_ne {k k' : Nat} {v : Option Pte} (hk : k < 2 ^ 36) (hk' : k' < 2 ^ 36) (hne : k' ≠ k) :
    mapped (Radix.set 3 t k v) k' = mapped t k' := by
  have hmod : k % 512 ^ (3 + 1) ≠ k' % 512 ^ (3 + 1) := by
    rw [Nat.mod_eq_of_lt (by simpa using hk), Nat.mod_eq_of_lt (by simpa using hk')]
    exact hne.symm
  rw [mapped, find_set_of_ne hmod]
  rfl

theorem find_of_mapped {k : Nat} {pte : Pte} (h : mapped t k = some pte) : find 3 t k = some (some pte) := by
  cases hf : find 3 t k with
  | none => rw [mapped, hf] at h; cases h
  | some o =>
      rw [mapped, hf] at h
      exact congrArg some h

theorem pageCount_set {k f : Nat} {pte : Pte} {v : Option Pte} (h : mapped t k = some pte) :
    pageCount f (Radix.set 3 t k v) + (if pte.page = f then 1 else 0) =
      pageCount f t + v.elim 0 (fun p => if p.page = f then 1 else 0) :=
  weight_set (a := fun g => if g = f then 1 else 0) (b := fun p : Pte => if p.page = f then 1 else 0)
    (find_of_mapped h)

theorem release_spec (hcnt : lo + cnt ≤ 2 ^ 35) :
    Releases t lo cnt l (release cnt t lo l).1 (release cnt t lo l).2 := by
  induction cnt generalizing t lo l with
  | zero => exact ⟨fun k hk hk' => absurd hk' (by omega), fun _ _ _ => rfl, fun _ => rfl, rfl, fun _ _ => rfl⟩
  | succ cnt ih =>
      cases hm : mapped t lo with
      | none =>
          have hrest := @ih t (lo + 1) l (by omega)
          simp only [release, hm]
          refine ⟨fun k hk hk' => ?_, fun k hk hk' => hrest.outside k hk (by omega), hrest.count, hrest.top⟩
          by_cases hlo : k = lo
          · rw [hrest.outside k (by omega) (by omega), hlo, hm]
          · exact hrest.inside k (by omega) (by omega)
      | some pte =>
          have hrest := @ih (Radix.set 3 t lo none) (lo + 1) (pte.page :: l) (by omega)
          simp only [release, hm]
          refine ⟨fun k hk hk' => ?_, fun k hk hk' => ?_, fun f => ?_, (sameTop_set (by omega)).trans hrest.top⟩
          · by_cases hlo : k = lo
            · rw [hrest.outside k (by omega) (by omega), hlo, mapped_set_none hm]
            · exact hrest.inside k (by omega) (by omega)
          · rw [hrest.outside k hk (by omega)]
            exact mapped_set_of_ne (by omega) hk (by omega)
          · have hc := hrest.count f
            have hset := pageCount_set (f := f) (v := none) hm
            rw [List.count_cons] at hc
            simp only [beq_iff_eq, Option.elim_none] at hc hset
            omega

theorem kfree_eq {kend v : Nat} (h : kend ≤ v ∧ v < npages) : kfree kend v ⟨l⟩ = .ok ((), ⟨v :: l⟩) := by
  rw [kfree, if_neg (by omega)]
  rfl

theorem walkpgdir_eq {va : UInt64} (h : vpage va < 2 ^ 35) :
    walkpgdir t va ⟨l⟩ = .ok (find 3 t (vpage va), ⟨l⟩) := by
  rw [walkpgdir, kernelHalf_of_lt h]
  rfl

section Round

variable {kend n : Nat} {oldsz a : UInt64} (hk : vpage a < 2 ^ 35) (hlt : a < oldsz)

include hk hlt

theorem deallocLoop_none (hfree : mapped t (vpage a) = none) :
    deallocLoop kend oldsz (n + 1) t a ⟨l⟩ = deallocLoop kend oldsz n t (a + 4096) ⟨l⟩ := by
  rw [deallocLoop, if_pos hlt, bind_ok (walkpgdir_eq hk)]
  cases hf : find 3 t (vpage a) with
  | none => rfl
  | some o =>
      rw [mapped, hf, Option.join_some] at hfree
      rw [hfree]

theorem deallocLoop_some {pte : Pte} (hkend : 0 < kend) (hthere : mapped t (vpage a) = some pte)
    (hpool : kend ≤ pte.page ∧ pte.page < npages) :
    deallocLoop kend oldsz (n + 1) t a ⟨l⟩ =
      deallocLoop kend oldsz n (Radix.set 3 t (vpage a) none) (a + 4096) ⟨pte.page :: l⟩ := by
  rw [deallocLoop, if_pos hlt, bind_ok (walkpgdir_eq hk), find_of_mapped hthere]
  simp only
  rw [if_neg (by omega), bind_ok (kfree_eq hpool)]

end Round

theorem deallocLoop_eq {kend : Nat} {oldsz a : UInt64} {n : Nat} (hk : 0 < kend) (ha : a.toNat = lo * 4096)
    (hcnt : pages oldsz = lo + cnt) (hn : cnt ≤ n) (hle : lo + cnt ≤ 2 ^ 35)
    (hpool : ∀ k pte, lo ≤ k → k < lo + cnt → mapped t k = some pte → kend ≤ pte.page ∧ pte.page < npages) :
    deallocLoop kend oldsz n t a ⟨l⟩ = .ok ((release cnt t lo l).1, ⟨(release cnt t lo l).2⟩) := by
  induction cnt generalizing t lo l a n with
  | zero =>
      have hnot : ¬ a < oldsz := by
        rw [lt_of_page ha]
        omega
      cases n with
      | zero => rfl
      | succ n =>
          rw [deallocLoop, if_neg hnot]
          rfl
  | succ cnt ih =>
      obtain ⟨n, rfl⟩ : ∃ m, n = m + 1 := ⟨n - 1, by omega⟩
      have hlt : a < oldsz := by
        rw [lt_of_page ha]
        omega
      have hva := vpage_of_toNat ha
      have hlow : vpage a < 2 ^ 35 := by omega
      cases hm : mapped t lo with
      | none =>
          rw [deallocLoop_none hlow hlt (hva ▸ hm)]
          simp only [release, hm]
          exact ih (add_page ha (by omega)) (by omega) (by omega) (by omega) fun k pte hk hk' =>
            hpool k pte (by omega) (by omega)
      | some pte =>
          rw [deallocLoop_some hlow hlt hk (hva ▸ hm) (hpool lo pte (by omega) (by omega) hm), hva]
          simp only [release, hm]
          refine ih (add_page ha (by omega)) (by omega) (by omega) (by omega) fun k p hk hk' hp => ?_
          rw [mapped_set_of_ne (by omega) (by omega) (by omega)] at hp
          exact hpool k p (by omega) (by omega) hp

end Release

end Xv6.Vm
