import Xv6.Paging.Mappages

namespace Xv6.Paging

open Lib Lib.Radix Lib.RadixHeap Vm

def uses (g n : Nat) (t : Table 512 Nat UInt64 n) : Nat :=
  weight (fun f => if f = g then 1 else 0) (fun e => if frame e = g then 1 else 0) n t

def total (pml4 : Nat) (s : State) (g : Nat) : Nat := uses g 4 (treeOf leaf s pml4) + (avail s).count g

/-- Each page is used once or is free, and it is one of the pages that `kfree` takes. -/
structure Owned (kend pml4 : Nat) (s : State) : Prop where
  once : ∀ g, total pml4 s g ≤ 1
  within : ∀ g, 0 < total pml4 s g → kend ≤ g ∧ g < npages

variable {kend pml4 k g : Nat} {s t : State} {e : UInt64}

theorem Owned.of_total_eq (h : Owned kend pml4 s) (heq : ∀ g, total pml4 t g = total pml4 s g) :
    Owned kend pml4 t := by
  constructor
  · intro g
    rw [heq]
    exact h.once g
  · intro g hg
    rw [heq] at hg
    exact h.within g hg

theorem tables_le_uses {n : Nat} {t : Table 512 Nat UInt64 n} : tables g n t ≤ uses g n t := tables_le_weight

theorem Owned.growable (h : Owned kend pml4 s) : Growable leaf pml4 s := by
  have hle (g : Nat) : tables g 4 (treeOf leaf s pml4) ≤ uses g 4 (treeOf leaf s pml4) := tables_le_uses
  have honce (g : Nat) : uses g 4 (treeOf leaf s pml4) + (avail s).count g ≤ 1 := h.once g
  refine ⟨⟨?_, ?_⟩, ?_, ?_⟩
  · rw [List.nodup_iff_count_le_one]
    intro g
    have := honce g
    omega
  · intro g hg
    have hpos : 0 < (avail s).count g := List.count_pos_iff.mpr hg
    have hlt := (h.within g (Nat.lt_of_lt_of_le hpos (Nat.le_add_left ..))).2
    have : npages < 2 ^ 52 := by decide
    omega
  · intro g
    have := hle g
    have := honce g
    omega
  · intro g hg
    have hpos : 0 < (avail s).count g := List.count_pos_iff.mpr hg
    have := hle g
    have := honce g
    omega

theorem uses_of_find (h : find 3 (treeOf leaf s pml4) k = some (some e)) :
    uses g 4 (Radix.set 3 (treeOf leaf s pml4) k none) + (if frame e = g then 1 else 0) =
      uses g 4 (treeOf leaf s pml4) := by
  have hw : uses g 4 (Radix.set 3 (treeOf leaf s pml4) k none) + _ = uses g 4 (treeOf leaf s pml4) + _ :=
    weight_set h
  rw [Option.elim_none, Nat.add_zero] at hw
  exact hw

theorem tables_of_find (h : find 3 (treeOf leaf s pml4) k = some (some e))
    (honce : uses (frame e) 4 (treeOf leaf s pml4) ≤ 1) :
    tables (frame e) 4 (treeOf leaf s pml4) = 0 := by
  have hself := uses_of_find (g := frame e) h
  have hle : tables (frame e) 4 (Radix.set 3 (treeOf leaf s pml4) k none) ≤ _ := tables_le_uses
  have hset : tables (frame e) 4 (Radix.set 3 (treeOf leaf s pml4) k none) + _ =
    tables (frame e) 4 (treeOf leaf s pml4) + _ := weight_set h
  rw [if_pos rfl] at hself
  simp only [Option.elim_some, Option.elim_none] at hset
  omega

section Kfree

def State.freed (s : State) (v : Nat) : State :=
  { s with
    mem := write (Function.update s.mem v fun _ => 0x0101010101010101) v 0 (s.kmem.reduceOption.head?.elim 0 p2v)
    kmem := some v :: s.kmem }

theorem kfree_eq {v : Nat} (h : kend ≤ v ∧ v < npages) : kfree kend v s = .ok ((), s.freed v) := by
  rw [kfree, if_neg (by omega)]
  rfl

theorem freed_mem {v : Nat} (h : g ≠ v) : (s.freed v).mem g = s.mem g := by
  show write (Function.update s.mem v fun _ => 0x0101010101010101) v 0 _ g = s.mem g
  rw [write_of_ne h, Function.update_of_ne h]

theorem avail_freed {v : Nat} : avail (s.freed v) = v :: avail s := List.reduceOption_cons_of_some v s.kmem

variable {V : Type} {value : UInt64 → Option V}

theorem treeOf_freed {v : Nat} (h : tables v 4 (treeOf value s pml4) = 0) :
    treeOf value (s.freed v) pml4 = treeOf value s pml4 := by
  apply tree_congr
  intro g hg
  apply freed_mem
  rintro rfl
  exact Nat.ne_of_gt hg h

theorem lastTable_freed {v : Nat} (h : tables v 4 (treeOf value s pml4) = 0) :
    lastTable (coding value) (s.freed v).mem 3 pml4 k = lastTable (coding value) s.mem 3 pml4 k := by
  apply lastTable_congr
  intro g hg
  apply freed_mem
  rintro rfl
  exact Nat.ne_of_gt hg h

end Kfree

section Dealloc

/-- The pages from `lo` up to `hi` are no longer mapped; the pages that they were mapped to are free. -/
structure Released (pml4 lo hi : Nat) (s t : State) : Prop where
  total_eq : ∀ g, total pml4 t g = total pml4 s g
  gone : ∀ j, lo ≤ j → j < hi → lookup leaf t pml4 j = none
  outside : ∀ j < 2 ^ 35, ¬ (lo ≤ j ∧ j < hi) → lookup leaf t pml4 j = lookup leaf s pml4 j
  panics : t.panics = s.panics

theorem Released.none (h : lookup leaf s pml4 k = none) : Released pml4 k (k + 1) s s := by
  refine ⟨fun _ => rfl, ?_, fun _ _ _ => rfl, rfl⟩
  intro j hle hlt
  obtain rfl : j = k := by omega
  exact h

theorem Released.refl {lo hi : Nat} (h : hi ≤ lo) (s : State) : Released pml4 lo hi s s :=
  ⟨fun _ => rfl, fun j hle hlt => by omega, fun _ _ _ => rfl, rfl⟩

theorem Released.trans {lo mid hi : Nat} {u : State} (hlo : lo ≤ mid) (hhi : mid ≤ hi) (hmid : mid ≤ 2 ^ 35)
    (h : Released pml4 lo mid s t) (h' : Released pml4 mid hi t u) : Released pml4 lo hi s u := by
  refine ⟨fun g => (h'.total_eq g).trans (h.total_eq g), ?_, ?_, h'.panics.trans h.panics⟩
  · intro j hle hlt
    by_cases hj : j < mid
    · rw [h'.outside j (by omega) (by omega)]
      exact h.gone j hle hj
    · exact h'.gone j (by omega) hlt
  · intro j hj hne
    rw [h'.outside j hj (by omega), h.outside j hj (by omega)]

theorem released_put (h : Owned kend pml4 s) (hk : k < 2 ^ 35)
    (hg : lastTable (coding leaf) s.mem 3 pml4 k = some g)
    (he : present (s.mem g (index 512 0 k)) = true) :
    Released pml4 k (k + 1) s ((s.freed (frame (s.mem g (index 512 0 k)))).put g (index 512 0 k) 0) := by
  have hleaf : leaf (s.mem g (index 512 0 k)) = some (s.mem g (index 512 0 k)) := if_pos he
  have hfind := find_of_lastTable hg
  rw [hleaf] at hfind
  generalize s.mem g (index 512 0 k) = e at hfind ⊢
  have hnot : tables (frame e) 4 (treeOf leaf s pml4) = 0 := by
    have honce : uses (frame e) 4 (treeOf leaf s pml4) + _ ≤ 1 := h.once (frame e)
    exact tables_of_find hfind (by omega)
  have htree := treeOf_freed hnot
  have hlast : lastTable (coding leaf) (s.freed (frame e)).mem 3 pml4 k = some g := by rw [lastTable_freed hnot, hg]
  have hu : Unshared 4 (treeOf leaf (s.freed (frame e)) pml4) := by
    rw [htree]
    exact h.growable.unshared
  have hzero : leaf 0 = none := (leaf_faithful 0).mpr present_zero
  refine ⟨?_, ?_, ?_, rfl⟩
  · intro x
    have hx := uses_of_find (g := x) hfind
    have havail : avail ((s.freed (frame e)).put g (index 512 0 k) 0) = frame e :: avail s := avail_freed
    rw [total, total, treeOf_put hu hlast, htree, hzero, havail, List.count_cons]
    simp only [beq_iff_eq]
    omega
  · intro j hle hlt
    obtain rfl : j = k := by omega
    rw [lookup_put_self hu hlast, hzero]
  · intro j hj hne
    rw [lookup_put_of_ne hu hlast (by omega), lookup, htree, lookup]

theorem deallocPage_spec (h : Owned kend pml4 s) (hkend : 0 < kend) {a : UInt64} (ha : a.toNat < 2 ^ 47) :
    Exec.wp (deallocPage kend pml4 a) (fun _ t => Released pml4 (vpage a) (vpage a + 1) s t)
      (fun _ => False) s := by
  have hk : vpage a < 2 ^ 35 := by
    show a.toNat / 4096 < 2 ^ 35
    omega
  have hwalk : walkpgdir pml4 a false s = _ := walkpgdir_find leaf ha
  rw [deallocPage, Exec.wp_bind, Exec.wp, hwalk]
  cases hg : lastTable (coding leaf) s.mem 3 pml4 (vpage a) with
  | none =>
      apply Released.none
      rw [lookup, treeOf, find_tree, hg]
      rfl
  | some g =>
      show Exec.wp (if present (s.mem g (index 512 0 (vpage a))) then _ else _) _ _ s
      cases hpres : present (s.mem g (index 512 0 (vpage a))) with
      | false =>
          apply Released.none
          rw [lookup_of_lastTable hg, leaf_faithful, hpres]
      | true =>
          have hused : 0 < total pml4 s (frame (s.mem g (index 512 0 (vpage a)))) := by
            have hfind := find_of_lastTable hg
            rw [leaf, hpres, if_pos rfl] at hfind
            have := uses_of_find (g := frame (s.mem g (index 512 0 (vpage a)))) hfind
            rw [if_pos rfl] at this
            rw [total]
            omega
          have hrange := h.within _ hused
          have hne : frame (s.mem g (index 512 0 (vpage a))) ≠ 0 := by omega
          rw [if_pos rfl, if_neg hne, Exec.wp_bind, Exec.wp, kfree_eq hrange]
          exact released_put h hk hg hpres

theorem deallocLoop_spec (h : Owned kend pml4 s) (hkend : 0 < kend) {oldsz a : UInt64} (hold : oldsz.toNat ≤ 2 ^ 47)
    {n : Nat} (ha : a.toNat = k * 4096) (hn : Vm.pages oldsz ≤ k + n) :
    Exec.wp (deallocLoop kend pml4 oldsz n a) (fun _ t => Released pml4 k (Vm.pages oldsz) s t)
      (fun _ => False) s := by
  have hend : Vm.pages oldsz ≤ 2 ^ 35 := by
    show (oldsz.toNat + 4095) / 4096 ≤ 2 ^ 35
    omega
  induction n generalizing s a k with
  | zero =>
      rw [deallocLoop, if_neg (by rw [lt_of_page ha]; omega)]
      exact Released.refl hn s
  | succ n ih =>
      rw [deallocLoop]
      by_cases hlt : a < oldsz
      · have hk := (lt_of_page ha).mp hlt
        rw [if_pos hlt]
        refine (deallocPage_spec h hkend (by omega)).bind ?_
        intro _ t ht
        rw [vpage_of_toNat ha] at ht
        refine (ih (h.of_total_eq ht.total_eq) (add_page ha (by omega)) (by omega)).imp ?_
        intro _ u hu
        exact ht.trans (by omega) (by omega) (by omega) hu
      · rw [lt_of_page ha] at hlt
        rw [if_neg (by rw [lt_of_page ha]; exact hlt)]
        exact Released.refl (by omega) s

theorem deallocuvm_spec (h : Owned kend pml4 s) (hkend : 0 < kend) {oldsz newsz : UInt64}
    (hold : oldsz.toNat ≤ 2 ^ 47) :
    Exec.wp (deallocuvm kend pml4 oldsz newsz)
      (fun r t => r = (if newsz ≥ oldsz then oldsz else newsz) ∧ Released pml4 (Vm.pages newsz)
        (Vm.pages oldsz) s t)
      (fun _ => False) s := by
  rw [deallocuvm]
  by_cases hge : newsz ≥ oldsz
  · rw [if_pos hge, if_pos hge]
    refine ⟨rfl, Released.refl ?_ s⟩
    have : oldsz.toNat ≤ newsz.toNat := UInt64.le_iff_toNat_le.mp hge
    exact Nat.div_le_div_right (by omega)
  · have hlt : newsz.toNat < oldsz.toNat := by
      rw [← UInt64.lt_iff_toNat_lt]
      exact UInt64.not_le.mp hge
    have hup : (pgroundup newsz).toNat = Vm.pages newsz * 4096 := pgroundup_toNat (by omega)
    have hfuel : Vm.pages oldsz ≤ Vm.pages newsz + rounds (pgroundup newsz) oldsz := by
      rw [rounds, hup]
      show (oldsz.toNat + 4095) / 4096 ≤ Vm.pages newsz + (oldsz.toNat - Vm.pages newsz * 4096 + 4095) / 4096
      omega
    rw [if_neg hge, if_neg hge]
    refine (deallocLoop_spec h hkend hold hup hfuel).bind ?_
    intro _ t ht
    exact ⟨rfl, ht⟩

end Dealloc

section Clearpteu

theorem present_clear (e : UInt64) : present (e &&& ~~~pteU) = present e := by
  have hodd : (~~~pteU).toNat % 2 = 1 := by decide
  rw [Bool.eq_iff_iff, present_iff, present_iff, UInt64.toNat_and, Nat.and_mod_two_eq_one]
  omega

theorem frame_clear (e : UInt64) : frame (e &&& ~~~pteU) = frame e := by
  have hhigh : (~~~pteU).toNat / 2 ^ 12 = 2 ^ 52 - 1 := by decide
  have hlt := e.toNat_lt
  rw [frame, frame, UInt64.toNat_and]
  show (e.toNat &&& (~~~pteU).toNat) / 2 ^ 12 = e.toNat / 2 ^ 12
  rw [← Nat.shiftRight_eq_div_pow, Nat.shiftRight_and_distrib, Nat.shiftRight_eq_div_pow, Nat.shiftRight_eq_div_pow,
    hhigh, Nat.and_two_pow_sub_one_eq_mod]
  omega

theorem leaf_clear (e : UInt64) : leaf (e &&& ~~~pteU) = (leaf e).map (· &&& ~~~pteU) := by
  rw [leaf, leaf, present_clear]
  cases present e <;> rfl

theorem clearpteu_spec (h : Owned kend pml4 s) {uva : UInt64} (hva : uva.toNat < 2 ^ 47) :
    Exec.wp (clearpteu pml4 uva) (fun _ t => (∀ g, total pml4 t g = total pml4 s g) ∧ t.panics = s.panics ∧
      lookup leaf t pml4 (vpage uva) = (lookup leaf s pml4 (vpage uva)).map (· &&& ~~~pteU) ∧
      ∀ j < 2 ^ 35, j ≠ vpage uva → lookup leaf t pml4 j = lookup leaf s pml4 j)
      (fun e => e = .panic .clearpteu) s := by
  have hk : vpage uva < 2 ^ 35 := by
    show uva.toNat / 4096 < 2 ^ 35
    omega
  rw [clearpteu, Exec.wp_bind, Exec.wp, walkpgdir_find leaf hva]
  cases hg : lastTable (coding leaf) s.mem 3 pml4 (vpage uva) with
  | none => rfl
  | some g =>
      have hu := h.growable.unshared
      refine ⟨?_, rfl, ?_, ?_⟩
      · intro x
        show total pml4 (s.put g (index 512 0 (vpage uva)) (s.mem g (index 512 0 (vpage uva)) &&& ~~~pteU)) x = _
        have hw : uses x 4 (Radix.set 3 (treeOf leaf s pml4) (vpage uva)
            (leaf (s.mem g (index 512 0 (vpage uva)) &&& ~~~pteU))) + _ = uses x 4 (treeOf leaf s pml4) + _ :=
          weight_set (find_of_lastTable hg)
        have hsame : (leaf (s.mem g (index 512 0 (vpage uva)) &&& ~~~pteU)).elim 0 (fun e => if frame e =
          x then 1 else 0) =
            (leaf (s.mem g (index 512 0 (vpage uva)))).elim 0 (fun e => if frame e = x then 1 else 0) := by
          rw [leaf_clear]
          cases leaf (s.mem g (index 512 0 (vpage uva))) with
          | none => rfl
          | some e => exact congrArg (fun f => if f = x then 1 else 0) (frame_clear e)
        have havail : avail (s.put g (index 512 0 (vpage uva)) (s.mem g (index 512 0 (vpage uva)) &&& ~~~pteU))
          = avail s := rfl
        rw [hsame] at hw
        rw [total, total, treeOf_put hu hg, havail]
        omega
      · rw [lookup_of_lastTable hg, ← leaf_clear]
        exact lookup_put_self hu hg
      · intro j hj hne
        exact lookup_put_of_ne hu hg (by omega)

end Clearpteu

section Mappages

theorem toNat_perm {perm : Int32} (h : 0 ≤ perm ∧ perm < 4096) : perm.toInt64.toUInt64.toNat < 4096 := by
  have hpos : 0 ≤ perm.toInt := Int32.le_iff_toInt_le.mp h.1
  have hlt : perm.toInt < 4096 := Int32.lt_iff_toInt_lt.mp h.2
  have hsame : perm.toInt64.toInt = perm.toInt := Int32.toInt_toInt64 perm
  have hdef : perm.toInt64.toInt = _ := BitVec.toInt_eq_toNat_cond perm.toInt64.toBitVec
  have hnat : perm.toInt64.toBitVec.toNat = perm.toInt64.toUInt64.toNat := rfl
  have hmax := perm.toInt64.toUInt64.toNat_lt
  split at hdef <;> omega

theorem frame_rangeEntry {pa : UInt64} {perm : Int32} {i : Nat} (hpa : pa.toNat % pgsize = 0)
    (hperm : 0 ≤ perm ∧ perm < 4096)
    (hi : vpage pa + i < npages) : frame (rangeEntry pa perm.toInt64.toUInt64 i) = vpage pa + i := by
  have hi : vpage pa + i < 57344 := hi
  have hpa : pa.toNat = vpage pa * 4096 := by
    show pa.toNat = pa.toNat / 4096 * 4096
    have : pa.toNat % 4096 = 0 := hpa
    omega
  have hadd : (pa + UInt64.ofNat (i * pgsize)).toNat = pa.toNat + i * 4096 := toNat_add_pages (by omega)
  have hv2p : pa + UInt64.ofNat (i * pgsize) = v2p (vpage pa + i) := by
    apply UInt64.toNat.inj
    rw [hadd, v2p, UInt64.toNat_ofNat']
    show pa.toNat + i * 4096 = (vpage pa + i) * 4096 % 2 ^ 64
    omega
  have hflags : (perm.toInt64.toUInt64 ||| pteP).toNat < 4096 := by
    rw [UInt64.toNat_or]
    exact Nat.or_lt_two_pow (n := 12) (toNat_perm hperm) (by decide)
  rw [rangeEntry, hv2p, UInt64.or_assoc]
  exact frame_or (by omega) hflags

theorem sum_range_eq (f c g : Nat) :
    ((List.range c).map fun i => if f + i = g then 1 else 0).sum = if f ≤ g ∧ g < f + c then 1 else 0 := by
  induction c with
  | zero =>
      rw [if_neg (by omega)]
      rfl
  | succ c ih =>
      rw [List.range_succ, List.map_append, List.sum_append, ih, List.map_singleton, List.sum_singleton]
      split <;> split <;> split <;> omega

theorem uses_accounts {l : List Nat} {es : List UInt64} (h : Accounts leaf pml4 s l es t) (g : Nat) :
    uses g 4 (treeOf leaf t pml4) =
      uses g 4 (treeOf leaf s pml4) + l.count g + (es.map fun e => (leaf e).elim 0 fun e => if frame e =
        g then 1 else 0).sum := by
  rw [uses, uses, h, sum_eq_count]

theorem mappages_owned (h : Owned kend pml4 s) {va size pa : UInt64} {perm : Int32} (hsize : 0 < size)
    (hrange : va.toNat + size.toNat ≤ 2 ^ 47) (hpa : pa.toNat % pgsize = 0) (hperm : 0 ≤ perm ∧ perm < 4096)
    (hnew : ∀ i ≤ span va size, total pml4 s (vpage pa + i) = 0 ∧ kend ≤ vpage pa + i ∧ vpage pa + i < npages) :
    Exec.wp (mappages pml4 va size pa perm) (fun _ t => Owned kend pml4 t ∧
      ∀ g, (∀ i ≤ span va size, g ≠ vpage pa + i) → total pml4 t g = total pml4 s g) (fun _ => True) s := by
  have hend : vpage (pgrounddown va) + span va size < 2 ^ 35 := by
    have hpos : 0 < size.toNat := UInt64.lt_iff_toNat_lt.mp hsize
    rw [vpage_pgrounddown, span, vpage, vpage, toNat_last hsize hrange]
    show va.toNat / 4096 + ((va.toNat + size.toNat - 1) / 4096 - va.toNat / 4096) < 2 ^ 35
    omega
  rw [mappages_loop hsize hrange]
  refine (mapLoop_spec leaf_faithful h.growable hend rfl).mono ?_ (fun _ _ => trivial)
  rintro r t ⟨l, hmap⟩
  obtain ⟨c, hc, -, hacc⟩ := hmap.accounts
  have htotal (g : Nat) : total pml4 t g = total pml4 s g + if vpage pa ≤ g ∧ g < vpage pa + c then 1 else 0 := by
    have hentries : (((List.range c).map (rangeEntry pa perm.toInt64.toUInt64)).map fun e =>
        (leaf e).elim 0 fun e => if frame e = g then 1 else 0) = (List.range c).map fun i => if vpage pa + i =
          g then 1 else 0 := by
      rw [List.map_map]
      apply List.map_congr_left
      intro i hi
      have hi := List.mem_range.mp hi
      have hpres : leaf (rangeEntry pa perm.toInt64.toUInt64 i) = some (rangeEntry pa perm.toInt64.toUInt64 i) :=
        if_pos (present_or.mpr (.inr (by decide)))
      show (leaf (rangeEntry pa perm.toInt64.toUInt64 i)).elim 0 _ = _
      rw [hpres, Option.elim_some, frame_rangeEntry hpa hperm (hnew i (by omega)).2.2]
    rw [total, total, uses_accounts hacc, hentries, sum_range_eq, hmap.drawn.avail_eq, List.count_append]
    omega
  refine ⟨⟨?_, ?_⟩, ?_⟩
  · intro g
    rw [htotal]
    split
    next hin =>
      have := (hnew (g - vpage pa) (by omega)).1
      rw [Nat.add_sub_cancel' hin.1] at this
      omega
    next =>
      rw [Nat.add_zero]
      exact h.once g
  · intro g hg
    rw [htotal] at hg
    split at hg
    next hin =>
      have := (hnew (g - vpage pa) (by omega)).2
      rw [Nat.add_sub_cancel' hin.1] at this
      exact this
    next =>
      rw [Nat.add_zero] at hg
      exact h.within g hg
  · intro g hne
    rw [htotal, if_neg, Nat.add_zero]
    rintro ⟨hle, hlt⟩
    exact hne (g - vpage pa) (by omega) (Nat.add_sub_cancel' hle).symm

end Mappages

end Xv6.Paging
