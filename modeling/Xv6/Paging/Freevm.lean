import Xv6.Lib.Runs
import Xv6.Paging.Owned

namespace Xv6.Paging

open Lib Lib.Radix Lib.RadixHeap Lib.Runs Vm

variable {kend kpdpt pml4 n f g : Nat} {s t : State} {m m' : Nat → Fin 512 → UInt64}

def orderEntries (m : Nat → Fin 512 → UInt64) (below : Nat → List Nat) (f : Nat) (is : List (Fin 512)) : List Nat :=
  is.flatMap fun i => if present (m f i) then below (frame (m f i)) else []

/-- The pages that the loops of `freevm` free for a table with `n` levels below it, in this order. -/
def order (m : Nat → Fin 512 → UInt64) : Nat → Nat → List Nat
  | 0 => fun f => [f]
  | n + 1 => fun f => orderEntries m (order m n) f indices ++ [f]

theorem order_succ : order m (n + 1) f = orderEntries m (order m n) f indices ++ [f] := rfl

theorem mem_order_self : f ∈ order m n f := by
  cases n with
  | zero => exact List.mem_singleton_self f
  | succ n =>
      rw [order_succ]
      exact List.mem_append_right _ (List.mem_singleton_self f)

theorem orderEntries_congr {below below' : Nat → List Nat} {is : List (Fin 512)} (hf : m' f = m f)
    (h : ∀ i ∈ is, present (m f i) = true → below' (frame (m f i)) = below (frame (m f i))) :
    orderEntries m' below' f is = orderEntries m below f is := by
  apply List.flatMap_congr
  intro i hi
  rw [hf]
  cases hp : present (m f i) with
  | false => rfl
  | true => exact h i hi hp

theorem mem_orderEntries {below : Nat → List Nat} {is : List (Fin 512)} :
    g ∈ orderEntries m below f is ↔ ∃ i ∈ is, present (m f i) = true ∧ g ∈ below (frame (m f i)) := by
  rw [orderEntries, List.mem_flatMap]
  refine exists_congr fun i => and_congr_right fun _ => ?_
  cases present (m f i) <;> simp

theorem order_congr (h : ∀ g ∈ order m n f, m' g = m g) : order m' n f = order m n f := by
  induction n generalizing f with
  | zero => rfl
  | succ n ih =>
      have hentries : orderEntries m' (order m' n) f indices = orderEntries m (order m n) f indices := by
        apply orderEntries_congr (h f mem_order_self)
        intro i hi hp
        apply ih
        intro g hg
        apply h g
        rw [order_succ]
        exact List.mem_append_left _ (mem_orderEntries.mpr ⟨i, hi, hp, hg⟩)
      rw [order_succ, order_succ, hentries]

structure Freed (s : State) (l : List Nat) (t : State) : Prop where
  kmem : t.kmem = l.reverse.map some ++ s.kmem
  panics : t.panics = s.panics
  others : ∀ g, g ∉ l → t.mem g = s.mem g

theorem Freed.refl (s : State) : Freed s [] s := ⟨rfl, rfl, fun _ _ => rfl⟩

theorem Freed.trans {u : State} {l l' : List Nat} (h : Freed s l t) (h' : Freed t l' u) : Freed s (l ++ l') u := by
  refine ⟨?_, h'.panics.trans h.panics, ?_⟩
  · rw [h'.kmem, h.kmem, List.reverse_append, List.map_append, List.append_assoc]
  · intro g hg
    rw [List.mem_append, not_or] at hg
    rw [h'.others g hg.2, h.others g hg.1]

theorem kfree_freed (h : kend ≤ f ∧ f < npages) :
    Exec.wp (kfree kend f) (fun _ t => Freed s [f] t) (fun _ => False) s := by
  rw [Exec.wp, kfree_eq h]
  refine ⟨rfl, rfl, ?_⟩
  intro g hg
  exact freed_mem (List.ne_of_not_mem_cons hg)

theorem freeTable_succ (kend n f : Nat) :
    freeTable kend (n + 1) f = indices.forM (freeEntry (freeTable kend n) f) >>= fun _ => kfree kend f := rfl

theorem freevm_some (kend pml4 : Nat) : freevm kend (some pml4) =
    (indices.take 256).forM (freeEntry (freeTable kend 3) pml4) >>= fun _ => kfree kend pml4 := rfl

theorem entries_freed (n f : Nat) (is : List (Fin 512)) (s : State)
    (hbelow : ∀ c s, (order s.mem n c).Nodup → (∀ g ∈ order s.mem n c, kend ≤ g ∧ g < npages) →
      Exec.wp (freeTable kend n c) (fun _ t => Freed s (order s.mem n c) t) (fun _ => False) s)
    (hnodup : (orderEntries s.mem (order s.mem n) f is).Nodup) (hf : f ∉ orderEntries s.mem (order s.mem n) f is)
    (hrange : ∀ g ∈ orderEntries s.mem (order s.mem n) f is, kend ≤ g ∧ g < npages) :
    Exec.wp (is.forM (freeEntry (freeTable kend n) f))
      (fun _ t => Freed s (orderEntries s.mem (order s.mem n) f is) t) (fun _ => False) s := by
  induction is generalizing s with
  | nil => exact Freed.refl s
  | cons i is ih =>
      have hcons : orderEntries s.mem (order s.mem n) f (i :: is) =
          (if present (s.mem f i) then order s.mem n (frame (s.mem f i)) else []) ++
            orderEntries s.mem (order s.mem n) f is :=
        List.flatMap_cons
      rw [hcons] at hnodup hf hrange
      rw [List.mem_append, not_or] at hf
      obtain ⟨hn, hns, hdisj⟩ := List.nodup_append.mp hnodup
      -- the first round
      have hfirst : Exec.wp (freeEntry (freeTable kend n) f i)
          (fun _ t => Freed s (if present (s.mem f i) then order s.mem n (frame (s.mem f i)) else []) t)
          (fun _ => False) s := by
        show Exec.wp (if present (s.mem f i) then _ else _) _ _ s
        cases hp : present (s.mem f i) with
        | false => exact Freed.refl s
        | true =>
            rw [hp, if_pos rfl] at hn
            rw [if_pos rfl, if_pos rfl]
            apply hbelow _ s hn
            intro g hg
            apply hrange g (List.mem_append_left _ _)
            rw [hp, if_pos rfl]
            exact hg
      refine hfirst.bind ?_
      intro _ t ht
      -- the rest of the table and what is below it are as before
      have hrest : orderEntries t.mem (order t.mem n) f is = orderEntries s.mem (order s.mem n) f is := by
        apply orderEntries_congr (ht.others f hf.1)
        intro j hj hp
        apply order_congr
        intro g hg
        apply ht.others
        intro hg'
        exact hdisj g hg' g (mem_orderEntries.mpr ⟨j, hj, hp, hg⟩) rfl
      have hloop := ih t (by rw [hrest]; exact hns) (by rw [hrest]; exact hf.2)
        (by rw [hrest]; exact fun g hg => hrange g (List.mem_append_right _ hg))
      refine hloop.imp ?_
      intro _ u hu
      rw [hrest] at hu
      rw [hcons]
      exact ht.trans hu

theorem freeTable_freed (hnodup : (order s.mem n f).Nodup) (hrange : ∀ g ∈ order s.mem n f, kend ≤ g ∧ g < npages) :
    Exec.wp (freeTable kend n f) (fun _ t => Freed s (order s.mem n f) t) (fun _ => False) s := by
  induction n generalizing f s with
  | zero => exact kfree_freed (hrange f mem_order_self)
  | succ n ih =>
      have hself := hrange f mem_order_self
      rw [order_succ] at hnodup hrange ⊢
      have hsplit := List.nodup_append.mp hnodup
      have hloop := entries_freed n f indices s (fun c s => ih (f := c) (s := s)) hsplit.1
        (fun hf => hsplit.2.2 f hf f (List.mem_singleton_self f) rfl)
          (fun g hg => hrange g (List.mem_append_left _ hg))
      rw [freeTable_succ, Exec.wp_bind]
      refine hloop.imp ?_
      intro _ t ht
      refine (kfree_freed hself).imp ?_
      intro _ u hu
      exact ht.trans hu

def freevmOrder (m : Nat → Fin 512 → UInt64) (pml4 : Nat) : List Nat :=
  orderEntries m (order m 3) pml4 (indices.take 256) ++ [pml4]

theorem freevm_freed (hnodup : (freevmOrder s.mem pml4).Nodup)
    (hrange : ∀ g ∈ freevmOrder s.mem pml4, kend ≤ g ∧ g < npages) :
    Exec.wp (freevm kend (some pml4)) (fun _ t => Freed s (freevmOrder s.mem pml4) t) (fun _ => False) s := by
  have hself := hrange pml4 (List.mem_append_right _ (List.mem_singleton_self pml4))
  rw [freevmOrder] at hnodup hrange ⊢
  have hsplit := List.nodup_append.mp hnodup
  have hloop := entries_freed 3 pml4 (indices.take 256) s (fun c s => freeTable_freed (f := c) (s := s)) hsplit.1
    (fun hf => hsplit.2.2 pml4 hf pml4 (List.mem_singleton_self pml4) rfl)
      (fun g hg => hrange g (List.mem_append_left _ hg))
  rw [freevm_some, Exec.wp_bind]
  refine hloop.imp ?_
  intro _ t ht
  refine (kfree_freed hself).imp ?_
  intro _ u hu
  exact ht.trans hu

section Count

theorem count_orderEntries {below : Nat → List Nat} {is : List (Fin 512)} : (orderEntries m below f is).count g =
    (is.map fun i => if present (m f i) then (below (frame (m f i))).count g else 0).sum := by
  rw [orderEntries, List.count_flatMap]
  congr 1
  apply List.map_congr_left
  intro i _
  show List.count g (if present (m f i) then _ else _) = _
  cases present (m f i) <;> rfl

theorem sum_indices (x : Fin 512 → Nat) : (indices.map x).sum = ∑ i, x i := by rw [indices_eq, ← Fin.sum_univ_def]

theorem count_order (hn : n ≤ 2) : (order m (n + 1) f).count g = uses g (n + 1) (tree (coding leaf) m n f) := by
  induction n generalizing f with
  | zero =>
      have hentry (i : Fin 512) : (if present (m f i) then (order m 0 (frame (m f i))).count g else 0) =
          (leaf (m f i)).elim 0 fun e => if frame e = g then 1 else 0 := by
        rw [leaf]
        cases present (m f i) with
        | false => rfl
        | true =>
            show [frame (m f i)].count g = _
            rw [List.count_singleton]
            simp only [beq_iff_eq]
            rfl
      rw [order_succ, List.count_append, count_orderEntries, sum_indices, Finset.sum_congr rfl fun i _ =>
        hentry i, uses, weight_tree_zero, List.count_singleton, Nat.add_comm]
      simp only [beq_iff_eq]
      rfl
  | succ n ih =>
      have hentry (i : Fin 512) : (if present (m f i) then (order m (n + 1) (frame (m f i))).count g else 0) =
          ((coding leaf).child n i (m f i)).elim 0 fun c => uses g (n + 1) (tree (coding leaf) m n c) := by
        have hchild : (coding leaf).child n i (m f i) = if present (m f i) then some (frame (m f i)) else none :=
          if_neg (by omega)
        rw [hchild]
        cases present (m f i) with
        | false => rfl
        | true => exact ih (by omega)
      rw [order_succ, List.count_append, count_orderEntries, sum_indices, Finset.sum_congr rfl fun i _ =>
        hentry i, uses, weight_tree_succ, List.count_singleton, Nat.add_comm]
      simp only [beq_iff_eq]
      rfl

theorem lt_of_mem_take {i : Fin 512} (hi : i ∈ indices.take 256) : i.val < 256 := by
  rw [indices_eq] at hi
  obtain ⟨j, hj, rfl⟩ := List.mem_iff_getElem.mp hi
  rw [List.length_take] at hj
  simp only [List.getElem_take, List.getElem_finRange, Fin.val_cast]
  omega

theorem le_of_mem_drop {i : Fin 512} (hi : i ∈ indices.drop 256) : 256 ≤ i.val := by
  rw [indices_eq] at hi
  obtain ⟨j, hj, rfl⟩ := List.mem_iff_getElem.mp hi
  simp

theorem count_freevmOrder : (freevmOrder m pml4).count g = uses g 4 (tree (coding leaf) m 3 pml4) := by
  have hlow (i : Fin 512) (hi : i ∈ indices.take 256) :
      (if present (m pml4 i) then (order m 3 (frame (m pml4 i))).count g else 0) =
        ((coding leaf).child 2 i (m pml4 i)).elim 0 fun c => uses g 3 (tree (coding leaf) m 2 c) := by
    have hchild : (coding leaf).child 2 i (m pml4 i) =
      if present (m pml4 i) then some (frame (m pml4 i)) else none :=
      if_neg fun h => Nat.not_lt_of_le h.2 (lt_of_mem_take hi)
    rw [hchild]
    cases present (m pml4 i) with
    | false => rfl
    | true => exact count_order (Nat.le_refl 2)
  have hhigh (i : Fin 512) (hi : i ∈ indices.drop 256) :
      (((coding leaf).child 2 i (m pml4 i)).elim 0 fun c => uses g 3 (tree (coding leaf) m 2 c)) = 0 := by
    have hchild : (coding leaf).child 2 i (m pml4 i) = none := if_pos ⟨rfl, le_of_mem_drop hi⟩
    rw [hchild]
    rfl
  have hsum := sum_indices fun i => ((coding leaf).child 2 i (m pml4 i)).elim 0 fun c => uses g 3
    (tree (coding leaf) m 2 c)
  rw [← List.take_append_drop 256 indices, List.map_append, List.sum_append, List.map_congr_left hhigh,
    List.map_const', List.sum_replicate, smul_zero, Nat.add_zero, ← List.map_congr_left hlow] at hsum
  rw [freevmOrder, List.count_append, count_orderEntries, hsum, uses, weight_tree_succ, List.count_singleton,
    Nat.add_comm]
  simp only [beq_iff_eq]
  rfl

end Count

section Reaches

/-- The page `g` is the table `f`, or it is found below it in at most `n` levels, of which the last are the
pages that are mapped. -/
def Reaches (m : Nat → Fin 512 → UInt64) : (n f g : Nat) → Prop
  | 0, f, g => g = f
  | n + 1, f, g => g = f ∨ ∃ i, present (m f i) = true ∧ Reaches m n (frame (m f i)) g

theorem mem_indices (i : Fin 512) : i ∈ indices := by
  rw [indices_eq]
  exact List.mem_finRange i

theorem mem_take_indices {i : Fin 512} : i ∈ indices.take 256 ↔ i.val < 256 := by
  refine ⟨lt_of_mem_take, ?_⟩
  intro hi
  have hmem := mem_indices i
  rw [← List.take_append_drop 256 indices, List.mem_append] at hmem
  rcases hmem with hmem | hmem
  · exact hmem
  · have := le_of_mem_drop hmem
    omega

theorem mem_order : g ∈ order m n f ↔ Reaches m n f g := by
  induction n generalizing f with
  | zero => exact List.mem_singleton
  | succ n ih =>
      rw [order_succ, List.mem_append, List.mem_singleton, mem_orderEntries, or_comm, Reaches]
      refine or_congr_right (exists_congr fun i => ?_)
      rw [ih]
      exact and_iff_right (mem_indices i)

theorem mem_freevmOrder : g ∈ freevmOrder m pml4 ↔
    g = pml4 ∨ ∃ i : Fin 512, i.val < 256 ∧ present (m pml4 i) = true ∧ Reaches m 3 (frame (m pml4 i)) g := by
  rw [freevmOrder, List.mem_append, List.mem_singleton, mem_orderEntries, or_comm]
  refine or_congr_right (exists_congr fun i => ?_)
  rw [mem_take_indices, mem_order]

end Reaches

section Setupkvm

theorem setupkvm_spec (s : State) : Exec.wp (setupkvm kpdpt) (fun f t => Drawn s [f] true t ∧
      treeOf leaf t f = blank 3 f ∧ t.mem f 256 = v2p kpdpt ||| pteP ||| pteW ∧
      (∀ j : Fin 512, 256 < j.val → t.mem f j = 0) ∧ ∀ g, g ≠ f → t.mem g = s.mem g)
      (fun e => OutOfMemory s 1 e ∨ e = .panic .trap ∧ lead s = 0) s := by
  rw [setupkvm]
  refine ((kalloc_spec s).mono (fun _ _ h => h) (fun _ => .inl)).bind ?_
  rintro r s₀ ⟨hmem, hdrawn⟩
  cases r with
  | none => exact .inr ⟨rfl, hdrawn.eq_lead⟩
  | some f =>
      let t : State :=
        { s₀ with mem := write (Function.update s₀.mem f fun _ => 0) f 256 (v2p kpdpt ||| pteP ||| pteW) }
      have hrow (j : Fin 512) (hj : j ≠ 256) : t.mem f j = 0 := by
        show write (Function.update s₀.mem f fun _ => 0) f 256 _ f j = 0
        rw [write_self, Function.update_of_ne hj, Function.update_self]
      have hself : t.mem f 256 = v2p kpdpt ||| pteP ||| pteW := by
        show write (Function.update s₀.mem f fun _ => 0) f 256 _ f 256 = _
        rw [write_self, Function.update_self]
      show Drawn s [f] true t ∧ _
      refine ⟨⟨hdrawn.panics, hdrawn.granted, hdrawn.refused⟩, ?_, hself, ?_, ?_⟩
      · refine Prod.ext label_tree ?_
        funext i
        have hchild : (coding leaf).child 2 i (t.mem f i) = none := by
          by_cases hi : 256 ≤ i.val
          · exact if_pos ⟨rfl, hi⟩
          · have hne : i ≠ 256 := by
              rintro rfl
              exact hi (Nat.le_refl 256)
            rw [hrow i hne]
            exact (if_neg fun h => hi h.2).trans (by rw [present_zero]; rfl)
        rw [entry_tree, hchild]
        rfl
      · intro j hj
        apply hrow
        rintro rfl
        exact Nat.lt_irrefl 256 hj
      · intro g hg
        show write (Function.update s₀.mem f fun _ => 0) f 256 _ g = s.mem g
        rw [write_of_ne hg, Function.update_of_ne hg, hmem]

theorem uses_blank : uses g 4 (blank 3 f) = if f = g then 1 else 0 := weight_blank

end Setupkvm

section Runs

inductive Op
  | mappages (va size pa : UInt64) (perm : Int32)
  | deallocuvm (oldsz newsz : UInt64)
  | clearpteu (uva : UInt64)

def Op.run (kend pml4 : Nat) : Op → PM Unit
  | .mappages va size pa perm => do
      let _ ← Paging.mappages pml4 va size pa perm
      pure ()
  | .deallocuvm oldsz newsz => do
      let _ ← Paging.deallocuvm kend pml4 oldsz newsz
      pure ()
  | .clearpteu uva => Paging.clearpteu pml4 uva

def Op.step (kend pml4 : Nat) (s : State) (op : Op) : Option State :=
  match op.run kend pml4 s with
  | .ok (_, t) => some t
  | .error _ => none

/-- The call is about addresses below 2^47, and what it maps are pages that have been allocated for it: they are
in the range of `kalloc`, not free, not in this page table, and not the kernel's table. -/
def Op.Allowed (kend kpdpt pml4 : Nat) (s : State) : Op → Prop
  | .mappages va size pa perm =>
      0 < size ∧ va.toNat + size.toNat ≤ 2 ^ 47 ∧ pa.toNat % pgsize = 0 ∧ (0 ≤ perm ∧ perm < 4096) ∧
      ∀ i ≤ span va size, (total pml4 s (vpage pa + i) = 0 ∧ kend ≤ vpage pa + i ∧ vpage pa + i < npages) ∧
        kpdpt ≠ vpage pa + i
  | .deallocuvm oldsz _ => oldsz.toNat ≤ 2 ^ 47
  | .clearpteu uva => uva.toNat < 2 ^ 47

structure Built (kend kpdpt pml4 : Nat) (s : State) : Prop extends Owned kend pml4 s where
  kernel : total pml4 s kpdpt = 0

theorem Built.of_total_eq (h : Built kend kpdpt pml4 s) (heq : ∀ g, total pml4 t g = total pml4 s g) :
    Built kend kpdpt pml4 t :=
  ⟨h.toOwned.of_total_eq heq, (heq kpdpt).trans h.kernel⟩

theorem built_setupkvm {kpdpt : Nat} (hnodup : (avail s).Nodup) (hrange : ∀ g ∈ avail s, kend ≤ g ∧ g < npages)
    (hkernel : kpdpt ∉ avail s) (h : setupkvm kpdpt s = .ok (pml4, t)) : Built kend kpdpt pml4 t := by
  obtain ⟨hdrawn, htree, -⟩ := (Exec.wp_iff.mp (setupkvm_spec s)).1 pml4 t h
  have htotal (g : Nat) : total pml4 t g = (avail s).count g := by
    rw [total, htree, uses_blank, hdrawn.avail_eq, List.count_append, List.count_singleton]
    simp only [beq_iff_eq]
  refine ⟨⟨?_, ?_⟩, ?_⟩
  · intro g
    rw [htotal]
    exact List.nodup_iff_count_le_one.mp hnodup g
  · intro g hg
    rw [htotal] at hg
    exact hrange g (List.count_pos_iff.mp hg)
  · rw [htotal]
    exact List.count_eq_zero_of_not_mem hkernel

theorem Built.step (hkend : 0 < kend) {op : Op} (h : Built kend kpdpt pml4 s) (hok : op.Allowed kend kpdpt pml4 s)
    (hstep : op.step kend pml4 s = some t) : Built kend kpdpt pml4 t := by
  have hrun : ∃ r, op.run kend pml4 s = .ok (r, t) := by
    rw [Op.step] at hstep
    split at hstep
    next r u hu =>
      obtain rfl := Option.some.inj hstep
      exact ⟨r, hu⟩
    next => cases hstep
  obtain ⟨r, hrun⟩ := hrun
  suffices hwp : Exec.wp (op.run kend pml4) (fun _ t => Built kend kpdpt pml4 t) (fun _ => True) s from
    (Exec.wp_iff.mp hwp).1 r t hrun
  cases op with
  | mappages va size pa perm =>
      obtain ⟨hsize, hrange, hpa, hperm, hnew⟩ := hok
      refine (mappages_owned h.toOwned hsize hrange hpa hperm fun i hi => (hnew i hi).1).bind ?_
      rintro _ u ⟨hu, heq⟩
      exact ⟨hu, (heq kpdpt fun i hi => (hnew i hi).2).trans h.kernel⟩
  | deallocuvm oldsz newsz =>
      refine ((deallocuvm_spec h.toOwned hkend hok).mono (fun _ _ hr => hr) fun _ hr => hr.elim).bind ?_
      rintro _ u ⟨-, hu⟩
      exact h.of_total_eq hu.total_eq
  | clearpteu uva =>
      refine (clearpteu_spec h.toOwned hok).mono ?_ fun _ _ => trivial
      rintro _ u ⟨hu, -⟩
      exact h.of_total_eq hu

theorem Built.freevm (h : Built kend kpdpt pml4 s) :
    ∃ (t : State) (l : List Nat), Paging.freevm kend (some pml4) s = .ok ((), t) ∧ t.kmem = l.map some ++
      s.kmem ∧ l.Nodup ∧ kpdpt ∉ l ∧
      ∀ g, g ∈ l ↔ g = pml4 ∨
        ∃ i : Fin 512, i.val < 256 ∧ present (s.mem pml4 i) = true ∧ Reaches s.mem 3 (frame (s.mem pml4 i)) g := by
  have hcount (g : Nat) : (freevmOrder s.mem pml4).count g + (avail s).count g = total pml4 s g := by
    rw [count_freevmOrder]
    rfl
  have hnodup : (freevmOrder s.mem pml4).Nodup := by
    rw [List.nodup_iff_count_le_one]
    intro g
    have := hcount g
    have := h.once g
    omega
  have hrange (g : Nat) (hg : g ∈ freevmOrder s.mem pml4) : kend ≤ g ∧ g < npages := by
    have hpos := List.count_pos_iff.mpr hg
    have := hcount g
    exact h.within g (by omega)
  obtain ⟨_, t, ht, hfreed⟩ := (freevm_freed hnodup hrange).exists_ok
  refine ⟨t, (freevmOrder s.mem pml4).reverse, ht, hfreed.kmem, List.nodup_reverse.mpr hnodup, ?_, ?_⟩
  · rw [List.mem_reverse, ← List.count_pos_iff]
    have := hcount kpdpt
    have := h.kernel
    omega
  · intro g
    rw [List.mem_reverse, mem_freevmOrder]

theorem freevm_exact (kend kpdpt pml4 : Nat) (s₀ s₁ s₂ : State) (ops : List Op) (hkend : 0 < kend)
    (hnodup : (avail s₀).Nodup) (hrange : ∀ g ∈ avail s₀, kend ≤ g ∧ g < npages) (hkernel : kpdpt ∉ avail s₀)
    (hsetup : setupkvm kpdpt s₀ = .ok (pml4, s₁))
    (hok : Along (Op.step kend pml4) (Op.Allowed kend kpdpt pml4) s₁ ops)
    (hrun : run (Op.step kend pml4) s₁ ops = some s₂) :
    ∃ (t : State) (l : List Nat), freevm kend (some pml4) s₂ = .ok ((), t) ∧ t.kmem = l.map some ++ s₂.kmem ∧
      l.Nodup ∧ kpdpt ∉ l ∧
      ∀ g, g ∈ l ↔ g = pml4 ∨
        ∃ i : Fin 512, i.val < 256 ∧ present (s₂.mem pml4 i) = true ∧
          Reaches s₂.mem 3 (frame (s₂.mem pml4 i)) g := by
  have hbuilt := built_setupkvm hnodup hrange hkernel hsetup
  exact (run_invariant (Built kend kpdpt pml4) (fun _ _ _ h hok => h.step hkend hok) hbuilt hok hrun).freevm

def fourPages : State where
  mem _ _ := 0
  kmem := [some 10, some 11, some 12, some 13]
  panics := true

theorem freevm_exact_guard : ∃ (s₁ s₂ t : State) (l : List Nat), setupkvm 7 fourPages = .ok (10, s₁) ∧
    run (Op.step 8 10) s₁ [.mappages 0x400000 4096 0x14000 6, .clearpteu 0x400000] = some s₂ ∧
    freevm 8 (some 10) s₂ = .ok ((), t) ∧ l.Nodup ∧ 7 ∉ l ∧ 10 ∈ l := by
  have hsetup : ∃ s₁, setupkvm 7 fourPages = .ok (10, s₁) := ⟨_, rfl⟩
  obtain ⟨s₁, hsetup⟩ := hsetup
  obtain ⟨hdrawn, htree, -⟩ := (Exec.wp_iff.mp (setupkvm_spec fourPages)).1 10 s₁ hsetup
  have hrun : (run (Op.step 8 10) s₁ [.mappages 0x400000 4096 0x14000 6, .clearpteu 0x400000]).isSome = true := by
    obtain rfl := congrArg Prod.snd (Except.ok.inj hsetup)
    decide
  obtain ⟨s₂, hrun⟩ := Option.isSome_iff_exists.mp hrun
  have hnew : ∀ i ≤ span 0x400000 4096, (total 10 s₁ (vpage 0x14000 + i) = 0 ∧ 8 ≤ vpage 0x14000 + i ∧
      vpage 0x14000 + i < npages) ∧ 7 ≠ vpage 0x14000 + i := by
    intro i hi
    obtain rfl : i = 0 := Nat.le_zero.mp hi
    have havail : avail fourPages = [10] ++ avail s₁ := hdrawn.avail_eq
    have hcount : (avail s₁).count 20 = 0 := by
      apply List.count_eq_zero_of_not_mem
      intro hmem
      have hin : 20 ∈ avail fourPages := havail ▸ List.mem_append_right _ hmem
      exact absurd hin (by decide)
    refine ⟨⟨?_, by decide, by decide⟩, by decide⟩
    rw [total, htree, uses_blank]
    exact congrArg (0 + ·) hcount
  have hlow : (0x400000 : UInt64).toNat < 2 ^ 47 := by decide
  obtain ⟨t, l, hfree, -, hn, hk, hl⟩ := freevm_exact 8 7 10 fourPages s₁ s₂
    [.mappages 0x400000 4096 0x14000 6, .clearpteu 0x400000] (by decide) (by decide) (by decide) (by decide) hsetup
    ⟨⟨by decide, by decide, by decide, by decide, hnew⟩, fun _ _ => ⟨hlow, fun _ _ => trivial⟩⟩ hrun
  exact ⟨s₁, s₂, t, l, hsetup, hrun, hfree, hn, hk, (hl 10).mpr (.inl rfl)⟩

end Runs

end Xv6.Paging
