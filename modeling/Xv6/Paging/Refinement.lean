import Xv6.Paging.Freevm
import Xv6.Vm.Accounting

/-! The functions of `vm.c` on page tables in memory do what those on trees do. -/

namespace Xv6.Paging

open Lib Lib.Radix Lib.RadixHeap Vm

variable {kend pml4 k f : Nat} {s s' : State} {t : Pgdir} {m : Vm.Mem}

def pteOf (e : UInt64) : Option Pte := if present e then some ⟨frame e, e &&& pteU ≠ 0⟩ else none

theorem pteOf_faithful : Faithful pteOf := by
  intro e
  rw [pteOf]
  cases present e <;> simp

/-- The page table in page `pml4` is the tree `t`, and the pages that `kalloc` returns are those of the free list,
which are not in use. -/
structure Reads (kend pml4 : Nat) (s : State) (t : Pgdir) (m : Vm.Mem) : Prop where
  tree : treeOf pteOf s pml4 = t
  kmem : s.kmem = m.freelist.map some
  panics : s.panics = true
  frames : Frames kend m.freelist t

/-- The two functions return, with results and states that are related, or they stop with the same panic. -/
def InStep {α β : Type} (x : PM α) (s : State) (y : VmM β) (m : Vm.Mem) (R : α → State → β → Vm.Mem → Prop) : Prop :=
  Exec.wp x (fun a s' => ∃ b m', y m = .ok (b, m') ∧ R a s' b m')
    (fun e => ∃ p, e = .panic p ∧ y m = .error (.panic p)) s

section

variable {α β γ δ : Type} {x : PM α} {y : VmM β} {g : α → PM γ} {h : β → VmM δ} {R : α → State → β → Vm.Mem → Prop}
  {Q : γ → State → δ → Vm.Mem → Prop}

theorem InStep.bind (hx : InStep x s y m R)
    (hg : ∀ a s' b m', R a s' b m' → InStep (g a) s' (h b) m' Q) : InStep (x >>= g) s (y >>= h) m Q := by
  rw [InStep, Exec.wp_bind]
  refine Exec.wp.mono hx ?_ ?_
  · rintro a s' ⟨b, m', hy, hr⟩
    refine (hg a s' b m' hr).mono ?_ ?_
    · rintro c s'' ⟨d, m'', hd, hq⟩
      exact ⟨d, m'', (Exec.bind_ok hy).trans hd, hq⟩
    · rintro e ⟨p, he, hd⟩
      exact ⟨p, he, (Exec.bind_ok hy).trans hd⟩
  · rintro e ⟨p, he, hy⟩
    exact ⟨p, he, Exec.bind_error hy⟩

theorem InStep.pure {a : α} {b : β} (hr : R a s b m) : InStep (pure a) s (pure b) m R := ⟨b, m, rfl, hr⟩

end

namespace Reads

theorem avail_eq (h : Reads kend pml4 s t m) : avail s = m.freelist := by
  rw [avail, h.kmem, List.reduceOption, List.filterMap_map]
  exact List.filterMap_some

theorem lead_eq (h : Reads kend pml4 s t m) : lead s = m.freelist.length := by
  rw [lead, h.kmem, ← List.append_nil (m.freelist.map some), takeWhile_map_some, List.takeWhile_nil,
    List.append_nil, List.length_map]

theorem tables_le (h : Reads kend pml4 s t m) (g : Nat) : tables g 4 (treeOf pteOf s pml4) ≤ pageCount g t := by
  rw [h.tree]
  exact tables_le_weight

theorem growable (h : Reads kend pml4 s t m) : Growable pteOf pml4 s := by
  refine ⟨⟨?_, ?_⟩, ?_, ?_⟩
  · rw [h.avail_eq, List.nodup_iff_count_le_one]
    intro g
    have := h.frames.once g
    omega
  · intro g hg
    rw [h.avail_eq, ← List.count_pos_iff] at hg
    have hlt : g < 57344 := (h.frames.pool g (by omega)).2
    omega
  · intro g
    have := h.frames.once g
    have := h.tables_le g
    omega
  · intro g hg
    rw [h.avail_eq, ← List.count_pos_iff] at hg
    have := h.frames.once g
    have := h.tables_le g
    omega

theorem lookup_eq (h : Reads kend pml4 s t m) (k : Nat) : lookup pteOf s pml4 k = mapped t k := by
  rw [lookup, h.tree]
  rfl

end Reads

section Pages

theorem pteOf_user (hf : f < npages) : pteOf (v2p f ||| 6 ||| pteP) = some ⟨f, true⟩ := by
  have hlt : f < 57344 := hf
  rw [UInt64.or_assoc, pteOf, if_pos (present_or.mpr (.inr (by decide))), frame_or (by omega) (by decide)]
  have hne : (v2p f ||| (6 ||| pteP)) &&& pteU ≠ 0 := by
    intro h0
    have hbit : ((v2p f ||| (6 ||| pteP)) &&& pteU).toNat.testBit 2 = true := by
      rw [UInt64.toNat_and, UInt64.toNat_or, Nat.testBit_and, Nat.testBit_or]
      have h6 : ((6 ||| pteP : UInt64).toNat).testBit 2 = true := by decide
      have h4 : (pteU.toNat).testBit 2 = true := by decide
      rw [h6, h4, Bool.or_true]
      rfl
    rw [h0] at hbit
    exact absurd hbit (by decide)
  rw [decide_eq_true hne]

theorem lacking_of_mapped (h : mapped t k ≠ none) : lacking 3 t k = 0 := by
  obtain ⟨pte, hpte⟩ := Option.ne_none_iff_exists'.mp h
  apply lacking_of_find
  rw [find_of_mapped hpte]
  rfl

theorem mappages_remap {va : UInt64} {pte : Pte} (hk : vpage va < 2 ^ 35) (hthere : mapped t (vpage va) ≠ none) :
    Vm.mappages t va pte m = .error (.panic .remap) := by
  obtain ⟨l⟩ := m
  have hwalk := walkLevels_eq 3 t (vpage va) l
  rw [lacking_of_mapped hthere, if_pos (Nat.zero_le _)] at hwalk
  have hsome : (find 3 (grow 3 t (vpage va) l).1 (vpage va)).join.isSome := by
    rw [get_grow]
    exact Option.isSome_iff_ne_none.mpr hthere
  rw [Vm.mappages, if_neg (by rw [kernelHalf_of_lt hk]; simp), Exec.bind_ok hwalk]
  simp only [Bool.true_eq_false, if_false, if_pos hsome]
  rfl

/-- `mappages` as `allocuvm` and `inituvm` call it. -/
theorem mappages_inStep {a : UInt64} (h : Reads kend pml4 s t m) (ha : a.toNat % 4096 = 0) (hk : vpage a < 2 ^ 35)
    (hf : kend ≤ f ∧ f < npages) (hfresh : m.freelist.count f + pageCount f t = 0) :
    InStep (mappages pml4 a 4096 (v2p f) 6) s (Vm.mappages t a ⟨f, true⟩) m fun r s' x m' =>
      r = 0 ∧ x.2 = true ∧ Reads kend pml4 s' x.1 m' := by
  have hpage : a.toNat / 4096 < 2 ^ 35 := hk
  have hsize : (4096 : UInt64).toNat = 4096 := rfl
  have hspan : span a 4096 = 0 := by
    rw [span, vpage, vpage, toNat_last (by decide) (by rw [hsize]; omega), hsize]
    show (a.toNat + 4096 - 1) / 4096 - a.toNat / 4096 = 0
    omega
  have hround : pgrounddown a = a := by
    rw [← UInt64.toNat_inj, toNat_pgrounddown]
    omega
  obtain ⟨l⟩ := m
  rw [InStep, mappages_loop (by decide) (by rw [hsize]; omega), hspan, hround,
    show a + UInt64.ofNat (0 * pgsize) = a by simp, mapLoop]
  refine mapRound_spec pteOf_faithful h.growable hk ?_ ?_ ?_ ?_
  · rintro e ⟨he, -, hlead⟩
    refine ⟨.outOfMemory, he, ?_⟩
    rw [h.lead_eq, h.tree] at hlead
    have hfree : mapped t (vpage a) = none := by
      by_contra hthere
      rw [lacking_of_mapped hthere] at hlead
      exact Nat.not_lt_zero _ hlead
    rw [mappages_eq _ rfl hk hfree, if_neg (by show ¬ _ ≤ l.length; exact Nat.not_le_of_lt hlead)]
  · intro hthere
    rw [h.lookup_eq] at hthere
    exact ⟨.remap, rfl, mappages_remap hk hthere⟩
  · intro l' s' hdrawn
    exfalso
    rcases hdrawn.refused rfl with hk | ⟨-, -, hp⟩
    · rw [h.kmem] at hk
      have hnone : none ∈ l.map some := hk ▸ List.mem_append_right _ List.mem_cons_self
      simp at hnone
    · rw [h.panics] at hp
      cases hp
  · intro l' s' hfree hdrawn _ _ hlen htree _ _
    rw [h.lookup_eq] at hfree
    have hl : l = l' ++ avail s' := h.avail_eq.symm.trans hdrawn.avail_eq
    rw [h.tree] at hlen htree
    have hlack : lacking 3 t (vpage a) ≤ l.length := by
      rw [hl, List.length_append]
      omega
    have hrest : (grow 3 t (vpage a) l).2 = avail s' := by
      rw [(grow_spec hlack).1, hl, ← hlen, List.drop_left]
    have hinstall : treeOf pteOf s' pml4 = install t (vpage a) l ⟨f, true⟩ := by
      rw [htree, install, hl, grow_append (Nat.le_of_eq hlen.symm)]
      exact congrArg _ (pteOf_user hf.2)
    rw [if_pos rfl]
    refine ⟨(install t (vpage a) l ⟨f, true⟩, true), ⟨avail s'⟩, ?_, rfl, rfl, hinstall, ?_, ?_, ?_⟩
    · rw [mappages_eq _ rfl hk hfree, if_pos hlack, hrest]
    · have hkmem := hdrawn.granted rfl
      rw [h.kmem, show l.map some = l'.map some ++ (avail s').map some by rw [← List.map_append, ← hl]] at hkmem
      exact (List.append_cancel_left hkmem).symm
    · exact hdrawn.panics.trans h.panics
    · have hcount (g : Nat) : (avail s').count g + pageCount g (install t (vpage a) l ⟨f, true⟩) =
          l.count g + pageCount g t + if f = g then 1 else 0 := by
        have := pageCount_install (f := g) ⟨f, true⟩ hlack hfree
        rw [hrest] at this
        simp only at this ⊢
        omega
      have hfresh : l.count f + pageCount f t = 0 := hfresh
      refine ⟨fun g => ?_, fun g hg => ?_⟩
      · have honce : l.count g + pageCount g t ≤ 1 := h.frames.once g
        rw [hcount]
        split
        next hg =>
          subst hg
          omega
        next => omega
      · rw [hcount] at hg
        by_cases hfg : f = g
        · exact hfg ▸ hf
        · exact h.frames.pool g (by simpa [hfg] using hg)

theorem tables_of_mapped {pte : Pte} (h : mapped t k = some pte) (honce : pageCount pte.page t ≤ 1) :
    tables pte.page 4 t = 0 := by
  have hcount := pageCount_set (f := pte.page) (v := none) h
  have hset : tables pte.page 4 (Radix.set 3 t k none) + _ = tables pte.page 4 t + _ :=
    weight_set (find_of_mapped h)
  have hle : tables pte.page 4 (Radix.set 3 t k none) ≤ pageCount pte.page (Radix.set 3 t k none) :=
    tables_le_weight
  simp only [Option.elim_some, Option.elim_none, if_true] at hcount hset
  omega

theorem Reads.released {g : Nat} {pte : Pte} (h : Reads kend pml4 s t m)
    (hg : lastTable (coding pteOf) s.mem 3 pml4 k = some g) (hthere : mapped t k = some pte) :
    Reads kend pml4 ((s.freed pte.page).put g (index 512 0 k) 0) (Radix.set 3 t k none)
      ⟨pte.page :: m.freelist⟩ := by
  have honce : pageCount pte.page t ≤ 1 := Nat.le_trans (Nat.le_add_left _ _) (h.frames.once pte.page)
  have hnot : tables pte.page 4 (treeOf pteOf s pml4) = 0 := by
    rw [h.tree]
    exact tables_of_mapped hthere honce
  have htree := treeOf_freed hnot
  have hlast : lastTable (coding pteOf) (s.freed pte.page).mem 3 pml4 k = some g := by rw [lastTable_freed hnot, hg]
  have hu : Unshared 4 (treeOf pteOf (s.freed pte.page) pml4) := by
    rw [htree]
    exact h.growable.unshared
  refine ⟨?_, ?_, h.panics, h.frames.of_count fun x => ?_⟩
  · rw [treeOf_put hu hlast, htree, h.tree, (pteOf_faithful 0).mpr present_zero]
  · show some pte.page :: s.kmem = _
    rw [h.kmem]
    rfl
  · have hcount := pageCount_set (f := x) (v := none) hthere
    simp only [Option.elim_none, List.count_cons, beq_iff_eq] at hcount ⊢
    omega

/-- One round of the loop of `deallocuvm`. -/
theorem deallocPage_inStep {oldsz a : UInt64} (hkend : 0 < kend) (h : Reads kend pml4 s t m) (ha : a.toNat < 2 ^ 47)
    (hlt : a < oldsz) (n : Nat) :
    ∃ s' t' m', deallocPage kend pml4 a s = .ok ((), s') ∧ Reads kend pml4 s' t' m' ∧
      Vm.deallocLoop kend oldsz (n + 1) t a m = Vm.deallocLoop kend oldsz n t' (a + 4096) m' := by
  obtain ⟨l⟩ := m
  have hk : vpage a < 2 ^ 35 := by
    show a.toNat / 4096 < 2 ^ 35
    omega
  have hwalk : walkpgdir pml4 a false s = _ := walkpgdir_find pteOf ha
  rw [deallocPage, Exec.bind_ok hwalk]
  cases hg : lastTable (coding pteOf) s.mem 3 pml4 (vpage a) with
  | none =>
      have hfree : mapped t (vpage a) = none := by
        rw [← h.lookup_eq, lookup, treeOf, find_tree, hg]
        rfl
      exact ⟨s, t, ⟨l⟩, rfl, h, deallocLoop_none hk hlt hfree⟩
  | some g =>
      have hlook := lookup_of_lastTable hg
      rw [h.lookup_eq] at hlook
      show ∃ s' t' m', (if present (s.mem g (index 512 0 (vpage a))) then _ else _ : PM Unit) s = _ ∧ _
      cases hpres : present (s.mem g (index 512 0 (vpage a))) with
      | false =>
          rw [(pteOf_faithful _).mpr hpres] at hlook
          exact ⟨s, t, ⟨l⟩, rfl, h, deallocLoop_none hk hlt hlook⟩
      | true =>
          rw [pteOf, if_pos hpres] at hlook
          have hpool := h.frames.mapped_pool hlook
          have hne : frame (s.mem g (index 512 0 (vpage a))) ≠ 0 := Nat.ne_of_gt (Nat.lt_of_lt_of_le hkend hpool.1)
          rw [if_pos rfl, if_neg hne, Exec.bind_ok (kfree_eq hpool)]
          exact ⟨_, _, _, rfl, h.released hg hlook, deallocLoop_some hk hlt hkend hlook hpool⟩

theorem deallocLoop_inStep (hkend : 0 < kend) {oldsz : UInt64} (hold : oldsz.toNat ≤ 2 ^ 47) {n : Nat} {a : UInt64}
    (h : Reads kend pml4 s t m) (ha : a.toNat = k * 4096) (hn : pages oldsz ≤ k + n) :
    InStep (deallocLoop kend pml4 oldsz n a) s (Vm.deallocLoop kend oldsz n t a) m fun _ s' t' m' =>
      Reads kend pml4 s' t' m' := by
  induction n generalizing s t m a k with
  | zero =>
      rw [deallocLoop, if_neg (by rw [lt_of_page ha]; omega)]
      exact InStep.pure h
  | succ n ih =>
      by_cases hlt : a < oldsz
      · have hk := (lt_of_page ha).mp hlt
        have hend : pages oldsz ≤ 2 ^ 35 := by
          show (oldsz.toNat + 4095) / 4096 ≤ 2 ^ 35
          omega
        obtain ⟨s', t', m', hpage, h', hstep⟩ := deallocPage_inStep hkend h (by omega) hlt n
        have hnext := ih h' (add_page ha (by omega)) (by omega)
        rw [InStep, hstep, deallocLoop, if_pos hlt, Exec.wp_bind, Exec.wp, hpage]
        exact hnext
      · rw [deallocLoop, if_neg hlt, Vm.deallocLoop, if_neg hlt]
        exact InStep.pure h

theorem deallocuvm_inStep (hkend : 0 < kend) {oldsz newsz : UInt64} (hold : oldsz.toNat ≤ 2 ^ 47)
    (h : Reads kend pml4 s t m) :
    InStep (deallocuvm kend pml4 oldsz newsz) s (Vm.deallocuvm kend t oldsz newsz) m fun r s' x m' =>
      r = x.2 ∧ Reads kend pml4 s' x.1 m' := by
  rw [deallocuvm, Vm.deallocuvm]
  by_cases hge : newsz ≥ oldsz
  · rw [if_pos hge, if_pos hge]
    exact InStep.pure ⟨rfl, h⟩
  · have hlt : newsz.toNat < oldsz.toNat := UInt64.lt_iff_toNat_lt.mp (UInt64.not_le.mp hge)
    have hup : (pgroundup newsz).toNat = pages newsz * 4096 := pgroundup_toNat (by omega)
    have hrounds := rounds_ge (b := oldsz) hup
    rw [if_neg hge, if_neg hge]
    refine (deallocLoop_inStep hkend hold h hup (by omega)).bind ?_
    intro _ s' t' m' h'
    exact InStep.pure ⟨rfl, h'⟩

end Pages

section Free

variable {n : Nat} {l : List Nat} {mem : Nat → Fin 512 → UInt64}

theorem forM_frees {g : Fin 512 → VmM Unit} {c : Fin 512 → List Nat} {is : List (Fin 512)}
    (h : ∀ i ∈ is, ∀ l, g i ⟨l⟩ = .ok ((), ⟨(c i).reverse ++ l⟩)) :
    is.forM g ⟨l⟩ = .ok ((), ⟨(is.flatMap c).reverse ++ l⟩) := by
  induction is generalizing l with
  | nil => rfl
  | cons i is ih =>
      have hfirst := h i List.mem_cons_self l
      have hrest := ih (l := (c i).reverse ++ l) fun j hj => h j (List.mem_cons_of_mem i hj)
      rw [List.flatMap_cons, List.reverse_append, List.append_assoc, ← hrest]
      exact Exec.bind_ok hfirst

/-- What the loop over a table frees for one entry. -/
def below (mem : Nat → Fin 512 → UInt64) (n f : Nat) (i : Fin 512) : List Nat :=
  if present (mem f i) then order mem n (frame (mem f i)) else []

theorem freeTable_of_entries {t : Table 512 Nat Pte (n + 1)} (ht : t.1 = f) (hself : kend ≤ f ∧ f < npages)
    (hentry : ∀ i l, (t.2 i).elim (pure ()) (Vm.freeTable kend n) ⟨l⟩ = .ok
    ((), ⟨(below mem n f i).reverse ++ l⟩)) :
    Vm.freeTable kend (n + 1) t ⟨l⟩ = .ok ((), ⟨(order mem (n + 1) f).reverse ++ l⟩) := by
  rw [Vm.freeTable, ← indices_eq, Exec.bind_ok (forM_frees fun i _ l => hentry i l), ht, Vm.kfree_eq hself,
    order_succ, List.reverse_append]
  rfl

theorem below_subset {i : Fin 512} {g : Nat} (hg : g ∈ below mem n f i) : g ∈ order mem (n + 1) f := by
  rw [order_succ]
  refine List.mem_append_left _ (mem_orderEntries.mpr ⟨i, mem_indices i, ?_⟩)
  rw [below] at hg
  split at hg
  · exact ⟨‹_›, hg⟩
  · cases hg

theorem freeTable_order (hn : n ≤ 2) (h : ∀ g ∈ order mem (n + 1) f, kend ≤ g ∧ g < npages) :
    Vm.freeTable kend (n + 1) (RadixHeap.tree (coding pteOf) mem n f) ⟨l⟩ =
      .ok ((), ⟨(order mem (n + 1) f).reverse ++ l⟩) := by
  induction n generalizing f l with
  | zero =>
      refine freeTable_of_entries rfl (h f mem_order_self) fun i l => ?_
      have hbelow (g : Nat) (hg : g ∈ below mem 0 f i) := h g (below_subset hg)
      show (pteOf (mem f i)).elim (pure ()) (Vm.freeTable kend 0) ⟨l⟩ = _
      rw [below] at hbelow ⊢
      rw [pteOf]
      split
      · rw [if_pos ‹_›] at hbelow
        exact Vm.kfree_eq (hbelow _ (List.mem_singleton_self _))
      · rfl
  | succ n ih =>
      refine freeTable_of_entries rfl (h f mem_order_self) fun i l => ?_
      have hbelow (g : Nat) (hg : g ∈ below mem (n + 1) f i) := h g (below_subset hg)
      rw [entry_tree, show (coding pteOf).child n i (mem f i) = if present (mem f i) then some (frame (mem f i))
        else none
        from if_neg fun hc => by omega]
      rw [below] at hbelow ⊢
      split
      · rw [if_pos ‹_›] at hbelow
        exact ih (by omega) hbelow
      · rfl

theorem freevm_order (h : ∀ g ∈ freevmOrder s.mem pml4, kend ≤ g ∧ g < npages) :
    Vm.freevm kend (some (treeOf pteOf s pml4)) ⟨l⟩ = .ok ((), ⟨(freevmOrder s.mem pml4).reverse ++ l⟩) := by
  have hself := h pml4 (List.mem_append_right _ (List.mem_singleton_self pml4))
  have hentry (i : Fin 512) (hi : i ∈ indices.take 256) (l : List Nat) :
      ((treeOf pteOf s pml4).2 i).elim (pure ()) (Vm.freeTable kend 3) ⟨l⟩ =
        .ok ((), ⟨(below s.mem 3 pml4 i).reverse ++ l⟩) := by
    have hlt := lt_of_mem_take hi
    have hbelow (g : Nat) (hg : g ∈ below s.mem 3 pml4 i) : kend ≤ g ∧ g < npages := by
      refine h g (List.mem_append_left _ (mem_orderEntries.mpr ⟨i, hi, ?_⟩))
      rw [below] at hg
      split at hg
      · exact ⟨‹_›, hg⟩
      · cases hg
    rw [treeOf, entry_tree, show (coding pteOf).child 2 i (s.mem pml4 i) =
      if present (s.mem pml4 i) then some (frame (s.mem pml4 i)) else none from if_neg fun hc => by omega]
    rw [below] at hbelow ⊢
    split
    · rw [if_pos ‹_›] at hbelow
      exact freeTable_order (Nat.le_refl 2) hbelow
    · rfl
  rw [Vm.freevm, ← indices_eq, Exec.bind_ok (forM_frees hentry), label_tree, Vm.kfree_eq hself, freevmOrder,
    List.reverse_append]
  rfl

theorem Reads.count_freevmOrder (h : Reads kend pml4 s t m) (g : Nat) :
    (freevmOrder s.mem pml4).count g = pageCount g t := by
  rw [Paging.count_freevmOrder, ← h.tree]
  refine RadixHeap.weight_tree_congr (fun _ _ _ => rfl) fun e => ?_
  show (leaf e).elim 0 _ = (pteOf e).elim 0 _
  rw [leaf, pteOf]
  split <;> rfl

theorem freevm_inStep (h : Reads kend pml4 s t m) :
    InStep (freevm kend (some pml4)) s (Vm.freevm kend (some t)) m fun _ s' _ m' =>
      s'.kmem = m'.freelist.map some ∧ s'.panics = true := by
  obtain ⟨l⟩ := m
  have hrange : ∀ g ∈ freevmOrder s.mem pml4, kend ≤ g ∧ g < npages := by
    intro g hg
    rw [← List.count_pos_iff, h.count_freevmOrder] at hg
    exact h.frames.pool g (by omega)
  have hnodup : (freevmOrder s.mem pml4).Nodup := by
    rw [List.nodup_iff_count_le_one]
    intro g
    have := h.frames.once g
    rw [h.count_freevmOrder]
    omega
  refine (freevm_freed hnodup hrange).mono ?_ fun _ => False.elim
  intro _ s' hfreed
  refine ⟨(), ⟨(freevmOrder s.mem pml4).reverse ++ l⟩, ?_, ?_, hfreed.panics.trans h.panics⟩
  · rw [← h.tree]
    exact freevm_order hrange
  · rw [hfreed.kmem, h.kmem, ← List.map_append]

end Free

end Xv6.Paging
