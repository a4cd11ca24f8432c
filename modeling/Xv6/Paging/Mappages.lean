import Xv6.Paging.Walk

namespace Xv6.Paging

open Lib Lib.Radix Lib.RadixHeap Vm

variable {V : Type} {value : UInt64 → Option V} {pml4 k : Nat} {s t u : State} {l l' : List Nat}

abbrev treeOf (value : UInt64 → Option V) (s : State) (pml4 : Nat) : Table 512 Nat V 4 :=
  tree (coding value) s.mem 3 pml4

def lookup (value : UInt64 → Option V) (s : State) (pml4 k : Nat) : Option V :=
  (find 3 (treeOf value s pml4) k).join

/-- A page table has got new tables, in the pages `l`, and new entries. No entry that was there has changed. -/
structure Grown (value : UInt64 → Option V) (pml4 : Nat) (s : State) (l : List Nat) (t : State) : Prop where
  tables_eq : ∀ g, tables g 4 (treeOf value t pml4) = tables g 4 (treeOf value s pml4) + l.count g
  kept : ∀ g i, g ∉ l → present (s.mem g i) = true → t.mem g i = s.mem g i
  kernel : ∀ j : Fin 512, 256 ≤ j.val → t.mem pml4 j = s.mem pml4 j
  others : ∀ g, tables g 4 (treeOf value s pml4) = 0 → g ∉ l → t.mem g = s.mem g

structure Growable (value : UInt64 → Option V) (pml4 : Nat) (s : State) : Prop extends Pool s where
  unshared : Unshared 4 (treeOf value s pml4)
  fresh : ∀ g ∈ avail s, tables g 4 (treeOf value s pml4) = 0

/-- What the tree of a page table consists of after it has got tables in the pages `l` and the entries `es`. -/
def Accounts (value : UInt64 → Option V) (pml4 : Nat) (s : State) (l : List Nat) (es : List UInt64)
    (t : State) : Prop :=
  ∀ (a : Nat → Nat) (b : V → Nat), weight a b 4 (treeOf value t pml4) =
    weight a b 4 (treeOf value s pml4) + (l.map a).sum + (es.map fun e => (value e).elim 0 b).sum

theorem Accounts.trans {es es' : List UInt64} (h : Accounts value pml4 s l es t)
    (h' : Accounts value pml4 t l' es' u) :
    Accounts value pml4 s (l ++ l') (es ++ es') u := by
  intro a b
  rw [h' a b, h a b, List.map_append, List.sum_append, List.map_append, List.sum_append]
  omega

theorem Grown.trans (h : Grown value pml4 s l t) (h' : Grown value pml4 t l' u) :
    Grown value pml4 s (l ++ l') u := by
  refine ⟨?_, ?_, ?_, ?_⟩
  · intro g
    rw [h'.tables_eq, h.tables_eq, List.count_append, Nat.add_assoc]
  · intro g i hg hpres
    rw [List.mem_append, not_or] at hg
    have ht := h.kept g i hg.1 hpres
    rw [h'.kept g i hg.2 (by rw [ht, hpres]), ht]
  · intro j hj
    rw [h'.kernel j hj, h.kernel j hj]
  · intro g hg hgl
    rw [List.mem_append, not_or] at hgl
    have ht : tables g 4 (treeOf value t pml4) = 0 := by
      rw [h.tables_eq, hg, List.count_eq_zero_of_not_mem hgl.1]
    rw [h'.others g ht hgl.2, h.others g hg hgl.1]

theorem Growable.grown {b : Bool} (hs : Growable value pml4 s) (hd : Drawn s l b t) (h : Grown value pml4 s l t) :
    Growable value pml4 t := by
  have hnodup := hs.nodup
  rw [hd.avail_eq, List.nodup_append] at hnodup
  refine ⟨hs.toPool.rest hd, ?_, ?_⟩
  · intro g
    rw [h.tables_eq]
    by_cases hg : g ∈ l
    · rw [hs.fresh g (hd.mem hg), List.count_eq_one_of_mem hnodup.1 hg]
    · have := hs.unshared g
      rw [List.count_eq_zero_of_not_mem hg]
      omega
  · intro g hg
    have hgl : g ∉ l := by
      intro hgl
      exact hnodup.2.2 g hgl g hg rfl
    rw [h.tables_eq, hs.fresh g (hd.mem_rest hg), List.count_eq_zero_of_not_mem hgl]

theorem sum_eq_count (g : Nat) (l : List Nat) : (l.map fun f => if f = g then 1 else 0).sum = l.count g := by
  induction l with
  | nil => rfl
  | cons x l ih =>
      rw [List.map_cons, List.sum_cons, ih, List.count_cons, Nat.add_comm]
      simp

theorem tables_grow {n : Nat} {t : Table 512 Nat V (n + 1)} {g : Nat} (h : (grow n t k l).2 = []) :
    tables g (n + 1) (grow n t k l).1 = tables g (n + 1) t + l.count g := by
  have hw := weight_grow (a := fun f => if f = g then 1 else 0) (b := fun _ : V => 0) (t := t) (k := k) (l := l)
  rw [h, List.map_nil, List.sum_nil, Nat.add_zero, sum_eq_count] at hw
  exact hw

theorem Walked.grown (hk : (index 512 3 k).val < 256) (h : Walked value 3 pml4 k s l t) :
    Grown value pml4 s l t := by
  refine ⟨?_, h.kept, ?_, h.others⟩
  · intro g
    rw [treeOf, h.tree_eq, tables_grow h.all_used]
  · intro j hj
    apply h.row
    rintro rfl
    omega

/-- How entries of the last level are read is not told apart from whether they are present. -/
def Faithful (value : UInt64 → Option V) : Prop := ∀ e, value e = none ↔ present e = false

theorem walkpgdir_alloc (hv : Faithful value) (hs : Growable value pml4 s) {va : UInt64}
    (hk : (index 512 3 (vpage va)).val < 256) :
    Exec.wp (walkpgdir pml4 va true) (fun r t => ∃ l, Drawn s l r.isSome t ∧ Grown value pml4 s l t ∧
      Accounts value pml4 s l [] t ∧ treeOf value t pml4 = (grow 3 (treeOf value s pml4) (vpage va) l).1 ∧
      (r = none → l.length < lacking 3 (treeOf value s pml4) (vpage va)) ∧
      (∀ pte, r = some pte → lastTable (coding value) t.mem 3 pml4 (vpage va) = some pte.1 ∧
        pte.2 = index 512 0 (vpage va) ∧ l.length = lacking 3 (treeOf value s pml4) (vpage va)))
      (OutOfMemory s (lacking 3 (treeOf value s pml4) (vpage va))) s := by
  have hwalk := walkTables_alloc ((hv 0).mpr present_zero) hk hs.unshared hs.toPool hs.fresh
  rw [walkpgdir_levels, Exec.wp_bind]
  refine hwalk.imp ?_
  rintro r t ⟨l, hdrawn, hwalked, hsome, hnone⟩
  refine ⟨l, ?_, hwalked.grown hk, ?_, ?_, ?_, ?_⟩
  · rw [Option.isSome_map]
    exact hdrawn
  · intro a b
    have hw : weight a b 4 (grow 3 (treeOf value s pml4) (vpage va) l).1 + _ =
      weight a b 4 (treeOf value s pml4) + (l.map a).sum := weight_grow
    rw [hwalked.all_used, List.map_nil, List.sum_nil] at hw
    rw [treeOf, hwalked.tree_eq, List.map_nil, List.sum_nil]
    omega
  · exact hwalked.tree_eq
  · intro hr
    exact hnone (Option.map_eq_none_iff.mp hr)
  · intro pte hr
    obtain ⟨g, rfl, rfl⟩ := Option.map_eq_some_iff.mp hr
    obtain ⟨hlast, hlen⟩ := hsome rfl
    exact ⟨hlast.symm, rfl, hlen⟩

def State.put (s : State) (g : Nat) (i : Fin 512) (e : UInt64) : State := { s with mem := write s.mem g i e }

section Put

variable {g : Nat} {e : UInt64}

theorem put_mem {i : Fin 512} : (s.put g i e).mem = write s.mem g i e := rfl

theorem put_drawn {i : Fin 512} : Drawn s [] true (s.put g i e) := ⟨rfl, fun _ => rfl, fun h => by cases h⟩

theorem treeOf_put (hu : Unshared 4 (treeOf value s pml4)) (hg : lastTable (coding value) s.mem 3 pml4 k = some g) :
    treeOf value (s.put g (index 512 0 k) e) pml4 = Radix.set 3 (treeOf value s pml4) k (value e) :=
  tree_write hu hg

theorem lookup_grow (h : treeOf value t pml4 = (grow 3 (treeOf value s pml4) k l).1) (j : Nat) :
    lookup value t pml4 j = lookup value s pml4 j := by
  rw [lookup, lookup, h, get_grow]

theorem find_of_lastTable (hg : lastTable (coding value) s.mem 3 pml4 k = some g) :
    find 3 (treeOf value s pml4) k = some (value (s.mem g (index 512 0 k))) := by
  rw [treeOf, find_tree, hg]
  rfl

theorem lookup_of_lastTable (hg : lastTable (coding value) s.mem 3 pml4 k = some g) :
    lookup value s pml4 k = value (s.mem g (index 512 0 k)) := by
  rw [lookup, find_of_lastTable hg]
  rfl

theorem lookup_put_self (hu : Unshared 4 (treeOf value s pml4))
    (hg : lastTable (coding value) s.mem 3 pml4 k = some g) :
    lookup value (s.put g (index 512 0 k) e) pml4 k = value e := by
  rw [lookup, treeOf_put hu hg, find_set_self (by rw [find_of_lastTable hg]; rfl)]
  rfl

theorem lookup_put_of_ne (hu : Unshared 4 (treeOf value s pml4))
    (hg : lastTable (coding value) s.mem 3 pml4 k = some g)
    {j : Nat} (hne : k % 512 ^ 4 ≠ j % 512 ^ 4) :
    lookup value (s.put g (index 512 0 k) e) pml4 j = lookup value s pml4 j := by
  rw [lookup, lookup, treeOf_put hu hg, find_set_of_ne hne]

theorem tables_put (hu : Unshared 4 (treeOf value s pml4)) (hg : lastTable (coding value) s.mem 3 pml4 k =
    some g) (x : Nat) :
    tables x 4 (treeOf value (s.put g (index 512 0 k) e) pml4) = tables x 4 (treeOf value s pml4) := by
  have hw : tables x 4 (Radix.set 3 (treeOf value s pml4) k (value e)) + _ = tables x 4 (treeOf value s pml4) + _ :=
    weight_set (find_of_lastTable hg)
  have hzero (o : Option V) : (o.elim 0 fun _ : V => 0) = 0 := by cases o <;> rfl
  rw [hzero, hzero] at hw
  rw [treeOf_put hu hg]
  omega

theorem put_accounts (hu : Unshared 4 (treeOf value s pml4)) (hg : lastTable (coding value) s.mem 3 pml4 k = some g)
    (habsent : value (s.mem g (index 512 0 k)) = none) :
    Accounts value pml4 s [] [e] (s.put g (index 512 0 k) e) := by
  intro a b
  have hw := weight_set (a := a) (b := b) (v := value e) (find_of_lastTable hg)
  rw [habsent] at hw
  rw [treeOf_put hu hg]
  simpa using hw

theorem put_grown (hu : Unshared 4 (treeOf value s pml4)) (hg : lastTable (coding value) s.mem 3 pml4 k = some g)
    (habsent : present (s.mem g (index 512 0 k)) = false) : Grown value pml4 s [] (s.put g (index 512 0 k) e) := by
  refine ⟨?_, ?_, ?_, ?_⟩
  · intro x
    rw [tables_put hu hg, List.count_nil, Nat.add_zero]
  · intro x i _ hpres
    by_cases hx : x = g
    · subst hx
      have hi : i ≠ index 512 0 k := by
        rintro rfl
        rw [habsent] at hpres
        cases hpres
      rw [put_mem, write_self, Function.update_of_ne hi]
    · rw [put_mem, write_of_ne hx]
  · intro j _
    rw [put_mem, write_of_ne (lastTable_ne hu hg).symm]
  · intro x hx _
    have hin : 0 < tables g 4 (treeOf value s pml4) := tables_lastTable hg
    rw [put_mem, write_of_ne]
    rintro rfl
    exact Nat.ne_of_gt hin hx

end Put

theorem vpage_add {a : UInt64} (h : a.toNat + 4096 < 2 ^ 64) : vpage (a + 4096) = vpage a + 1 := by
  rw [vpage, vpage, UInt64.toNat_add]
  show (a.toNat + 4096) % 2 ^ 64 / 4096 = a.toNat / 4096 + 1
  omega

theorem index_lt {j : Nat} (h : j < 2 ^ 35) : (index 512 3 j).val < 256 := by
  show j / 512 ^ 3 % 512 < 256
  omega

def rangeEntry (pa perm : UInt64) (i : Nat) : UInt64 := (pa + UInt64.ofNat (i * pgsize)) ||| perm ||| pteP

theorem rangeEntry_zero (pa perm : UInt64) : rangeEntry pa perm 0 = pa ||| perm ||| pteP := by
  rw [rangeEntry, Nat.zero_mul]
  simp

theorem add_page_ofNat (a : UInt64) (i : Nat) :
    a + 4096 + UInt64.ofNat (i * pgsize) = a + UInt64.ofNat ((i + 1) * pgsize) := by
  rw [Nat.add_mul, UInt64.ofNat_add, UInt64.add_assoc, UInt64.add_comm (UInt64.ofNat (i * pgsize))]
  rfl

theorem rangeEntry_succ (pa perm : UInt64) (i : Nat) :
    rangeEntry (pa + 4096) perm i = rangeEntry pa perm (i + 1) := by
  rw [rangeEntry, rangeEntry, add_page_ofNat]

theorem toNat_add_pages {a : UInt64} {i : Nat} (h : vpage a + i < 2 ^ 35) :
    (a + UInt64.ofNat (i * pgsize)).toNat = a.toNat + i * pgsize := by
  have ha : a.toNat / 4096 + i < 2 ^ 35 := h
  rw [UInt64.toNat_add, UInt64.toNat_ofNat']
  show (a.toNat + i * 4096 % 2 ^ 64) % 2 ^ 64 = a.toNat + i * 4096
  omega

theorem mapRound_spec (hv : Faithful value) (hs : Growable value pml4 s) {a e : UInt64} {next : PM Int}
    {R : Int → State → Prop} {X : Fault → Prop} (hk : vpage a < 2 ^ 35)
    (hout : ∀ x, OutOfMemory s (lacking 3 (treeOf value s pml4) (vpage a)) x → X x)
    (hremap : lookup value s pml4 (vpage a) ≠ none → X (.panic .remap))
    (hfail : ∀ l t, Drawn s l false t → Grown value pml4 s l t → Accounts value pml4 s l [] t →
      l.length < lacking 3 (treeOf value s pml4) (vpage a) →
      treeOf value t pml4 = (grow 3 (treeOf value s pml4) (vpage a) l).1 → R (-1) t)
    (hnext : ∀ l t, lookup value s pml4 (vpage a) = none → Drawn s l true t → Grown value pml4 s l t →
    Accounts value pml4 s l [e] t →
      l.length = lacking 3 (treeOf value s pml4) (vpage a) →
      treeOf value t pml4 = Radix.set 3 (grow 3 (treeOf value s pml4) (vpage a) l).1 (vpage a) (value e) →
      lookup value t pml4 (vpage a) = value e →
      (∀ j < 2 ^ 35, j ≠ vpage a → lookup value t pml4 j = lookup value s pml4 j) → Exec.wp next R X t) :
    Exec.wp (do
      match ← walkpgdir pml4 a true with
      | none => pure (-1)
      | some pte => do
          if present (← load pte) then panic .remap
          else do
            store pte e
            next) R X s := by
  rw [Exec.wp_bind]
  refine (walkpgdir_alloc hv hs (index_lt hk)).mono ?_ hout
  rintro r t ⟨l, hdrawn, hgrown, hacc, htree, hnone, hsome⟩
  cases r with
  | none => exact hfail l t hdrawn hgrown hacc (hnone rfl) htree
  | some pte =>
      obtain ⟨g, i⟩ := pte
      obtain ⟨hg, rfl, hlen⟩ := hsome _ rfl
      have ht := hs.grown hdrawn hgrown
      have hentry : lookup value s pml4 (vpage a) = value (t.mem g (index 512 0 (vpage a))) := by
        rw [← lookup_of_lastTable hg, lookup_grow htree]
      show Exec.wp (if present (t.mem g (index 512 0 (vpage a))) then _ else _) R X t
      cases hpres : present (t.mem g (index 512 0 (vpage a))) with
      | true =>
          apply hremap
          rw [hentry, Ne, hv, hpres]
          exact Bool.true_eq_false.mp
      | false =>
          have hput := hgrown.trans (put_grown (e := e) ht.unshared hg hpres)
          have hput' := hdrawn.trans (put_drawn (s := t) (g := g) (i := index 512 0 (vpage a)) (e := e))
          have hacc' := hacc.trans (put_accounts (e := e) ht.unshared hg ((hv _).mpr hpres))
          rw [List.append_nil] at hput hput' hacc'
          have hset := treeOf_put (e := e) ht.unshared hg
          rw [htree] at hset
          apply hnext l (t.put g (index 512 0 (vpage a)) e) (hentry.trans ((hv _).mpr hpres)) hput' hput
            hacc' hlen hset
            (lookup_put_self ht.unshared hg)
          intro j hj hne
          rw [lookup_put_of_ne ht.unshared hg (by omega), lookup_grow htree]

/-- What comes of entering the pages `k`, …, `k + n`, with new tables in the pages `l`. -/
structure Mapping (value : UInt64 → Option V) (pml4 k n : Nat) (pa perm : UInt64) (s : State) (r : Int)
    (l : List Nat)
    (t : State) : Prop where
  result : r = 0 ∨ r = -1
  drawn : Drawn s l (r = 0) t
  grown : Grown value pml4 s l t
  accounts : ∃ c ≤ n + 1, (r = 0 → c = n + 1) ∧ Accounts value pml4 s l ((List.range c).map (rangeEntry pa perm)) t
  outside : ∀ j < 2 ^ 35, ¬ (k ≤ j ∧ j ≤ k + n) → lookup value t pml4 j = lookup value s pml4 j
  inside : r = 0 → ∀ i ≤ n, lookup value t pml4 (k + i) = value (rangeEntry pa perm i)

def Remaps (value : UInt64 → Option V) (pml4 k n : Nat) (s : State) (e : Fault) : Prop :=
  e = .panic .remap ∧ ∃ i ≤ n, lookup value s pml4 (k + i) ≠ none

theorem Mapping.refused {n : Nat} {pa perm : UInt64} (hdrawn : Drawn s l false t) (hgrown : Grown value pml4 s l t)
    (hacc : Accounts value pml4 s l [] t) (hlook : ∀ j, lookup value t pml4 j = lookup value s pml4 j) :
    Mapping value pml4 k n pa perm s (-1) l t := by
  refine ⟨.inr rfl, hdrawn, hgrown, ⟨0, Nat.zero_le _, ?_, hacc⟩, fun j _ _ => hlook j, ?_⟩
  · intro h
    cases h
  · intro h
    cases h

theorem Mapping.one {pa perm : UInt64} (hdrawn : Drawn s l true t) (hgrown : Grown value pml4 s l t)
    (hacc : Accounts value pml4 s l [pa ||| perm ||| pteP] t)
    (hself : lookup value t pml4 k = value (pa ||| perm ||| pteP))
    (hlook : ∀ j < 2 ^ 35, j ≠ k → lookup value t pml4 j = lookup value s pml4 j) :
    Mapping value pml4 k 0 pa perm s 0 l t := by
  rw [← rangeEntry_zero] at hacc hself
  refine ⟨.inl rfl, hdrawn, hgrown, ⟨1, Nat.le_refl _, fun _ => rfl, hacc⟩, ?_, ?_⟩
  · intro j hj hne
    exact hlook j hj (by omega)
  · intro _ i hi
    obtain rfl := Nat.le_zero.mp hi
    exact hself

theorem Mapping.cons {n : Nat} {r : Int} {pa perm : UInt64} (hk : k < 2 ^ 35)
    (h : Mapping value pml4 k 0 pa perm s 0 l t) (h' : Mapping value pml4 (k + 1) n (pa + 4096) perm t r l' u) :
    Mapping value pml4 k (n + 1) pa perm s r (l ++ l') u := by
  obtain ⟨c, hc, hend, hacc⟩ := h'.accounts
  obtain ⟨c₀, -, hc₀, hacc₀⟩ := h.accounts
  obtain rfl := hc₀ rfl
  have hentries : (List.range (0 + 1)).map (rangeEntry pa perm) ++
    (List.range c).map (rangeEntry (pa + 4096) perm) =
      (List.range (c + 1)).map (rangeEntry pa perm) := by
    rw [List.range_succ_eq_map (n := c), List.map_cons, List.map_map]
    exact congrArg (rangeEntry pa perm 0 :: ·) (List.map_congr_left fun i _ => rangeEntry_succ pa perm i)
  refine ⟨h'.result, h.drawn.trans h'.drawn, h.grown.trans h'.grown,
    ⟨c + 1, by omega, fun h => by rw [hend h], hentries ▸ hacc₀.trans hacc⟩, ?_, ?_⟩
  · intro j hj hne
    rw [h'.outside j hj (by omega), h.outside j hj (by omega)]
  · intro hr i hi
    cases i with
    | zero =>
        rw [h'.outside (k + 0) (by omega) (by omega)]
        exact h.inside rfl 0 (Nat.le_refl 0)
    | succ i =>
        have hlater := h'.inside hr i (by omega)
        rw [rangeEntry_succ] at hlater
        rw [← hlater]
        congr 1
        omega

theorem mapLoop_spec (hv : Faithful value) {n : Nat} {a last pa perm : UInt64} (hs : Growable value pml4 s)
    (hrange : vpage a + n < 2 ^ 35) (hlast : last = a + UInt64.ofNat (n * pgsize)) :
    Exec.wp (mapLoop pml4 last perm (n + 1) a pa) (fun r t => ∃ l, Mapping value pml4 (vpage a) n pa perm s r l t)
      (fun e => (∃ c, OutOfMemory s c e) ∨ Remaps value pml4 (vpage a) n s e) s := by
  induction n generalizing s a pa with
  | zero =>
      rw [mapLoop]
      apply mapRound_spec hv hs hrange (fun _ he => .inl ⟨_, he⟩) (fun h => .inr ⟨rfl, 0, Nat.le_refl 0, h⟩)
      · intro l t hdrawn hgrown hacc _ htree
        exact ⟨l, Mapping.refused hdrawn hgrown hacc (lookup_grow htree)⟩
      · intro l t _ hdrawn hgrown hacc _ _ hself hlook
        have hend : a = last := by
          rw [hlast, Nat.zero_mul]
          simp
        rw [if_pos hend]
        exact ⟨l, Mapping.one hdrawn hgrown hacc hself hlook⟩
  | succ n ih =>
      have ha : a.toNat + 4096 < 2 ^ 64 := by
        have : a.toNat / 4096 + (n + 1) < 2 ^ 35 := hrange
        omega
      have hstep := vpage_add ha
      rw [mapLoop]
      apply mapRound_spec hv hs (by omega) (fun _ he => .inl ⟨_, he⟩) (fun h => .inr ⟨rfl, 0, Nat.zero_le _, h⟩)
      · intro l t hdrawn hgrown hacc _ htree
        exact ⟨l, Mapping.refused hdrawn hgrown hacc (lookup_grow htree)⟩
      · intro l t _ hdrawn hgrown hacc _ _ hself hlook
        have hmore : a ≠ last := by
          rintro rfl
          have hadd : (a + UInt64.ofNat ((n + 1) * pgsize)).toNat = a.toNat + (n + 1) * 4096 :=
            toNat_add_pages hrange
          rw [← hlast] at hadd
          omega
        have hlast' : last = a + 4096 + UInt64.ofNat (n * pgsize) := by rw [hlast, add_page_ofNat]
        rw [if_neg hmore]
        refine (ih (hs.grown hdrawn hgrown) (by omega) hlast').mono ?_ ?_
        · rintro r u ⟨l', hmap⟩
          rw [hstep] at hmap
          exact ⟨l ++ l', (Mapping.one hdrawn hgrown hacc hself hlook).cons (by omega) hmap⟩
        · rintro e (⟨c, he⟩ | ⟨he, i, hi, hthere⟩)
          · exact .inl ⟨l.length + c, he.after hdrawn (Nat.le_refl _)⟩
          · rw [hstep, hlook _ (by omega) (by omega), Nat.add_assoc] at hthere
            exact .inr ⟨he, 1 + i, by omega, hthere⟩

section Range

variable {va size : UInt64}

theorem toNat_pgrounddown (a : UInt64) : (pgrounddown a).toNat = a.toNat / 4096 * 4096 := by
  have hmask : (~~~4095 : UInt64).toNat = 2 ^ 64 - 2 ^ 12 := by decide
  rw [pgrounddown, UInt64.toNat_and, hmask, and_highMask (by decide) a.toNat_lt]
  rfl

def span (va size : UInt64) : Nat := vpage (va + size - 1) - vpage va

theorem vpage_pgrounddown : vpage (pgrounddown va) = vpage va := by
  show (pgrounddown va).toNat / 4096 = va.toNat / 4096
  rw [toNat_pgrounddown]
  omega

theorem toNat_last (hsize : 0 < size) (hrange : va.toNat + size.toNat ≤ 2 ^ 47) :
    (va + size - 1).toNat = va.toNat + size.toNat - 1 := by
  have hpos : 0 < size.toNat := UInt64.lt_iff_toNat_lt.mp hsize
  have hadd : (va + size).toNat = va.toNat + size.toNat := by
    rw [UInt64.toNat_add, Nat.mod_eq_of_lt (by omega)]
  have hone : (1 : UInt64).toNat = 1 := rfl
  rw [UInt64.toNat_sub_of_le _ _ (UInt64.le_iff_toNat_le.mpr (by omega)), hadd, hone]

theorem mappages_loop (hsize : 0 < size) (hrange : va.toNat + size.toNat ≤ 2 ^ 47) {pa : UInt64} {perm : Int32} :
    mappages pml4 va size pa perm =
      mapLoop pml4 (pgrounddown va + UInt64.ofNat (span va size * pgsize)) perm.toInt64.toUInt64 (span va size + 1)
        (pgrounddown va) pa := by
  have hlast := toNat_last hsize hrange
  have hpos : 0 < size.toNat := UInt64.lt_iff_toNat_lt.mp hsize
  have hspan : span va size = (va.toNat + size.toNat - 1) / 4096 - va.toNat / 4096 := by
    rw [span, vpage, vpage, hlast]
  have hadd : (pgrounddown va + UInt64.ofNat (span va size * pgsize)).toNat =
      (pgrounddown va).toNat + span va size * 4096 := by
    apply toNat_add_pages
    rw [vpage_pgrounddown]
    show va.toNat / 4096 + span va size < 2 ^ 35
    omega
  have heq : pgrounddown (va + size - 1) = pgrounddown va + UInt64.ofNat (span va size * pgsize) := by
    apply UInt64.toNat.inj
    rw [hadd, toNat_pgrounddown, toNat_pgrounddown, hlast]
    omega
  have hfuel : (pgrounddown (va + size - 1) - pgrounddown va).toNat / pgsize = span va size := by
    rw [heq, UInt64.toNat_sub_of_le _ _ (UInt64.le_iff_toNat_le.mpr (by omega)), hadd]
    show ((pgrounddown va).toNat + span va size * 4096 - (pgrounddown va).toNat) / 4096 = span va size
    omega
  rw [mappages, hfuel, heq]

end Range

theorem walkpgdir_find (value : UInt64 → Option V) {va : UInt64} (hva : va.toNat < 2 ^ 47) :
    walkpgdir pml4 va false s =
      .ok ((lastTable (coding value) s.mem 3 pml4 (vpage va)).map fun g => (g, index 512 0 (vpage va)), s) := by
  have hk : vpage va < 2 ^ 35 := by
    show va.toNat / 4096 < 2 ^ 35
    omega
  rw [walkpgdir_levels, Exec.bind_ok (walkTables_find value (index_lt hk))]
  rfl

def translate (s : State) (pml4 : Nat) (va : UInt64) : Option UInt64 :=
  match walkpgdir pml4 va false s with
  | .ok (some pte, t) => if present (t.mem pte.1 pte.2) then some (t.mem pte.1 pte.2) else none
  | _ => none

def leaf (e : UInt64) : Option UInt64 := if present e then some e else none

theorem leaf_faithful : Faithful leaf := by
  intro e
  rw [leaf]
  cases present e <;> simp

theorem translate_eq_lookup {va : UInt64} (hva : va.toNat < 2 ^ 47) :
    translate s pml4 va = lookup leaf s pml4 (vpage va) := by
  rw [translate, walkpgdir_find leaf hva, lookup, treeOf, find_tree]
  cases lastTable (coding leaf) s.mem 3 pml4 (vpage va) <;> rfl

theorem walkpgdir_cases {va : UInt64} (hva : va.toNat < 2 ^ 47) :
    (walkpgdir pml4 va false s = .ok (none, s) ∧ lookup leaf s pml4 (vpage va) = none) ∨
      ∃ pte, walkpgdir pml4 va false s = .ok (some pte, s) ∧ leaf (s.mem pte.1 pte.2) =
        lookup leaf s pml4 (vpage va) := by
  have hfind : walkpgdir pml4 va false s = _ := walkpgdir_find leaf hva
  rw [hfind]
  cases hg : lastTable (coding leaf) s.mem 3 pml4 (vpage va) with
  | none =>
      refine .inl ⟨rfl, ?_⟩
      rw [lookup, treeOf, find_tree, hg]
      rfl
  | some g => exact .inr ⟨(g, index 512 0 (vpage va)), rfl, (lookup_of_lastTable hg).symm⟩

theorem leaf_eq_some {x e : UInt64} : leaf x = some e ↔ present x = true ∧ x = e := by
  rw [leaf]
  cases present x <;> simp

theorem walkpgdir_of_lookup {va e : UInt64} (hva : va.toNat < 2 ^ 47) (h : lookup leaf s pml4 (vpage va) = some e) :
    ∃ pte, walkpgdir pml4 va false s = .ok (some pte, s) ∧ s.mem pte.1 pte.2 = e := by
  rcases walkpgdir_cases hva with ⟨-, hnone⟩ | ⟨pte, hwalk, hleaf⟩
  · rw [h] at hnone
    cases hnone
  · rw [h, leaf_eq_some] at hleaf
    exact ⟨pte, hwalk, hleaf.2⟩

theorem mappages_exact (s : State) (pml4 : Nat) (va size pa : UInt64) (perm : Int32) (hs : Growable leaf pml4 s)
    (hva : va.toNat % pgsize = 0) (hsize : 0 < size) (hrange : va.toNat + size.toNat ≤ 2 ^ 47)
    (habsent : ∀ i, i * pgsize < size.toNat → translate s pml4 (va + UInt64.ofNat (i * pgsize)) = none) :
    Exec.wp (mappages pml4 va size pa perm) (fun r t =>
      (r = 0 ∨ r = -1) ∧
      (r = 0 → ∀ i, i * pgsize < size.toNat → ∃ pte,
        walkpgdir pml4 (va + UInt64.ofNat (i * pgsize)) false t = .ok (some pte, t) ∧
        t.mem pte.1 pte.2 = (pa + UInt64.ofNat (i * pgsize)) ||| perm.toInt64.toUInt64 ||| pteP) ∧
      (∀ x : UInt64, x.toNat < 2 ^ 47 → (∀ i, i * pgsize < size.toNat →
      vpage x ≠ vpage (va + UInt64.ofNat (i * pgsize))) →
        translate t pml4 x = translate s pml4 x) ∧
      (∀ j : Fin 512, 256 ≤ j.val → t.mem pml4 j = s.mem pml4 j) ∧
      (∀ g, tables g 4 (treeOf leaf s pml4) = 0 → g ∉ avail s → t.mem g = s.mem g) ∧
      (∀ g i, g ∉ avail s → present (s.mem g i) = true → t.mem g i = s.mem g i) ∧
      Unshared 4 (treeOf leaf t pml4)) (fun e => e = .panic .outOfMemory ∧ s.panics = true) s := by
  have hva : va.toNat % 4096 = 0 := hva
  have hpos : 0 < size.toNat := UInt64.lt_iff_toNat_lt.mp hsize
  have hspan : span va size = (size.toNat - 1) / 4096 := by
    rw [span, vpage, vpage, toNat_last hsize hrange]
    show (va.toNat + size.toNat - 1) / 4096 - va.toNat / 4096 = _
    omega
  have hin {i : Nat} : i * pgsize < size.toNat ↔ i ≤ span va size := by
    show i * 4096 < size.toNat ↔ _
    omega
  have hend : vpage va + span va size < 2 ^ 35 := by
    show va.toNat / 4096 + span va size < 2 ^ 35
    omega
  have hpage {i : Nat} (hi : i ≤ span va size) :
      (va + UInt64.ofNat (i * pgsize)).toNat < 2 ^ 47 ∧ vpage (va + UInt64.ofNat (i * pgsize)) = vpage va + i := by
    have hadd : (va + UInt64.ofNat (i * pgsize)).toNat = va.toNat + i * 4096 := toNat_add_pages (by omega)
    rw [vpage, vpage, hadd]
    show _ ∧ (va.toNat + i * 4096) / 4096 = va.toNat / 4096 + i
    omega
  rw [mappages_loop hsize hrange]
  refine (mapLoop_spec leaf_faithful hs (by rw [vpage_pgrounddown]; exact hend) rfl).mono ?_ ?_
  · rintro r t ⟨l, hmap⟩
    rw [vpage_pgrounddown] at hmap
    have hl {g : Nat} (hg : g ∉ avail s) : g ∉ l := fun h => hg (hmap.drawn.mem h)
    refine ⟨hmap.result, ?_, ?_, hmap.grown.kernel, fun g hg hfree => hmap.grown.others g hg (hl hfree),
      fun g i hfree => hmap.grown.kept g i (hl hfree), (hs.grown hmap.drawn hmap.grown).unshared⟩
    · intro hr i hi
      obtain ⟨hlow, hv⟩ := hpage (hin.mp hi)
      apply walkpgdir_of_lookup hlow
      rw [hv, hmap.inside hr i (hin.mp hi), rangeEntry, leaf, if_pos (present_or.mpr (.inr (by decide)))]
    · intro x hx hne
      have hxk : vpage x < 2 ^ 35 := by
        show x.toNat / 4096 < 2 ^ 35
        omega
      rw [translate_eq_lookup hx, translate_eq_lookup hx]
      apply hmap.outside (vpage x) hxk
      rintro ⟨hle, hge⟩
      have hi : vpage x - vpage va ≤ span va size := by omega
      apply hne (vpage x - vpage va) (hin.mpr hi)
      rw [(hpage hi).2]
      omega
  · rintro e (⟨_, he, hpanics, -⟩ | ⟨-, i, hi, hthere⟩)
    · exact ⟨he, hpanics⟩
    · rw [vpage_pgrounddown, ← (hpage hi).2, ← translate_eq_lookup (hpage hi).1] at hthere
      exact absurd (habsent i (hin.mpr hi)) hthere

theorem growable_zero (pml4 : Nat) (hp : Pool s) (hmem : s.mem pml4 = fun _ => 0) (hfree : pml4 ∉ avail s) :
    treeOf leaf s pml4 = blank 3 pml4 ∧ Growable leaf pml4 s := by
  have htree : treeOf leaf s pml4 = blank 3 pml4 := tree_zero ((leaf_faithful 0).mpr present_zero) hmem
  refine ⟨htree, hp, ?_, ?_⟩
  · intro g
    rw [htree, tables_blank]
    split <;> omega
  · intro g hg
    rw [htree, tables_blank, if_neg]
    rintro rfl
    exact hfree hg

def smallState : State where
  mem _ _ := 0
  kmem := [some 2, some 3, some 4]
  panics := true

theorem mappages_exact_small :
    Exec.wp (mappages 1 0x400000 4096 0x5000 6) (fun r t => (r = 0 ∨ r = -1) ∧ Unshared 4 (treeOf leaf t 1))
      (fun e => e = .panic .outOfMemory ∧ smallState.panics = true) smallState := by
  obtain ⟨htree, hgrow⟩ := growable_zero (s := smallState) 1 ⟨by decide, by decide⟩ rfl (by decide)
  refine (mappages_exact smallState 1 0x400000 4096 0x5000 6 hgrow (by decide) (by decide) (by decide) ?_).imp ?_
  · intro i hi
    obtain rfl : i = 0 := by
      have : i * 4096 < 4096 := hi
      omega
    rw [translate_eq_lookup (by decide), lookup, htree, find_blank]
  · rintro r t ⟨hr, -, -, -, -, -, hu⟩
    exact ⟨hr, hu⟩

end Xv6.Paging
