import Xv6.Paging.Model
import Xv6.Vm.Pages

namespace Xv6.Paging

open Lib Lib.Radix Lib.RadixHeap Vm

section Words

theorem present_iff {e : UInt64} : present e = true ↔ e.toNat % 2 = 1 := by
  have hand : (e &&& pteP).toNat = e.toNat % 2 := by
    rw [UInt64.toNat_and]
    exact Nat.and_one_is_mod _
  rw [present, decide_eq_true_iff, Ne, ← UInt64.toNat_inj, hand]
  show ¬ e.toNat % 2 = 0 ↔ _
  omega

theorem present_zero : present 0 = false := by decide

theorem present_or {a b : UInt64} : present (a ||| b) = true ↔ present a = true ∨ present b = true := by
  rw [present_iff, present_iff, present_iff, UInt64.toNat_or, Nat.or_mod_two_eq_one]

theorem frame_or {f : Nat} {x : UInt64} (hf : f < 2 ^ 52) (hx : x.toNat < pgsize) : frame (v2p f ||| x) = f := by
  have hv : (v2p f).toNat = f * pgsize := UInt64.toNat_ofNat_of_lt' (by show f * 4096 < 2 ^ 64; omega)
  rw [frame, UInt64.toNat_or, hv]
  show (f * 4096 ||| x.toNat) / 2 ^ 12 = f
  rw [← Nat.shiftRight_eq_div_pow, Nat.shiftRight_or_distrib, Nat.shiftRight_eq_div_pow, Nat.shiftRight_eq_div_pow,
    Nat.div_eq_of_lt (a := x.toNat) hx]
  simp

theorem index_of_shift (va : UInt64) (n : Nat) (hn : n ≤ 3) :
    Fin.ofNat 512 (va >>> UInt64.ofNat (12 + 9 * n) &&& 0x1FF).toNat = index 512 n (vpage va) := by
  have hpow : (512 : Nat) ^ n = 2 ^ (9 * n) := by rw [Nat.pow_mul]
  apply Fin.ext
  show (va >>> UInt64.ofNat (12 + 9 * n) &&& 0x1FF).toNat % 512 = va.toNat / 4096 / 512 ^ n % 512
  rw [UInt64.toNat_and, UInt64.toNat_shiftRight, UInt64.toNat_ofNat_of_lt' (by show 12 + 9 * n < 2 ^ 64; omega),
    Nat.mod_eq_of_lt (a := 12 + 9 * n) (by omega), Nat.shiftRight_eq_div_pow, hpow, Nat.div_div_eq_div_mul,
      Nat.pow_add]
  show (_ &&& (2 ^ 9 - 1)) % 512 = _
  rw [Nat.and_two_pow_sub_one_eq_mod, Nat.mod_mod]

theorem pmx_eq (va : UInt64) : pmx va = index 512 3 (vpage va) := index_of_shift va 3 (by omega)

theorem pdpx_eq (va : UInt64) : pdpx va = index 512 2 (vpage va) := index_of_shift va 2 (by omega)

theorem pdx_eq (va : UInt64) : pdx va = index 512 1 (vpage va) := index_of_shift va 1 (by omega)

theorem ptx_eq (va : UInt64) : ptx va = index 512 0 (vpage va) := index_of_shift va 0 (by omega)

end Words

section Pool

def avail (s : State) : List Nat := s.kmem.reduceOption

/-- The pages `l` have been taken, and then, unless `ok`, a page has been refused. -/
structure Drawn (s : State) (l : List Nat) (ok : Bool) (t : State) : Prop where
  panics : t.panics = s.panics
  granted : ok = true → s.kmem = l.map some ++ t.kmem
  refused : ok = false → s.kmem = l.map some ++ none :: t.kmem ∨
    s.kmem = l.map some ∧ t.kmem = [] ∧ s.panics = false

variable {s t u : State} {l l' : List Nat} {b : Bool}

theorem Drawn.refl (s : State) : Drawn s [] true s := ⟨rfl, fun _ => rfl, fun h => by cases h⟩

theorem Drawn.trans (h : Drawn s l true t) (h' : Drawn t l' b u) : Drawn s (l ++ l') b u := by
  have hs := h.granted rfl
  refine ⟨h'.panics.trans h.panics, ?_, ?_⟩
  · intro hb
    rw [hs, h'.granted hb, List.map_append, List.append_assoc]
  · intro hb
    rw [hs, List.map_append, List.append_assoc]
    rcases h'.refused hb with ht | ⟨ht, hu, hp⟩
    · exact .inl (by rw [ht])
    · exact .inr ⟨by rw [ht], hu, h.panics ▸ hp⟩

theorem Drawn.avail_eq (h : Drawn s l b t) : avail s = l ++ avail t := by
  have hmap : (l.map some).reduceOption = l := by
    rw [List.reduceOption, List.filterMap_map]
    exact List.filterMap_some
  rw [avail, avail]
  cases b with
  | true => rw [h.granted rfl, List.reduceOption_append, hmap]
  | false =>
      rcases h.refused rfl with hs | ⟨hs, ht, -⟩
      · rw [hs, List.reduceOption_append, hmap, List.reduceOption_cons_of_none]
      · rw [hs, ht, hmap, List.reduceOption_nil, List.append_nil]

/-- The free pages are different pages, with numbers that fit into an entry. -/
structure Pool (s : State) : Prop where
  nodup : (avail s).Nodup
  bound : ∀ g ∈ avail s, g < 2 ^ 52

theorem Pool.rest (hp : Pool s) (h : Drawn s l b t) : Pool t := by
  have heq := h.avail_eq
  have hnodup := hp.nodup
  rw [heq] at hnodup
  exact ⟨(List.nodup_append.mp hnodup).2.1, fun g hg => hp.bound g (heq ▸ List.mem_append_right _ hg)⟩

theorem Drawn.mem (h : Drawn s l b t) {g : Nat} (hg : g ∈ l) : g ∈ avail s := h.avail_eq ▸ List.mem_append_left _ hg

theorem Drawn.mem_rest (h : Drawn s l b t) {g : Nat} (hg : g ∈ avail t) : g ∈ avail s :=
  h.avail_eq ▸ List.mem_append_right _ hg

/-- How many calls of `kalloc` return a page before one returns 0. -/
def lead (s : State) : Nat := (s.kmem.takeWhile Option.isSome).length

theorem takeWhile_map_some (l : List Nat) (r : List (Option Nat)) :
    (l.map some ++ r).takeWhile Option.isSome = l.map some ++ r.takeWhile Option.isSome := by
  induction l with
  | nil => rfl
  | cons f l ih => rw [List.map_cons, List.cons_append, List.takeWhile_cons_of_pos (by rfl), ih, List.cons_append]

theorem Drawn.lead_eq (h : Drawn s l true t) : lead s = l.length + lead t := by
  rw [lead, h.granted rfl, takeWhile_map_some, List.length_append, List.length_map, lead]

theorem Drawn.eq_lead (h : Drawn s l false t) : lead s = l.length := by
  rw [lead]
  rcases h.refused rfl with hs | ⟨hs, -⟩
  · rw [hs, takeWhile_map_some, List.takeWhile_cons_of_neg (by simp), List.append_nil, List.length_map]
  · rw [hs, ← List.append_nil (l.map some), takeWhile_map_some, List.takeWhile_nil, List.append_nil,
      List.length_map]

def OutOfMemory (s : State) (n : Nat) (e : Fault) : Prop := e = .panic .outOfMemory ∧ s.panics = true ∧ lead s < n

theorem OutOfMemory.after {n n' : Nat} {e : Fault} (h : OutOfMemory t n e) (hd : Drawn s l true t)
    (hle : l.length + n ≤ n') :
    OutOfMemory s n' e := by
  obtain ⟨he, hpanics, hlead⟩ := h
  have heq := hd.lead_eq
  exact ⟨he, hd.panics ▸ hpanics, by omega⟩

theorem kalloc_spec (s : State) :
    Exec.wp kalloc (fun r t => t.mem = s.mem ∧ Drawn s r.toList r.isSome t) (OutOfMemory s 1) s := by
  rw [kalloc, Exec.wp_bind, Exec.wp_gets]
  cases hk : s.kmem with
  | cons r next =>
      refine ⟨rfl, rfl, ?_, ?_⟩
      · intro hr
        obtain ⟨g, rfl⟩ := Option.isSome_iff_exists.mp hr
        exact hk
      · intro hr
        rw [Option.isSome_eq_false_iff, Option.isNone_iff_eq_none] at hr
        subst hr
        exact .inl hk
  | nil =>
      have hlead : lead s < 1 := by
        rw [lead, hk]
        exact Nat.one_pos
      rw [Exec.wp_bind, Exec.wp_gets, Exec.wp_ite]
      refine ⟨fun hp => ⟨rfl, hp, hlead⟩, fun hp => ⟨rfl, rfl, ?_, ?_⟩⟩
      · intro h
        cases h
      · intro _
        exact .inr ⟨hk, hk, Bool.eq_false_iff.mpr hp⟩

end Pool

section Walk

variable {V : Type}

def coding (value : UInt64 → Option V) : Coding 512 Nat V UInt64 where
  child n i e := if n = 2 ∧ 256 ≤ i.val then none else if present e then some (frame e) else none
  value := value

def levels (k : Nat) : Nat → List (Fin 512)
  | 0 => []
  | n + 1 => index 512 (n + 1) k :: levels k n

theorem walkpgdir_levels (pml4 : Nat) (va : UInt64) (alloc : Bool) :
    walkpgdir pml4 va alloc =
      walkTables alloc (levels (vpage va) 3) pml4 >>=
        fun r => pure (r.map fun pgtab => (pgtab, index 512 0 (vpage va))) := by
  rw [walkpgdir, pmx_eq, pdpx_eq, pdx_eq, ptx_eq]
  congr 1
  funext r
  cases r <;> rfl

variable {value : UInt64 → Option V} {n f k : Nat} {s t : State} {l : List Nat}

theorem child_coding (hk : (index 512 3 k).val < 256) (e : UInt64) :
    (coding value).child n (index 512 (n + 1) k) e = if present e then some (frame e) else none := by
  apply if_neg
  rintro ⟨rfl, hge⟩
  exact Nat.not_le_of_lt hk hge

theorem walkTables_find (value : UInt64 → Option V) (hk : (index 512 3 k).val < 256) :
    walkTables false (levels k n) f s = .ok (lastTable (coding value) s.mem n f k, s) := by
  induction n generalizing f with
  | zero => rfl
  | succ n ih =>
      rw [levels, walkTables, lastTable, child_coding hk]
      cases hp : present (s.mem f (index 512 (n + 1) k)) with
      | true =>
          have hnext : nextTable (f, index 512 (n + 1) k) false s =
            .ok (some (frame (s.mem f (index 512 (n + 1) k))), s) := by
            show (if present (s.mem f (index 512 (n + 1) k)) then _ else _ : PM _) s = _
            rw [hp]
            rfl
          rw [Exec.bind_ok hnext]
          exact ih
      | false =>
          have hnext : nextTable (f, index 512 (n + 1) k) false s = .ok (none, s) := by
            show (if present (s.mem f (index 512 (n + 1) k)) then _ else _ : PM _) s = _
            rw [hp]
            rfl
          rw [Exec.bind_ok hnext]
          rfl

/-- What a walk that makes tables in the pages `l` does to the memory. -/
structure Walked (value : UInt64 → Option V) (n f k : Nat) (s : State) (l : List Nat) (t : State) : Prop where
  tree_eq : tree (coding value) t.mem n f = (grow n (tree (coding value) s.mem n f) k l).1
  all_used : (grow n (tree (coding value) s.mem n f) k l).2 = []
  kept : ∀ g i, g ∉ l → present (s.mem g i) = true → t.mem g i = s.mem g i
  row : ∀ j, j ≠ index 512 n k → t.mem f j = s.mem f j
  others : ∀ g, tables g (n + 1) (tree (coding value) s.mem n f) = 0 → g ∉ l → t.mem g = s.mem g

theorem Walked.refl (value : UInt64 → Option V) (f k : Nat) (s : State) : Walked value 0 f k s [] s :=
  ⟨rfl, rfl, fun _ _ _ _ => rfl, fun _ _ => rfl, fun _ _ _ => rfl⟩

theorem Walked.stop (h : (tree (coding value) s.mem (n + 1) f).2 (index 512 (n + 1) k) = none)
    (hmem : t.mem = s.mem) :
    Walked value (n + 1) f k s [] t := by
  have hgrow := grow_nil h
  refine ⟨?_, ?_, ?_, ?_, ?_⟩
  · rw [hgrow, hmem]
  · rw [hgrow]
  · intro g i _ _
    rw [hmem]
  · intro j _
    rw [hmem]
  · intro g _ _
    rw [hmem]

theorem Walked.below {c : Nat} (hu : Unshared (n + 1 + 1) (tree (coding value) s.mem (n + 1) f))
    (hl : ∀ g ∈ l, tables g (n + 1 + 1) (tree (coding value) s.mem (n + 1) f) = 0)
    (hc : (coding value).child n (index 512 (n + 1) k) (s.mem f (index 512 (n + 1) k)) = some c)
    (h : Walked value n c k s l t) : Walked value (n + 1) f k s l t := by
  have hentry : (tree (coding value) s.mem (n + 1) f).2 (index 512 (n + 1) k) =
    some (tree (coding value) s.mem n c) := by
    rw [entry_tree, hc]
    rfl
  have hgrow := grow_some (l := l) hentry
  have hroot : t.mem f = s.mem f := by
    apply h.others f (hu.root hc)
    intro hf
    have := hl f hf
    have := tables_root (C := coding value) (h := s.mem) (n := n + 1) (f := f)
    omega
  refine ⟨?_, ?_, h.kept, fun j _ => by rw [hroot], ?_⟩
  · rw [hgrow, ← h.tree_eq]
    apply tree_child
    · rw [hroot, hc]
    · intro j _
      rw [hroot]
    · intro j hj c' hc' g hg
      have hle := tables_child_le (n := n) (g := g) hc'
      apply h.others g (hu.apart hj hc' hc hg)
      intro hgl
      have := hl g hgl
      omega
  · rw [hgrow]
    exact h.all_used
  · intro g hg hgl
    have hle := tables_child_le (n := n) (g := g) hc
    exact h.others g (by omega) hgl

theorem tree_zero (hzero : value 0 = none) {h : Nat → Fin 512 → UInt64} (hf : h f = fun _ => 0) :
    tree (coding value) h n f = blank n f := by
  refine Prod.ext label_tree ?_
  funext i
  cases n with
  | zero => exact (congrArg (fun r => value (r i)) hf).trans hzero
  | succ n =>
      have hchild : (coding value).child n i (h f i) = none := by
        show (if n = 2 ∧ 256 ≤ i.val then none else if present (h f i) then some (frame (h f i)) else none) = none
        rw [hf, present_zero]
        split <;> rfl
      rw [entry_tree, hchild]
      rfl

theorem tables_blank {g : Nat} : tables g (n + 1) (blank n f : Table 512 Nat V (n + 1)) = if f = g then 1 else 0 :=
  weight_blank

/-- The memory with a new table in the page `g`, to which an entry of the table `f` leads. -/
def withTable (m : Nat → Fin 512 → UInt64) (f : Nat) (i : Fin 512) (g : Nat) : Nat → Fin 512 → UInt64 :=
  write (Function.update m g fun _ => 0) f i (v2p g ||| pteP ||| pteW ||| pteU)

theorem withTable_new {m : Nat → Fin 512 → UInt64} {i : Fin 512} {g : Nat} (hne : g ≠ f) :
    withTable m f i g g = fun _ => 0 := by
  rw [withTable, write_of_ne hne, Function.update_self]

theorem withTable_row {m : Nat → Fin 512 → UInt64} {i j : Fin 512} {g : Nat} (hne : g ≠ f) (hj : j ≠ i) :
    withTable m f i g f j = m f j := by
  rw [withTable, write_self, Function.update_of_ne hj, Function.update_of_ne hne.symm]

theorem withTable_other {m : Nat → Fin 512 → UInt64} {i : Fin 512} {g x : Nat} (hg : x ≠ g) (hf : x ≠ f) :
    withTable m f i g x = m x := by
  rw [withTable, write_of_ne hf, Function.update_of_ne hg]

theorem withTable_entry {m : Nat → Fin 512 → UInt64} {i : Fin 512} {g : Nat} :
    withTable m f i g f i = v2p g ||| pteP ||| pteW ||| pteU := by
  rw [withTable, write_self, Function.update_self]

theorem table_entry {g : Nat} (hg : g < 2 ^ 52) :
    present (v2p g ||| pteP ||| pteW ||| pteU) = true ∧ frame (v2p g ||| pteP ||| pteW ||| pteU) = g := by
  rw [UInt64.or_assoc, UInt64.or_assoc]
  exact ⟨present_or.mpr (.inr (by decide)), frame_or hg (by decide)⟩

theorem Walked.made {g : Nat} {s₁ : State} (hzero : value 0 = none) (hk : (index 512 3 k).val < 256)
    (hu : Unshared (n + 1 + 1) (tree (coding value) s.mem (n + 1) f))
    (hl : ∀ x ∈ g :: l, tables x (n + 1 + 1) (tree (coding value) s.mem (n + 1) f) = 0)
    (hbound : g < 2 ^ 52) (habsent : present (s.mem f (index 512 (n + 1) k)) = false)
    (hs₁ : s₁.mem = withTable s.mem f (index 512 (n + 1) k) g)
    (h : Walked value n g k s₁ l t) : Walked value (n + 1) f k s (g :: l) t := by
  have hroot := tables_root (C := coding value) (h := s.mem) (n := n + 1) (f := f)
  have hgf : g ≠ f := by
    rintro rfl
    have := hl g (List.mem_cons_self ..)
    omega
  have hfl : f ∉ l := by
    intro hf
    have := hl f (List.mem_cons_of_mem _ hf)
    omega
  have hblank : tree (coding value) s₁.mem n g = blank n g := tree_zero hzero (by rw [hs₁, withTable_new hgf])
  have hentry : (tree (coding value) s.mem (n + 1) f).2 (index 512 (n + 1) k) = none := by
    rw [entry_tree, child_coding hk, habsent]
    rfl
  have hgrow := grow_none (l := l) (f := g) hentry
  have hothers (x : Nat) (hx : x ≠ g) (hxl : x ∉ l) : t.mem x = s₁.mem x := by
    apply h.others x _ hxl
    rw [hblank, tables_blank, if_neg hx.symm]
  have hrow : t.mem f = s₁.mem f := hothers f hgf.symm hfl
  have hrest (j : Fin 512) (hj : j ≠ index 512 (n + 1) k) : t.mem f j = s.mem f j := by
    rw [hrow, hs₁, withTable_row hgf hj]
  have hfar (x : Nat) (hx : x ≠ g) (hxf : x ≠ f) (hxl : x ∉ l) : t.mem x = s.mem x := by
    rw [hothers x hx hxl, hs₁, withTable_other hx hxf]
  refine ⟨?_, ?_, ?_, hrest, ?_⟩
  · rw [hgrow, ← hblank, ← h.tree_eq]
    apply tree_child
    · have hnew := table_entry hbound
      rw [hrow, hs₁, withTable_entry, child_coding hk, hnew.1, hnew.2]
      rfl
    · exact hrest
    · intro j hj c' hc' x hx
      have hle := tables_child_le (n := n) (g := x) hc'
      apply hfar
      · rintro rfl
        have := hl x (List.mem_cons_self ..)
        omega
      · rintro rfl
        have := hu.root hc'
        omega
      · intro hxl
        have := hl x (List.mem_cons_of_mem _ hxl)
        omega
  · rw [hgrow, ← hblank]
    exact h.all_used
  · intro x i hx hpres
    rw [List.mem_cons, not_or] at hx
    by_cases hxf : x = f
    · subst hxf
      apply hrest
      rintro rfl
      rw [habsent] at hpres
      cases hpres
    · rw [hfar x hx.1 hxf hx.2]
  · intro x hx hxl
    rw [List.mem_cons, not_or] at hxl
    apply hfar x hxl.1 _ hxl.2
    rintro rfl
    omega

theorem walkTables_alloc (hzero : value 0 = none) (hk : (index 512 3 k).val < 256)
    (hu : Unshared (n + 1) (tree (coding value) s.mem n f)) (hp : Pool s)
    (hfresh : ∀ g ∈ avail s, tables g (n + 1) (tree (coding value) s.mem n f) = 0) :
    Exec.wp (walkTables true (levels k n) f) (fun r t => ∃ l, Drawn s l r.isSome t ∧ Walked value n f k s l t ∧
      (r.isSome → r = lastTable (coding value) t.mem n f k ∧
        l.length = lacking n (tree (coding value) s.mem n f) k) ∧
      (r = none → l.length < lacking n (tree (coding value) s.mem n f) k))
      (OutOfMemory s (lacking n (tree (coding value) s.mem n f) k)) s := by
  induction n generalizing f s with
  | zero => exact ⟨[], Drawn.refl s, Walked.refl value f k s, fun _ => ⟨rfl, rfl⟩, fun h => by cases h⟩
  | succ n ih =>
      rw [levels, walkTables, Exec.wp_bind, nextTable, Exec.wp_bind]
      show Exec.wp (if present (s.mem f (index 512 (n + 1) k)) then _ else _) _ _ s
      cases hpres : present (s.mem f (index 512 (n + 1) k)) with
      | true =>
          have hc : (coding value).child n (index 512 (n + 1) k) (s.mem f (index 512 (n + 1) k)) =
              some (frame (s.mem f (index 512 (n + 1) k))) := by
            rw [child_coding hk, hpres]
            rfl
          have hentry : (tree (coding value) s.mem (n + 1) f).2 (index 512 (n + 1) k) =
              some (tree (coding value) s.mem n (frame (s.mem f (index 512 (n + 1) k)))) := by
            rw [entry_tree, hc]
            rfl
          have hbelow := ih (hu.child hc) hp (by
            intro g hg
            have hle := tables_child_le (n := n) (g := g) hc
            have := hfresh g hg
            omega)
          rw [← lacking_some hentry] at hbelow
          refine hbelow.imp ?_
          rintro r t ⟨l, hdrawn, hwalked, hsome, hnone⟩
          have hwalked := hwalked.below hu (fun g hg => hfresh g (hdrawn.mem hg)) hc
          have hfl : f ∉ l := by
            intro hf
            have := hfresh f (hdrawn.mem hf)
            have := tables_root (C := coding value) (h := s.mem) (n := n + 1) (f := f)
            omega
          refine ⟨l, hdrawn, hwalked, ?_, ?_⟩
          · intro hr
            rw [lastTable, hwalked.kept f _ hfl hpres, hc]
            exact hsome hr
          · exact hnone
      | false =>
          have hentry : (tree (coding value) s.mem (n + 1) f).2 (index 512 (n + 1) k) = none := by
            rw [entry_tree, child_coding hk, hpres]
            rfl
          rw [if_neg Bool.false_ne_true, if_neg (by decide), Exec.wp_bind]
          refine (kalloc_spec s).mono ?_ (fun _ h => h.after (Drawn.refl s)
            (by rw [lacking_none hentry]; exact Nat.succ_pos n))
          rintro r s₀ ⟨hmem, hdrawn⟩
          cases r with
          | none =>
              refine ⟨[], hdrawn, Walked.stop hentry hmem, ?_, ?_⟩
              · intro h
                cases h
              · intro _
                rw [lacking_none hentry]
                exact Nat.succ_pos n
          | some g =>
              have hg : g ∈ avail s := hdrawn.mem (List.mem_singleton_self g)
              have hrest := hp.rest hdrawn
              have hnodup := hp.nodup
              rw [hdrawn.avail_eq] at hnodup
              have hroot (x : Nat) (hx : x ∈ avail s) : x ≠ f := by
                rintro rfl
                have := hfresh x hx
                have := tables_root (C := coding value) (h := s.mem) (n := n + 1) (f := x)
                omega
              have hgf := hroot g hg
              have hnew : tree (coding value) (withTable s₀.mem f (index 512 (n + 1) k) g) n g = blank n g :=
                tree_zero hzero (withTable_new hgf)
              have hbelow := ih (f := g) (s := { s₀ with mem := withTable s₀.mem f (index 512 (n + 1) k) g })
                (by
                  intro x
                  rw [hnew, tables_blank]
                  split <;> omega)
                ⟨hrest.nodup, hrest.bound⟩
                (by
                  intro x hx
                  rw [hnew, tables_blank, if_neg]
                  rintro rfl
                  exact (List.nodup_cons.mp hnodup).1 hx)
              rw [Exec.wp_bind]
              refine hbelow.mono ?_ ?_
              · rintro r t ⟨l, hdrawn', hwalked, hsome, hnone⟩
                have hall : Drawn s (g :: l) r.isSome t :=
                  hdrawn.trans ⟨hdrawn'.panics, hdrawn'.granted, hdrawn'.refused⟩
                have hrow : t.mem f = withTable s₀.mem f (index 512 (n + 1) k) g f :=
                  hwalked.others f (by rw [hnew, tables_blank, if_neg hgf]) fun hf =>
                    hroot f (hall.mem (List.mem_cons_of_mem _ hf)) rfl
                have hchild : (coding value).child n (index 512 (n + 1) k) (t.mem f (index 512 (n + 1) k)) =
                  some g := by
                  have hnext := table_entry (hp.bound g hg)
                  rw [hrow, withTable_entry, child_coding hk, hnext.1, hnext.2]
                  rfl
                have hwalked := hwalked.made hzero hk hu (fun x hx => hfresh x (hall.mem hx)) (hp.bound g hg) hpres
                  (by rw [hmem])
                refine ⟨g :: l, hall, hwalked, ?_, ?_⟩
                · intro hr
                  obtain ⟨hlast, hlen⟩ := hsome hr
                  rw [hnew, lacking_blank] at hlen
                  rw [lastTable, hchild, lacking_none hentry, List.length_cons, hlen]
                  exact ⟨hlast, rfl⟩
                · intro hr
                  have hlen := hnone hr
                  rw [hnew, lacking_blank] at hlen
                  rw [lacking_none hentry, List.length_cons]
                  omega
              · intro e he
                rw [hnew, lacking_blank] at he
                have he : OutOfMemory s₀ n e := he
                exact he.after hdrawn (by rw [lacking_none hentry, Nat.add_comm]; exact Nat.le_refl _)

end Walk

end Xv6.Paging
