import Xv6.Lib.Radix

namespace Xv6.Lib.RadixHeap

open Radix

/-- How entries are read: in an inner table as a table of the next level, given that level and the index of the
entry, in a table of the last level as a value. -/
structure Coding (w : Nat) (F V E : Type) where
  child : Nat → Fin w → E → Option F
  value : E → Option V

variable {w : Nat} {F V E : Type} (C : Coding w F V E)

def tree (h : F → Fin w → E) : (n : Nat) → F → Table w F V (n + 1)
  | 0, f => (f, fun i => C.value (h f i))
  | n + 1, f => (f, fun i => (C.child n i (h f i)).map (tree h n))

def lastTable [NeZero w] (h : F → Fin w → E) : (n : Nat) → F → Nat → Option F
  | 0, f, _ => some f
  | n + 1, f, k => (C.child n (index w (n + 1) k) (h f (index w (n + 1) k))).bind fun c => lastTable h n c k

section

variable [DecidableEq F]

def write (h : F → Fin w → E) (g : F) (i : Fin w) (e : E) : F → Fin w → E :=
  Function.update h g (Function.update (h g) i e)

def tables (g : F) (n : Nat) (t : Table w F V n) : Nat := weight (fun f => if f = g then 1 else 0) (fun _ => 0) n t

def Unshared (n : Nat) (t : Table w F V n) : Prop := ∀ g, tables g n t ≤ 1

variable {C} {n k : Nat} {h h' : F → Fin w → E} {f g c c' : F} {i j : Fin w}

omit [DecidableEq F] in
theorem label_tree : (tree C h n f).1 = f := by
  cases n <;> rfl

omit [DecidableEq F] in
theorem entry_tree : (tree C h (n + 1) f).2 i = (C.child n i (h f i)).map (tree C h n) := rfl

omit [DecidableEq F] in
theorem weight_tree_zero {a : F → Nat} {b : V → Nat} :
    weight a b 1 (tree C h 0 f) = a f + ∑ i, (C.value (h f i)).elim 0 b := rfl

omit [DecidableEq F] in
theorem weight_tree_succ {a : F → Nat} {b : V → Nat} : weight a b (n + 1 + 1) (tree C h (n + 1) f) =
    a f + ∑ i, (C.child n i (h f i)).elim 0 fun c => weight a b (n + 1) (tree C h n c) := by
  rw [weight]
  congr 1
  apply Finset.sum_congr rfl
  intro i _
  rw [entry_tree]
  cases C.child n i (h f i) <;> rfl

omit [DecidableEq F] in
theorem weight_tree_congr {V' : Type} {C' : Coding w F V' E} {a : F → Nat} {b : V → Nat} {b' : V' → Nat}
    (hchild : ∀ n i e, C.child n i e = C'.child n i e)
    (hvalue : ∀ e, (C.value e).elim 0 b = (C'.value e).elim 0 b') :
    weight a b (n + 1) (tree C h n f) = weight a b' (n + 1) (tree C' h n f) := by
  induction n generalizing f with
  | zero =>
      rw [weight_tree_zero, weight_tree_zero]
      exact congrArg _ (Finset.sum_congr rfl fun i _ => hvalue (h f i))
  | succ n ih =>
      rw [weight_tree_succ, weight_tree_succ]
      simp only [hchild, ih]

theorem tables_tree_zero : tables g 1 (tree C h 0 f) = if f = g then 1 else 0 := by
  have hzero (o : Option V) : (o.elim 0 fun _ : V => 0) = 0 := by cases o <;> rfl
  rw [tables, weight_tree_zero]
  simp only [hzero, Finset.sum_const_zero, Nat.add_zero]

theorem tables_tree_succ : tables g (n + 1 + 1) (tree C h (n + 1) f) =
    (if f = g then 1 else 0) + ∑ i, (C.child n i (h f i)).elim 0 fun c => tables g (n + 1) (tree C h n c) :=
  weight_tree_succ

theorem tables_root : 1 ≤ tables f (n + 1) (tree C h n f) := by
  cases n with
  | zero => rw [tables_tree_zero, if_pos rfl]
  | succ n => rw [tables_tree_succ, if_pos rfl]; omega

theorem tables_child_le (hc : C.child n i (h f i) = some c) :
    (if f = g then 1 else 0) + tables g (n + 1) (tree C h n c) ≤ tables g (n + 1 + 1) (tree C h (n + 1) f) := by
  have hle := UpdateSum.le_sum (fun o : Option F => o.elim 0 fun c => tables g (n + 1) (tree C h n c))
    (fun i => C.child n i (h f i)) i
  rw [hc, Option.elim_some] at hle
  rw [tables_tree_succ]
  omega

theorem tables_children_le (hij : i ≠ j) (hc : C.child n i (h f i) = some c) (hc' : C.child n j (h f j) = some c') :
    tables g (n + 1) (tree C h n c) + tables g (n + 1) (tree C h n c') ≤
      tables g (n + 1 + 1) (tree C h (n + 1) f) := by
  have hle := UpdateSum.add_le_sum (fun o : Option F => o.elim 0 fun c => tables g (n + 1) (tree C h n c))
    (fun i => C.child n i (h f i)) hij
  rw [hc, hc', Option.elim_some, Option.elim_some] at hle
  rw [tables_tree_succ]
  omega

theorem tree_congr (hsame : ∀ g, 0 < tables g (n + 1) (tree C h n f) → h' g = h g) :
    tree C h' n f = tree C h n f := by
  induction n generalizing f with
  | zero =>
      have hf := hsame f tables_root
      rw [tree, tree, hf]
  | succ n ih =>
      have hf := hsame f tables_root
      rw [tree, tree, hf]
      congr 1
      funext i
      cases hc : C.child n i (h f i) with
      | none => rfl
      | some c =>
          have hbelow : tree C h' n c = tree C h n c := by
            apply ih
            intro g hg
            exact hsame g (Nat.lt_of_lt_of_le (by omega) (tables_child_le hc))
          exact congrArg some hbelow

theorem tables_le_weight {m : Nat} {b : V → Nat} {t : Table w F V m} :
    tables g m t ≤ weight (fun f => if f = g then 1 else 0) b m t := by
  induction m with
  | zero => exact Nat.zero_le _
  | succ m ih =>
      apply Nat.add_le_add_left
      apply Finset.sum_le_sum
      intro i _
      cases t.2 i with
      | none => exact Nat.le_refl 0
      | some c => exact ih

namespace Unshared

variable (hu : Unshared (n + 1 + 1) (tree C h (n + 1) f))

include hu

theorem child (hc : C.child n i (h f i) = some c) : Unshared (n + 1) (tree C h n c) := by
  intro g
  have hle := tables_child_le (n := n) (g := g) hc
  have := hu g
  omega

theorem root (hc : C.child n i (h f i) = some c) : tables f (n + 1) (tree C h n c) = 0 := by
  have hle := tables_child_le (n := n) (g := f) hc
  have := hu f
  rw [if_pos rfl] at hle
  omega

theorem apart (hij : i ≠ j) (hc : C.child n i (h f i) = some c) (hc' : C.child n j (h f j) = some c')
    (hg : 0 < tables g (n + 1) (tree C h n c)) : tables g (n + 1) (tree C h n c') = 0 := by
  have hle := tables_children_le (n := n) (g := g) hij hc hc'
  have := hu g
  omega

end Unshared

theorem tree_child (hi : C.child n i (h' f i) = some c) (hrest : ∀ j, j ≠ i → h' f j = h f j)
    (hbelow : ∀ j, j ≠ i → ∀ c', C.child n j (h f j) = some c' → ∀ g, 0 < tables g (n + 1) (tree C h n c') →
    h' g = h g) :
    tree C h' (n + 1) f = setEntry (tree C h (n + 1) f) i (some (tree C h' n c)) := by
  refine Prod.ext rfl ?_
  funext j
  rw [entry_tree]
  by_cases hj : j = i
  · subst hj
    rw [hi, entry_setEntry_self]
    rfl
  · rw [entry_setEntry hj, entry_tree, hrest j hj]
    cases hc : C.child n j (h f j) with
    | none => rfl
    | some c' => exact congrArg some (tree_congr (hbelow j hj c' hc))

theorem write_of_ne {e : E} {x : F} (hx : x ≠ g) : write h g i e x = h x := Function.update_of_ne hx ..

theorem write_self {e : E} : write h g i e g = Function.update (h g) i e := Function.update_self ..

section

variable [NeZero w] {e : E}

omit [DecidableEq F] in
theorem find_tree : find n (tree C h n f) k = (lastTable C h n f k).map fun g => C.value (h g (index w 0 k)) := by
  induction n generalizing f with
  | zero => rfl
  | succ n ih =>
      rw [find, entry_tree, lastTable]
      cases C.child n (index w (n + 1) k) (h f (index w (n + 1) k)) with
      | none => rfl
      | some c => exact ih

theorem tables_lastTable (hg : lastTable C h n f k = some g) : 0 < tables g (n + 1) (tree C h n f) := by
  induction n generalizing f with
  | zero =>
      cases hg
      exact tables_root
  | succ n ih =>
      obtain ⟨c, hc, hg⟩ := Option.bind_eq_some_iff.mp hg
      exact Nat.lt_of_lt_of_le (Nat.lt_of_lt_of_le (ih hg) (Nat.le_add_left ..)) (tables_child_le hc)

theorem lastTable_congr (hsame : ∀ g, 0 < tables g (n + 1) (tree C h n f) → h' g = h g) :
    lastTable C h' n f k = lastTable C h n f k := by
  induction n generalizing f with
  | zero => rfl
  | succ n ih =>
      rw [lastTable, lastTable, hsame f tables_root]
      cases hc : C.child n (index w (n + 1) k) (h f (index w (n + 1) k)) with
      | none => rfl
      | some c =>
          apply ih
          intro g hg
          exact hsame g (Nat.lt_of_lt_of_le (by omega) (tables_child_le hc))

theorem lastTable_ne (hu : Unshared (n + 1 + 1) (tree C h (n + 1) f))
    (hg : lastTable C h (n + 1) f k = some g) : g ≠ f := by
  obtain ⟨c, hc, hg⟩ := Option.bind_eq_some_iff.mp hg
  have hin := tables_lastTable hg
  rintro rfl
  have := hu.root hc
  omega

theorem tree_write (hu : Unshared (n + 1) (tree C h n f)) (hg : lastTable C h n f k = some g) :
    tree C (write h g (index w 0 k) e) n f = Radix.set n (tree C h n f) k (C.value e) := by
  induction n generalizing f with
  | zero =>
      obtain rfl := Option.some.inj hg
      refine Prod.ext rfl ?_
      funext i
      show C.value (write h f (index w 0 k) e f i) = _
      rw [write_self]
      by_cases hi : i = index w 0 k
      · rw [hi, Function.update_self]
        exact (entry_setEntry_self (t := tree C h 0 f)).symm
      · rw [Function.update_of_ne hi]
        exact (entry_setEntry (t := tree C h 0 f) hi).symm
  | succ n ih =>
      obtain ⟨c, hc, hg⟩ := Option.bind_eq_some_iff.mp hg
      have hin := tables_lastTable hg
      have hfg : f ≠ g := (lastTable_ne hu (Option.bind_eq_some_iff.mpr ⟨c, hc, hg⟩)).symm
      have hset : Radix.set (n + 1) (tree C h (n + 1) f) k (C.value e) =
          setEntry (tree C h (n + 1) f) (index w (n + 1) k) (some (Radix.set n (tree C h n c) k (C.value e))) := by
        rw [Radix.set, entry_tree, hc]
        rfl
      rw [hset, ← ih (hu.child hc) hg]
      apply tree_child
      · rw [write_of_ne hfg, hc]
      · intro j _
        rw [write_of_ne hfg]
      · intro j hj c' hc' x hx
        apply write_of_ne
        rintro rfl
        have := hu.apart hj hc' hc hx
        omega

end

end

end Xv6.Lib.RadixHeap
