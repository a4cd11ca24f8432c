import Xv6.Lib.UpdateSum
import Mathlib

namespace Xv6.Lib.Radix

open Function (update update_of_ne update_self)

/-- A radix tree of `n` levels whose inner nodes are tables with `w` entries. A table has a label in `F`, the values
are in `V`. -/
def Table (w : Nat) (F V : Type) : Nat → Type
  | 0 => V
  | n + 1 => F × (Fin w → Option (Table w F V n))

variable {w : Nat} [NeZero w] {F V : Type}

/-- The entry that the key selects in a table of level `n`, whose entries have level `n`. -/
def index (w : Nat) [NeZero w] (n k : Nat) : Fin w := Fin.ofNat w (k / w ^ n)

def blank (n : Nat) (f : F) : Table w F V (n + 1) := (f, fun _ => none)

def setEntry {n : Nat} (t : Table w F V (n + 1)) (i : Fin w) (c : Option (Table w F V n)) : Table w F V (n + 1) :=
  (t.1, update t.2 i c)

/-- The entry for a key in the last table on its path, if all tables on the path are there. -/
def find : (n : Nat) → Table w F V (n + 1) → Nat → Option (Option V)
  | 0, t, k => some (t.2 (index w 0 k))
  | n + 1, t, k => match t.2 (index w (n + 1) k) with
    | none => none
    | some c => find n c k

def set : (n : Nat) → Table w F V (n + 1) → Nat → Option V → Table w F V (n + 1)
  | 0, t, k, v => setEntry t (index w 0 k) v
  | n + 1, t, k, v => match t.2 (index w (n + 1) k) with
    | none => t
    | some c => setEntry t (index w (n + 1) k) (some (set n c k v))

def lacking : (n : Nat) → Table w F V (n + 1) → Nat → Nat
  | 0, _, _ => 0
  | n + 1, t, k => match t.2 (index w (n + 1) k) with
    | none => n + 1
    | some c => lacking n c k

def present : (n : Nat) → Table w F V (n + 1) → (m k : Nat) → Bool
  | 0, _, _, _ => false
  | n + 1, t, m, k => match t.2 (index w (n + 1) k) with
    | none => false
    | some c => m = n + 1 || present n c m k

/-- Adds the missing tables on the path of a key, with labels from a list, and returns the rest of the list. -/
def grow : (n : Nat) → Table w F V (n + 1) → Nat → List F → Table w F V (n + 1) × List F
  | 0, t, _, l => (t, l)
  | n + 1, t, k, l => match t.2 (index w (n + 1) k) with
    | some c => (setEntry t (index w (n + 1) k) (some (grow n c k l).1), (grow n c k l).2)
    | none => match l with
      | [] => (t, [])
      | f :: l => (setEntry t (index w (n + 1) k) (some (grow n (blank n f) k l).1), (grow n (blank n f) k l).2)

def weight (a : F → Nat) (b : V → Nat) : (n : Nat) → Table w F V n → Nat
  | 0, v => b v
  | n + 1, t => a t.1 + ∑ i, (t.2 i).elim 0 (weight a b n)

section Keys

variable {n m k k' : Nat}

theorem index_eq : index w n k = index w n k' ↔ k / w ^ n % w = k' / w ^ n % w := by
  rw [index, index, Fin.ext_iff]
  rfl

theorem mod_succ_eq :
    k % w ^ (n + 1) = k' % w ^ (n + 1) ↔ index w n k = index w n k' ∧ k % w ^ n = k' % w ^ n := by
  have hpos : 0 < w ^ n := Nat.pow_pos (NeZero.pos w)
  have hk := Nat.mod_lt k hpos
  have hk' := Nat.mod_lt k' hpos
  rw [index_eq, Nat.mod_pow_succ, Nat.mod_pow_succ]
  constructor
  · intro h
    have hdiv := congrArg (· / w ^ n) h
    have hmod := congrArg (· % w ^ n) h
    simp only [Nat.add_mul_div_left _ _ hpos, Nat.div_eq_of_lt hk, Nat.div_eq_of_lt hk', Nat.zero_add] at hdiv
    simp only [Nat.add_mul_mod_self_left, Nat.mod_mod] at hmod
    exact ⟨hdiv, hmod⟩
  · rintro ⟨h1, h2⟩
    rw [h1, h2]

/-- The part of a key that selects the tables from level `m` up to the root, of level `n`. -/
def part (w n m k : Nat) : Nat := k % w ^ (n + 1) / w ^ m

theorem part_succ_eq (hm : m ≤ n + 1) :
    part w (n + 1) m k = part w (n + 1) m k' ↔
      index w (n + 1) k = index w (n + 1) k' ∧ part w n m k = part w n m k' := by
  have hsplit (j : Nat) : part w (n + 1) m j = part w n m j + w ^ (n + 1 - m) * (j / w ^ (n + 1) % w) := by
    have hpow : w ^ (n + 1) * (j / w ^ (n + 1) % w) = w ^ m * (w ^ (n + 1 - m) * (j / w ^ (n + 1) % w)) := by
      rw [← Nat.mul_assoc, ← Nat.pow_add, Nat.add_sub_cancel' hm]
    rw [part, Nat.mod_pow_succ, hpow, Nat.add_mul_div_left _ _ (Nat.pow_pos (NeZero.pos w)), part]
  have hlt (j : Nat) : part w n m j < w ^ (n + 1 - m) := by
    refine Nat.div_lt_of_lt_mul ?_
    rw [← Nat.pow_add, Nat.add_sub_cancel' hm]
    exact Nat.mod_lt _ (Nat.pow_pos (NeZero.pos w))
  rw [hsplit, hsplit, index_eq]
  have hk := hlt k
  have hk' := hlt k'
  generalize w ^ (n + 1 - m) = b at *
  generalize part w n m k = x at *
  generalize part w n m k' = x' at *
  generalize k / w ^ (n + 1) % w = q at *
  generalize k' / w ^ (n + 1) % w = q' at *
  have hb : 0 < b := Nat.zero_lt_of_lt hk
  constructor
  · intro h
    have hdiv := congrArg (· / b) h
    have hmod := congrArg (· % b) h
    simp only [Nat.add_mul_div_left _ _ hb, Nat.div_eq_of_lt hk, Nat.div_eq_of_lt hk', Nat.zero_add] at hdiv
    simp only [Nat.add_mul_mod_self_left, Nat.mod_eq_of_lt hk, Nat.mod_eq_of_lt hk'] at hmod
    exact ⟨hdiv, hmod⟩
  · rintro ⟨h1, h2⟩
    rw [h1, h2]

omit [NeZero w] in
theorem part_self (h : m = n + 1) (k k' : Nat) : part w n m k = part w n m k' := by
  have hz (j : Nat) : part w n m j = 0 := by
    subst h
    rw [part]
    rcases Nat.eq_zero_or_pos (w ^ (n + 1)) with hw | hw
    · rw [hw, Nat.div_zero]
    · exact Nat.div_eq_of_lt (Nat.mod_lt _ hw)
  rw [hz, hz]

end Keys

section Set

variable {a : F → Nat} {b : V → Nat} {n m k k' : Nat} {v old : Option V}

theorem find_set_self {t : Table w F V (n + 1)} (h : (find n t k).isSome) : find n (set n t k v) k = some v := by
  induction n with
  | zero => exact congrArg some (update_self ..)
  | succ n ih =>
      rw [find] at h
      split at h
      next => cases h
      next c hc =>
        rw [set, hc, find]
        simpa [setEntry] using ih h

theorem find_set_of_ne {t : Table w F V (n + 1)} (h : k % w ^ (n + 1) ≠ k' % w ^ (n + 1)) :
    find n (set n t k v) k' = find n t k' := by
  induction n with
  | zero =>
      have hne : index w 0 k' ≠ index w 0 k := fun e => h (mod_succ_eq.mpr ⟨e.symm, by simp [Nat.mod_one]⟩)
      exact congrArg some (update_of_ne hne ..)
  | succ n ih =>
      rw [set]
      split
      next => rfl
      next c hc =>
        by_cases hi : index w (n + 1) k' = index w (n + 1) k
        · have hlow := fun e => h (mod_succ_eq.mpr ⟨hi.symm, e⟩)
          simp only [find, setEntry, hi, update_self, hc]
          exact ih hlow
        · simp only [find, setEntry, update_of_ne hi]

theorem isSome_find_congr {t : Table w F V (n + 1)} (h : k / w = k' / w) :
    (find n t k).isSome = (find n t k').isSome := by
  induction n with
  | zero => rfl
  | succ n ih =>
      have hi : index w (n + 1) k = index w (n + 1) k' := by
        rw [index, index, pow_succ', ← Nat.div_div_eq_div_mul, h, Nat.div_div_eq_div_mul]
      rw [find, find, hi]
      cases t.2 (index w (n + 1) k') with
      | none => rfl
      | some c => exact ih

theorem present_set {t : Table w F V (n + 1)} : present n (set n t k v) m k' = present n t m k' := by
  induction n with
  | zero => rfl
  | succ n ih =>
      rw [set]
      split
      next => rfl
      next c hc =>
        by_cases hi : index w (n + 1) k' = index w (n + 1) k
        · simp only [present, setEntry, hi, update_self, hc, ih]
        · simp only [present, setEntry, update_of_ne hi]

omit [NeZero w] in
theorem entry_setEntry {t : Table w F V (n + 1)} {i j : Fin w} {c : Option (Table w F V n)} (h : j ≠ i) :
    (setEntry t i c).2 j = t.2 j :=
  update_of_ne h ..

omit [NeZero w] in
theorem entry_setEntry_self {t : Table w F V (n + 1)} {i : Fin w} {c : Option (Table w F V n)} :
    (setEntry t i c).2 i = c :=
  update_self ..

theorem entry_set {t : Table w F V (n + 1)} {j : Fin w} (h : j ≠ index w n k) : (set n t k v).2 j = t.2 j := by
  cases n with
  | zero => exact entry_setEntry h
  | succ n =>
      rw [set]
      split
      next => rfl
      next => exact entry_setEntry h

theorem label_set {t : Table w F V (n + 1)} : (set n t k v).1 = t.1 := by
  cases n with
  | zero => rfl
  | succ n =>
      rw [set]
      split <;> rfl

omit [NeZero w] in
theorem weight_setEntry {t : Table w F V (n + 1)} {i : Fin w} {c : Option (Table w F V n)} :
    weight a b (n + 1) (setEntry t i c) + (t.2 i).elim 0 (weight a b n) =
      weight a b (n + 1) t + c.elim 0 (weight a b n) := by
  have h := UpdateSum.sum_update (fun o : Option (Table w F V n) => o.elim 0 (weight a b n)) t.2 i c
  simp only [weight, setEntry]
  omega

theorem weight_set {t : Table w F V (n + 1)} (h : find n t k = some old) :
    weight a b (n + 1) (set n t k v) + old.elim 0 b = weight a b (n + 1) t + v.elim 0 b := by
  induction n with
  | zero =>
      cases h
      exact weight_setEntry
  | succ n ih =>
      rw [find] at h
      split at h
      next => cases h
      next c hc =>
        have hentry := weight_setEntry (a := a) (b := b) (t := t) (i := index w (n + 1) k) (c := some (set n c k v))
        have hbelow := ih h
        rw [hc] at hentry
        rw [set, hc]
        simp only [Option.elim_some] at hentry ⊢
        omega

omit [NeZero w] in
theorem weight_blank {f : F} : weight a b (n + 1) (blank n f : Table w F V (n + 1)) = a f := by
  simp [weight, blank]

end Set

section Grow

variable {a : F → Nat} {b : V → Nat} {n m k k' : Nat} {l : List F}

theorem lacking_blank {f : F} : lacking n (blank n f : Table w F V (n + 1)) k = n := by
  cases n <;> rfl

theorem find_blank {f : F} : (find n (blank n f : Table w F V (n + 1)) k').join = none := by
  cases n <;> rfl

theorem grow_some {t : Table w F V (n + 2)} {c : Table w F V (n + 1)} (hc : t.2 (index w (n + 1) k) = some c) :
    grow (n + 1) t k l = (setEntry t (index w (n + 1) k) (some (grow n c k l).1), (grow n c k l).2) := by
  cases l <;> simp only [grow, hc]

theorem grow_none {t : Table w F V (n + 2)} {f : F} (hc : t.2 (index w (n + 1) k) = none) :
    grow (n + 1) t k (f :: l) = (setEntry t (index w (n + 1) k) (some (grow n (blank n f) k l).1),
      (grow n (blank n f : Table w F V (n + 1)) k l).2) := by
  simp only [grow, hc]

theorem grow_nil {t : Table w F V (n + 2)} (hc : t.2 (index w (n + 1) k) = none) :
    grow (n + 1) t k [] = (t, []) := by
  simp only [grow, hc]

theorem lacking_some {t : Table w F V (n + 2)} {c : Table w F V (n + 1)} (hc : t.2 (index w (n + 1) k) = some c) :
    lacking (n + 1) t k = lacking n c k := by
  simp only [lacking, hc]

theorem lacking_none {t : Table w F V (n + 2)} (hc : t.2 (index w (n + 1) k) = none) :
    lacking (n + 1) t k = n + 1 := by
  simp only [lacking, hc]

theorem grow_spec {t : Table w F V (n + 1)} (h : lacking n t k ≤ l.length) :
    (grow n t k l).2 = l.drop (lacking n t k) ∧ (find n (grow n t k l).1 k).isSome := by
  induction n generalizing l with
  | zero => exact ⟨rfl, rfl⟩
  | succ n ih =>
      cases hc : t.2 (index w (n + 1) k) with
      | some c =>
          rw [lacking_some hc] at h ⊢
          rw [grow_some hc]
          refine ⟨(ih h).1, ?_⟩
          simp only [find, setEntry, update_self]
          exact (ih h).2
      | none =>
          rw [lacking_none hc] at h ⊢
          cases l with
          | nil => cases h
          | cons f l =>
              have hlen : lacking n (blank n f : Table w F V (n + 1)) k ≤ l.length := by
                rw [lacking_blank]
                exact Nat.le_of_succ_le_succ h
              rw [grow_none hc]
              refine ⟨?_, ?_⟩
              · rw [(ih hlen).1, lacking_blank]
                rfl
              · simp only [find, setEntry, update_self]
                exact (ih hlen).2

theorem grow_append {r : List F} {t : Table w F V (n + 1)} (h : lacking n t k ≤ l.length) :
    (grow n t k (l ++ r)).1 = (grow n t k l).1 := by
  induction n generalizing l with
  | zero => rfl
  | succ n ih =>
      cases hc : t.2 (index w (n + 1) k) with
      | some c =>
          rw [lacking_some hc] at h
          rw [grow_some hc, grow_some hc, ih h]
      | none =>
          rw [lacking_none hc] at h
          cases l with
          | nil => cases h
          | cons f l =>
              have hlen : lacking n (blank n f : Table w F V (n + 1)) k ≤ l.length := by
                rw [lacking_blank]
                exact Nat.le_of_succ_le_succ h
              rw [List.cons_append, grow_none hc, grow_none hc, ih hlen]

theorem lacking_of_find {t : Table w F V (n + 1)} (h : (find n t k).isSome) : lacking n t k = 0 := by
  induction n with
  | zero => rfl
  | succ n ih =>
      cases hc : t.2 (index w (n + 1) k) with
      | some c =>
          rw [lacking_some hc]
          apply ih
          simpa only [find, hc] using h
      | none => simp only [find, hc, Option.isSome_none, Bool.false_eq_true] at h

theorem entry_grow {t : Table w F V (n + 1)} {j : Fin w} (h : j ≠ index w n k) : (grow n t k l).1.2 j = t.2 j := by
  cases n with
  | zero => rfl
  | succ n =>
      cases hc : t.2 (index w (n + 1) k) with
      | some c =>
          rw [grow_some hc]
          exact entry_setEntry h
      | none =>
          cases l with
          | nil => rw [grow_nil hc]
          | cons f l =>
              rw [grow_none hc]
              exact entry_setEntry h

theorem label_grow {t : Table w F V (n + 1)} : (grow n t k l).1.1 = t.1 := by
  cases n with
  | zero => rfl
  | succ n =>
      cases hc : t.2 (index w (n + 1) k) with
      | some c => rw [grow_some hc]; rfl
      | none =>
          cases l with
          | nil => rw [grow_nil hc]
          | cons f l => rw [grow_none hc]; rfl

theorem get_grow {t : Table w F V (n + 1)} : (find n (grow n t k l).1 k').join = (find n t k').join := by
  induction n generalizing l with
  | zero => rfl
  | succ n ih =>
      cases hc : t.2 (index w (n + 1) k) with
      | some c =>
          rw [grow_some hc]
          by_cases hi : index w (n + 1) k' = index w (n + 1) k
          · simp only [find, setEntry, hi, update_self, hc, ih]
          · simp only [find, setEntry, update_of_ne hi]
      | none =>
          cases l with
          | nil => rw [grow_nil hc]
          | cons f l =>
              rw [grow_none hc]
              by_cases hi : index w (n + 1) k' = index w (n + 1) k
              · simp only [find, setEntry, hi, update_self, hc, ih, find_blank]
                rfl
              · simp only [find, setEntry, update_of_ne hi]

theorem weight_grow {t : Table w F V (n + 1)} :
    weight a b (n + 1) (grow n t k l).1 + ((grow n t k l).2.map a).sum = weight a b (n + 1) t + (l.map a).sum := by
  induction n generalizing l with
  | zero => rfl
  | succ n ih =>
      cases hc : t.2 (index w (n + 1) k) with
      | some c =>
          have hentry := weight_setEntry (a := a) (b := b) (t := t) (i := index w (n + 1) k)
            (c := some (grow n c k l).1)
          have hbelow := ih (t := c) (l := l)
          rw [hc] at hentry
          rw [grow_some hc]
          simp only [Option.elim_some] at hentry ⊢
          omega
      | none =>
          cases l with
          | nil => rw [grow_nil hc]
          | cons f l =>
              have hentry := weight_setEntry (a := a) (b := b) (t := t) (i := index w (n + 1) k)
                (c := some (grow n (blank n f) k l).1)
              have hbelow := ih (t := blank n f) (l := l)
              rw [hc] at hentry
              rw [weight_blank] at hbelow
              rw [grow_none hc]
              simp only [Option.elim_some, Option.elim_none, List.map_cons, List.sum_cons] at hentry ⊢
              omega

theorem present_some {t : Table w F V (n + 2)} {c : Table w F V (n + 1)} (hc : t.2 (index w (n + 1) k) = some c) :
    present (n + 1) t m k = (decide (m = n + 1) || present n c m k) := by
  simp only [present, hc]

theorem present_none {t : Table w F V (n + 2)} (hc : t.2 (index w (n + 1) k) = none) :
    present (n + 1) t m k = false := by
  simp only [present, hc]

theorem present_blank {f : F} : present n (blank n f : Table w F V (n + 1)) m k = false := by
  cases n <;> rfl

theorem present_congr {t : Table w F V (n + 1)} (hm : m ≤ n) (h : part w n m k = part w n m k') :
    present n t m k = present n t m k' := by
  induction n with
  | zero => rfl
  | succ n ih =>
      obtain ⟨hi, hlow⟩ := (part_succ_eq hm).mp h
      cases hc : t.2 (index w (n + 1) k) with
      | none => rw [present_none hc, present_none (hi ▸ hc)]
      | some c =>
          rw [present_some hc, present_some (hi ▸ hc)]
          by_cases hmn : m = n + 1
          · simp [hmn]
          · rw [ih (by omega) hlow]

theorem present_setEntry {t : Table w F V (n + 2)} {c : Table w F V (n + 1)}
    (hi : index w (n + 1) k' = index w (n + 1) k) :
    present (n + 1) (setEntry t (index w (n + 1) k) (some c)) m k' = (decide (m = n + 1) || present n c m k') :=
  present_some (by rw [hi]; exact update_self ..)

theorem present_grow {t : Table w F V (n + 1)} (h : lacking n t k ≤ l.length) (hm : m ≤ n) (hpos : 0 < m) :
    present n (grow n t k l).1 m k' = true ↔ present n t m k' = true ∨ part w n m k = part w n m k' := by
  induction n generalizing l with
  | zero => omega
  | succ n ih =>
      rw [part_succ_eq hm]
      by_cases hi : index w (n + 1) k' = index w (n + 1) k
      · cases hc : t.2 (index w (n + 1) k) with
        | some c =>
            rw [lacking_some hc] at h
            rw [grow_some hc, present_setEntry hi, present_some (hi ▸ hc)]
            by_cases hmn : m = n + 1
            · simp [hmn]
            · simp only [hmn, decide_false, Bool.false_or, hi, true_and]
              exact ih h (by omega)
        | none =>
            rw [lacking_none hc] at h
            cases l with
            | nil => cases h
            | cons f l =>
                rw [grow_none hc, present_setEntry hi, present_none (hi ▸ hc)]
                by_cases hmn : m = n + 1
                · simp [hmn, hi, part_self (w := w) rfl k k']
                · have hlen : lacking n (blank n f : Table w F V (n + 1)) k ≤ l.length := by
                    rw [lacking_blank]
                    exact Nat.le_of_succ_le_succ h
                  simp only [hmn, decide_false, Bool.false_or, hi, true_and]
                  rw [ih hlen (by omega), present_blank]
      · have hsame : present (n + 1) (grow (n + 1) t k l).1 m k' = present (n + 1) t m k' := by
          have hkeep (c : Option (Table w F V (n + 1))) :
              (setEntry t (index w (n + 1) k) c).2 (index w (n + 1) k') = t.2 (index w (n + 1) k') :=
            update_of_ne hi ..
          cases hc : t.2 (index w (n + 1) k) with
          | some c =>
              rw [grow_some hc]
              simp only [present, hkeep]
          | none =>
              cases l with
              | nil => rw [grow_nil hc]
              | cons f l =>
                  rw [grow_none hc]
                  simp only [present, hkeep]
        rw [hsame]
        exact ⟨.inl, fun h => h.resolve_right fun h => hi h.1.symm⟩

end Grow

section Missing

open Finset

variable {n m k : Nat} {K : Finset Nat} {l : List F}

/-- The tables that the paths of some keys still lack, by level and the part of the keys above it. -/
def missing (n : Nat) (t : Table w F V (n + 1)) (K : Finset Nat) : Finset (Nat × Nat) :=
  ((Icc 1 n ×ˢ K).filter fun x => present n t x.1 x.2 = false).image fun x => (x.1, part w n x.1 x.2)

theorem mem_missing {t : Table w F V (n + 1)} {x : Nat × Nat} :
    x ∈ missing n t K ↔
      (1 ≤ x.1 ∧ x.1 ≤ n) ∧ ∃ k ∈ K, present n t x.1 k = false ∧ part w n x.1 k = x.2 := by
  simp only [missing, mem_image, mem_filter, mem_product, mem_Icc]
  constructor
  · rintro ⟨⟨m, k⟩, ⟨⟨hm, hk⟩, hp⟩, rfl⟩
    exact ⟨hm, k, hk, hp, rfl⟩
  · rintro ⟨hm, k, hk, hp, hx⟩
    exact ⟨(x.1, k), ⟨⟨hm, hk⟩, hp⟩, Prod.ext rfl hx⟩

theorem lacking_eq_card {t : Table w F V (n + 1)} :
    lacking n t k = ((Icc 1 n).filter fun m => present n t m k = false).card := by
  induction n with
  | zero => rfl
  | succ n ih =>
      cases hc : t.2 (index w (n + 1) k) with
      | none => simp [lacking_none hc, present_none hc]
      | some c =>
          rw [lacking_some hc, ih]
          congr 1
          ext m
          simp only [mem_filter, mem_Icc, present_some hc, Bool.or_eq_false_iff, decide_eq_false_iff_not]
          exact ⟨fun h => ⟨⟨h.1.1, by omega⟩, by omega, h.2⟩, fun h => ⟨⟨h.1.1, by omega⟩, h.2.2⟩⟩

theorem card_missing_singleton {t : Table w F V (n + 1)} : (missing n t {k}).card = lacking n t k := by
  rw [lacking_eq_card]
  refine (card_bij (fun m _ => (m, part w n m k)) (fun m hm => ?_) (fun m _ m' _ h => congrArg Prod.fst h)
    fun x hx => ?_).symm
  · rw [mem_filter, mem_Icc] at hm
    exact mem_missing.mpr ⟨hm.1, k, mem_singleton_self k, hm.2, rfl⟩
  · obtain ⟨hm, j, hj, hp, hpart⟩ := mem_missing.mp hx
    rw [mem_singleton] at hj
    subst hj
    exact ⟨x.1, mem_filter.mpr ⟨mem_Icc.mpr hm, hp⟩, Prod.ext rfl hpart⟩

theorem card_missing_insert {t : Table w F V (n + 1)} (h : lacking n t k ≤ l.length) :
    (missing n t (insert k K)).card = lacking n t k + (missing n (grow n t k l).1 K).card := by
  have hgrown {m j : Nat} (hm : 1 ≤ m ∧ m ≤ n) : present n (grow n t k l).1 m j = false ↔
      present n t m j = false ∧ part w n m k ≠ part w n m j := by
    rw [← Bool.not_eq_true, present_grow h hm.2 hm.1, not_or, Bool.not_eq_true]
  have hdisj : Disjoint (missing n t {k}) (missing n (grow n t k l).1 K) := by
    refine disjoint_left.mpr fun x hx hx' => ?_
    obtain ⟨hm, j, hj, -, hpart⟩ := mem_missing.mp hx
    obtain ⟨-, j', -, hp, hpart'⟩ := mem_missing.mp hx'
    rw [mem_singleton] at hj
    subst hj
    exact ((hgrown hm).mp hp).2 (hpart.trans hpart'.symm)
  have hunion : missing n t (insert k K) = missing n t {k} ∪ missing n (grow n t k l).1 K := by
    ext x
    rw [mem_union, mem_missing, mem_missing, mem_missing, ← and_or_left]
    refine and_congr_right fun hm => ⟨?_, ?_⟩
    · rintro ⟨j, hj, hp, hx⟩
      by_cases hpart : part w n x.1 k = part w n x.1 j
      · exact .inl ⟨k, mem_singleton_self k, (present_congr hm.2 hpart).trans hp, hpart.trans hx⟩
      · refine .inr ⟨j, (mem_insert.mp hj).resolve_left fun e => hpart (e ▸ rfl), (hgrown hm).mpr ⟨hp, hpart⟩, hx⟩
    · rintro (⟨j, hj, hp, hx⟩ | ⟨j, hj, hp, hx⟩)
      · exact ⟨j, mem_insert.mpr (.inl (mem_singleton.mp hj)), hp, hx⟩
      · exact ⟨j, mem_insert_of_mem hj, ((hgrown hm).mp hp).1, hx⟩
  rw [hunion, card_union_of_disjoint hdisj, card_missing_singleton]

end Missing

end Xv6.Lib.Radix
