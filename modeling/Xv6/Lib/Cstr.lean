import Mathlib

namespace Xv6.Lib.Cstr

variable {n : Nat} {p q : List UInt8}

def strncmp : Nat → List UInt8 → List UInt8 → Int
  | 0, _, _ => 0
  | n + 1, p, q =>
      if p.headD 0 ≠ 0 ∧ p.headD 0 = q.headD 0 then strncmp n p.tail q.tail
      else (p.headD 0).toNat - (q.headD 0).toNat

def strncpy : Nat → List UInt8 → List UInt8
  | 0, _ => []
  | n + 1, p => if p.headD 0 = 0 then List.replicate (n + 1) 0 else p.headD 0 :: strncpy n p.tail

def text (n : Nat) (p : List UInt8) : List UInt8 := (p.take n).takeWhile (· ≠ 0)

theorem text_succ : text (n + 1) p = if p.headD 0 = 0 then [] else p.headD 0 :: text n p.tail := by
  cases p with
  | nil => rfl
  | cons a p =>
      by_cases h : a = 0
      · simp [text, h]
      · simp [text, h]

theorem strncmp_eq_zero_iff : strncmp n p q = 0 ↔ text n p = text n q := by
  induction n generalizing p q with
  | zero => simp [strncmp, text]
  | succ n ih =>
      rw [strncmp, text_succ, text_succ]
      by_cases hp : p.headD 0 = 0
      · rw [if_neg (fun h => h.1 hp), if_pos hp, hp, UInt8.toNat_zero]
        by_cases hq : q.headD 0 = 0
        · rw [hq, if_pos rfl]
          simp
        · have : (q.headD 0).toNat ≠ 0 := by rwa [Ne, ← UInt8.toNat_zero, UInt8.toNat_inj]
          rw [if_neg hq]
          simp only [List.nil_eq, reduceCtorEq, iff_false]
          omega
      · by_cases hpq : p.headD 0 = q.headD 0
        · rw [if_pos ⟨hp, hpq⟩, if_neg hp, ← hpq, if_neg hp, ih, List.cons.injEq, eq_self, true_and]
        · have hne : (p.headD 0).toNat ≠ (q.headD 0).toNat := by rwa [Ne, UInt8.toNat_inj]
          rw [if_neg (fun h => hpq h.2), if_neg hp]
          refine iff_of_false (by omega) ?_
          split
          · exact List.cons_ne_nil _ _
          · exact fun h => hpq (List.cons.inj h).1

@[simp] theorem length_strncpy (n : Nat) (p : List UInt8) : (strncpy n p).length = n := by
  induction n generalizing p with
  | zero => rfl
  | succ n ih =>
      rw [strncpy]
      split
      · simp
      · simp [ih]

theorem text_strncpy (n : Nat) (p : List UInt8) : text n (strncpy n p) = text n p := by
  induction n generalizing p with
  | zero => simp [text]
  | succ n ih =>
      rw [strncpy, text_succ, text_succ]
      by_cases h : p.headD 0 = 0
      · rw [if_pos h, if_pos h, if_pos (by simp [List.replicate_succ])]
      · rw [if_neg h, if_neg h, List.headD_cons, List.tail_cons, if_neg h, ih]

end Xv6.Lib.Cstr
