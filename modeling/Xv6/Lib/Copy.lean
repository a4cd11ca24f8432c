import Mathlib

namespace Xv6.Lib.Copy

variable {A V : Type} [DecidableEq A] {l : List (A × A)} {m : A → V}

def copies : List (A × A) → (A → V) → A → V
  | [], m => m
  | p :: l, m => copies l (Function.update m p.1 (m p.2))

theorem copies_append (l l' : List (A × A)) (m : A → V) : copies (l ++ l') m = copies l' (copies l m) := by
  induction l generalizing m with
  | nil => rfl
  | cons p l ih => exact ih _

theorem copies_of_notMem {a : A} (h : a ∉ l.map Prod.fst) : copies l m a = m a := by
  induction l generalizing m with
  | nil => rfl
  | cons p l ih =>
      rw [List.map_cons, List.mem_cons, not_or] at h
      rw [copies, ih h.2, Function.update_of_ne h.1]

def Apart (l : List (A × A)) : Prop := l.Pairwise fun p q => p.1 ≠ q.1 ∧ p.1 ≠ q.2

theorem copies_of_mem (h : Apart l) {p : A × A} (hp : p ∈ l) : copies l m p.1 = m p.2 := by
  induction l generalizing m with
  | nil => exact absurd hp List.not_mem_nil
  | cons q l ih =>
      obtain ⟨hq, hl⟩ := List.pairwise_cons.mp h
      rcases List.mem_cons.mp hp with rfl | hmem
      · have hlater : p.1 ∉ l.map Prod.fst := by
          intro hin
          obtain ⟨r, hr, heq⟩ := List.mem_map.mp hin
          exact (hq r hr).1 heq.symm
        rw [copies, copies_of_notMem hlater, Function.update_self]
      · rw [copies, ih hl hmem, Function.update_of_ne (hq p hmem).2.symm]

end Xv6.Lib.Copy
