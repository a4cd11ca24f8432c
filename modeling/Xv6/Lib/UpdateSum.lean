import Mathlib

namespace Xv6.Lib.UpdateSum

open Finset

variable {ι α : Type} [Fintype ι] [DecidableEq ι]

theorem sum_update (w : α → Nat) (f : ι → α) (i : ι) (a : α) :
    (∑ j, w (Function.update f i a j)) + w (f i) = (∑ j, w (f j)) + w a := by
  have hupd : (fun j => w (Function.update f i a j)) = Function.update (fun j => w (f j)) i (w a) := by
    funext j
    by_cases hj : j = i
    · subst hj; simp
    · simp [hj]
  have hsplit := Finset.sum_erase_add univ (fun j => w (f j)) (mem_univ i)
  rw [hupd, Finset.sum_update_of_mem (mem_univ i), sdiff_singleton_eq_erase, ← hsplit]
  omega

theorem card_update (P : α → Prop) [DecidablePred P] (f : ι → α) (i : ι) (a : α) :
    #{j | P (Function.update f i a j)} + (if P (f i) then 1 else 0) = #{j | P (f j)} + (if P a then 1 else 0) := by
  simp only [card_filter]
  exact sum_update (fun a => if P a then 1 else 0) f i a

omit [DecidableEq ι] in
theorem le_sum (w : α → Nat) (f : ι → α) (i : ι) : w (f i) ≤ ∑ j, w (f j) :=
  Finset.single_le_sum (f := fun j => w (f j)) (fun _ _ => Nat.zero_le _) (mem_univ i)

theorem add_le_sum (w : α → Nat) (f : ι → α) {i j : ι} (hij : i ≠ j) :
    w (f i) + w (f j) ≤ ∑ k, w (f k) := by
  have hj : j ∈ univ.erase i := mem_erase.mpr ⟨hij.symm, mem_univ j⟩
  have hle := Finset.single_le_sum (f := fun k => w (f k)) (fun _ _ => Nat.zero_le _) hj
  have hsplit := Finset.sum_erase_add univ (fun k => w (f k)) (mem_univ i)
  omega

end Xv6.Lib.UpdateSum
