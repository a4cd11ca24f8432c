import Mathlib

namespace Xv6.Lib.RefCount

variable {ι : Type} [DecidableEq ι] {c c' b b' : ι → Nat} {l l' : List ι} {i : ι}

/-- The counters `c` are exact: each is the number of references recorded in `b` plus the number
of references that are held in `l`. -/
def Exact (c b : ι → Nat) (l : List ι) : Prop := ∀ i, c i = b i + l.count i

theorem Exact.take (h : Exact c b l) (i : ι) : Exact (Function.update c i (c i + 1)) b (i :: l) := by
  intro j
  have := h j
  by_cases hj : j = i
  · subst hj
    rw [Function.update_self, List.count_cons_self]
    omega
  · rw [Function.update_of_ne hj, List.count_cons_of_ne (Ne.symm hj)]
    exact this

theorem Exact.drop (h : Exact c b (i :: l)) : Exact (Function.update c i (c i - 1)) b l := by
  intro j
  have := h j
  by_cases hj : j = i
  · subst hj
    rw [List.count_cons_self] at this
    rw [Function.update_self]
    omega
  · rw [List.count_cons_of_ne (Ne.symm hj)] at this
    rw [Function.update_of_ne hj]
    exact this

theorem Exact.pos (h : Exact c b l) (hi : i ∈ l) : 0 < c i := by
  have := h i
  have := List.count_pos_iff.mpr hi
  omega

theorem Exact.congr (h : Exact c b l) (hc : ∀ i, c' i = c i) : Exact c' b l := fun i => (hc i).trans (h i)

theorem Exact.move (h : Exact c b l) (hb : ∀ i, b' i + l'.count i = b i + l.count i) : Exact c b' l' := fun i =>
  (h i).trans (hb i).symm

theorem Exact.perm (h : Exact c b l) (hl : l.Perm l') : Exact c b l' := h.move fun i => by rw [hl.count_eq]

end Xv6.Lib.RefCount
