import Mathlib

namespace Xv6.Lib.BlockWrites

variable {B : Type}

def applyWrites : List (Nat × B) → (Nat → B) → Nat → B
  | [], d => d
  | (x, v) :: ws, d => applyWrites ws (Function.update d x v)

theorem applyWrites_append (ws vs : List (Nat × B)) (d : Nat → B) :
    applyWrites (ws ++ vs) d = applyWrites vs (applyWrites ws d) := by
  induction ws generalizing d with
  | nil => rfl
  | cons w ws ih => exact ih _

theorem applyWrites_of_notMem (ws : List (Nat × B)) (d : Nat → B) (x : Nat)
    (h : ∀ w ∈ ws, w.1 ≠ x) : applyWrites ws d x = d x := by
  induction ws generalizing d with
  | nil => rfl
  | cons w ws ih =>
      rw [applyWrites, ih _ (fun v hv => h v (by simp [hv]))]
      exact Function.update_of_ne (h w (by simp)).symm _ _

theorem applyWrites_congr (ws : List (Nat × B)) (c d : Nat → B) (x : Nat)
    (h : (∃ w ∈ ws, w.1 = x) ∨ c x = d x) : applyWrites ws c x = applyWrites ws d x := by
  induction ws generalizing c d with
  | nil => simpa [applyWrites] using h
  | cons w ws ih =>
      apply ih
      by_cases hw : x = w.1
      · right; simp [hw]
      · rcases h with ⟨v, hv, hx⟩ | h
        · rcases List.mem_cons.mp hv with rfl | hv
          · exact absurd hx.symm hw
          · exact Or.inl ⟨v, hv, hx⟩
        · right; simp [Function.update_of_ne hw, h]

theorem applyWrites_take_redo (ws : List (Nat × B)) (m : Nat) (d : Nat → B) (x : Nat) :
    applyWrites ws (applyWrites (ws.take m) d) x = applyWrites ws d x := by
  apply applyWrites_congr
  by_cases h : ∃ w ∈ ws, w.1 = x
  · exact Or.inl h
  · right
    apply applyWrites_of_notMem
    intro w hw hx
    exact h ⟨w, List.mem_of_mem_take hw, hx⟩

theorem applyWrites_of_mem (ws : List (Nat × B)) (d : Nat → B) {x : Nat} {v : B}
    (hn : (ws.map Prod.fst).Nodup) (h : (x, v) ∈ ws) : applyWrites ws d x = v := by
  induction ws generalizing d with
  | nil => simp at h
  | cons w ws ih =>
      rw [List.map_cons, List.nodup_cons] at hn
      rcases List.mem_cons.mp h with rfl | h
      · rw [applyWrites, applyWrites_of_notMem]
        · simp
        · intro u hu hux
          exact hn.1 (List.mem_map.mpr ⟨u, hu, hux⟩)
      · exact ih _ hn.2 h

theorem applyWrites_map_filter {α : Type} (f : α → Nat × B) (keep : α → Bool) (ws : List α) (d : Nat → B)
    (x : Nat) (h : ∀ w ∈ ws, (f w).1 = x → keep w = true) :
    applyWrites ((ws.filter keep).map f) d x = applyWrites (ws.map f) d x := by
  induction ws generalizing d with
  | nil => rfl
  | cons w ws ih =>
      have htail := fun v hv => h v (List.mem_cons_of_mem w hv)
      by_cases hk : keep w = true
      · rw [List.filter_cons_of_pos hk]
        exact ih _ htail
      · have hne : x ≠ (f w).1 := fun hx => hk (h w (by simp) hx.symm)
        rw [List.filter_cons_of_neg hk, ih _ htail]
        apply applyWrites_congr
        right
        exact (Function.update_of_ne hne _ _).symm

end Xv6.Lib.BlockWrites
