import Mathlib

namespace Xv6.Lib.Ownership

open Function (update update_of_ne update_self)

variable {K : Type} {lo hi : Nat} {used used' : Nat → Bool} {P P' : K → Nat} {X : Set Nat} {b : Nat}

/-- The blocks from `lo` on that are marked as used are those that some pointer of the table `P`
names, each named once, and the loose blocks `X`, which no pointer names. A pointer 0 names
nothing; the blocks below `lo` are always in use. -/
structure Owned (lo hi : Nat) (used : Nat → Bool) (P : K → Nat) (X : Set Nat) : Prop where
  pos : 0 < lo
  range : ∀ k, P k ≠ 0 → lo ≤ P k ∧ P k < hi
  inj : ∀ k k', P k ≠ 0 → P k = P k' → k = k'
  loose : ∀ b ∈ X, lo ≤ b ∧ b < hi ∧ ∀ k, P k ≠ b
  used_iff : ∀ b < hi, used b = true ↔ b < lo ∨ b ∈ X ∨ ∃ k, P k = b

theorem Owned.of_used (h : Owned lo hi used P X) (hu : ∀ b < hi, used' b = used b) : Owned lo hi used' P X :=
  ⟨h.pos, h.range, h.inj, h.loose, fun b hb => (hu b hb) ▸ h.used_iff b hb⟩

theorem Owned.used_of_ne (h : Owned lo hi used P X) {k : K} (hk : P k ≠ 0) : used (P k) = true :=
  (h.used_iff _ (h.range k hk).2).mpr (.inr (.inr ⟨k, rfl⟩))

theorem Owned.take (h : Owned lo hi used P X) (hb : b < hi) (hfree : used b = false)
    (hu : ∀ c < hi, used' c = (decide (b = c) || used c)) : Owned lo hi used' P (insert b X) := by
  have hnot : ¬ (b < lo ∨ b ∈ X ∨ ∃ k, P k = b) := fun hc => by
    rw [← h.used_iff b hb, hfree] at hc
    cases hc
  simp only [not_or, not_exists] at hnot
  refine ⟨h.pos, h.range, h.inj, ?_, fun c hc => ?_⟩
  · rintro c (rfl | hc)
    · exact ⟨by omega, hb, hnot.2.2⟩
    · exact h.loose c hc
  · rw [hu c hc, Bool.or_eq_true, decide_eq_true_iff, h.used_iff c hc, Set.mem_insert_iff]
    constructor
    · rintro (rfl | h1 | h2 | h3)
      · exact .inr (.inl (.inl rfl))
      · exact .inl h1
      · exact .inr (.inl (.inr h2))
      · exact .inr (.inr h3)
    · rintro (h1 | (rfl | h2) | h3)
      · exact .inr (.inl h1)
      · exact .inl rfl
      · exact .inr (.inr (.inl h2))
      · exact .inr (.inr (.inr h3))

theorem Owned.drop (h : Owned lo hi used P X) (hb : b ∈ X)
    (hu : ∀ c < hi, used' c = (!decide (b = c) && used c)) : Owned lo hi used' P (X \ {b}) := by
  obtain ⟨hlo, hhi, hP⟩ := h.loose b hb
  refine ⟨h.pos, h.range, h.inj, fun c hc => h.loose c hc.1, fun c hc => ?_⟩
  rw [hu c hc, Bool.and_eq_true, h.used_iff c hc, Set.mem_sdiff, Set.mem_singleton_iff]
  simp only [Bool.not_eq_true', decide_eq_false_iff_not]
  constructor
  · rintro ⟨hne, h1 | h2 | h3⟩
    · exact .inl h1
    · exact .inr (.inl ⟨h2, Ne.symm hne⟩)
    · exact .inr (.inr h3)
  · rintro (h1 | ⟨h2, hne⟩ | ⟨k, hk⟩)
    · exact ⟨by omega, .inl h1⟩
    · exact ⟨Ne.symm hne, .inr (.inl h2)⟩
    · exact ⟨fun e => hP k (hk.trans e.symm), .inr (.inr ⟨k, hk⟩)⟩

theorem Owned.attach [DecidableEq K] (h : Owned lo hi used P (insert b X)) (hb : b ∉ X) {k : K} (hk : P k = 0) :
    Owned lo hi used (update P k b) X := by
  obtain ⟨hlo, hhi, hP⟩ := h.loose b (Set.mem_insert b X)
  have hpos := h.pos
  refine ⟨h.pos, fun j hj => ?_, fun j j' hj hjj => ?_, fun c hc => ?_, fun c hc => ?_⟩
  · by_cases hjk : j = k
    · subst hjk
      rw [update_self]
      exact ⟨hlo, hhi⟩
    · rw [update_of_ne hjk] at hj ⊢
      exact h.range j hj
  · by_cases hjk : j = k <;> by_cases hjk' : j' = k
    · rw [hjk, hjk']
    · rw [hjk, update_self, update_of_ne hjk'] at hjj
      exact absurd hjj.symm (hP j')
    · rw [hjk', update_self, update_of_ne hjk] at hjj
      exact absurd hjj (hP j)
    · rw [update_of_ne hjk] at hj hjj
      rw [update_of_ne hjk'] at hjj
      exact h.inj j j' hj hjj
  · obtain ⟨h1, h2, h3⟩ := h.loose c (Set.mem_insert_of_mem b hc)
    refine ⟨h1, h2, fun j => ?_⟩
    by_cases hjk : j = k
    · subst hjk
      rw [update_self]
      rintro rfl
      exact hb hc
    · rw [update_of_ne hjk]
      exact h3 j
  · rw [h.used_iff c hc, Set.mem_insert_iff]
    constructor
    · rintro (h1 | (rfl | h2) | ⟨j, hj⟩)
      · exact .inl h1
      · exact .inr (.inr ⟨k, update_self k c P⟩)
      · exact .inr (.inl h2)
      · by_cases hjk : j = k
        · subst hjk
          exact .inl (by omega)
        · exact .inr (.inr ⟨j, by rw [update_of_ne hjk, hj]⟩)
    · rintro (h1 | h2 | ⟨j, hj⟩)
      · exact .inl h1
      · exact .inr (.inl (.inr h2))
      · by_cases hjk : j = k
        · subst hjk
          rw [update_self] at hj
          exact .inr (.inl (.inl hj.symm))
        · rw [update_of_ne hjk] at hj
          exact .inr (.inr ⟨j, hj⟩)

theorem Owned.detach (h : Owned lo hi used P X) (S : K → Prop)
    (hP' : ∀ k, (S k → P' k = 0) ∧ (¬ S k → P' k = P k)) :
    Owned lo hi used P' (X ∪ {b | b ≠ 0 ∧ ∃ k, S k ∧ P k = b}) := by
  have hpos := h.pos
  have hne (k) (hk : P' k ≠ 0) : ¬ S k ∧ P' k = P k := by
    have hS : ¬ S k := fun hS => hk ((hP' k).1 hS)
    exact ⟨hS, (hP' k).2 hS⟩
  refine ⟨h.pos, fun k hk => ?_, fun k k' hk hkk => ?_, fun c hc => ?_, fun c hc => ?_⟩
  · obtain ⟨-, e⟩ := hne k hk
    rw [e] at hk ⊢
    exact h.range k hk
  · obtain ⟨-, e⟩ := hne k hk
    obtain ⟨-, e'⟩ := hne k' (hkk ▸ hk)
    rw [e] at hk hkk
    rw [e'] at hkk
    exact h.inj k k' hk hkk
  · rcases hc with hc | ⟨hc0, k, hS, rfl⟩
    · obtain ⟨h1, h2, h3⟩ := h.loose c hc
      refine ⟨h1, h2, fun k => ?_⟩
      by_cases hk : P' k = 0
      · rw [hk]; omega
      · rw [(hne k hk).2]; exact h3 k
    · obtain ⟨h1, h2⟩ := h.range k hc0
      refine ⟨h1, h2, fun k' hk' => ?_⟩
      have hk0 : P' k' ≠ 0 := by rw [hk']; exact hc0
      obtain ⟨hS', e'⟩ := hne k' hk0
      rw [e'] at hk'
      exact hS' (h.inj k k' hc0 hk'.symm ▸ hS)
  · rw [h.used_iff c hc]
    constructor
    · rintro (h1 | h2 | ⟨k, hk⟩)
      · exact .inl h1
      · exact .inr (.inl (.inl h2))
      · by_cases hc0 : c = 0
        · exact .inl (by omega)
        · by_cases hS : S k
          · exact .inr (.inl (.inr ⟨hc0, k, hS, hk⟩))
          · exact .inr (.inr ⟨k, ((hP' k).2 hS).trans hk⟩)
    · rintro (h1 | (h2 | ⟨-, k, -, hk⟩) | ⟨k, hk⟩)
      · exact .inl h1
      · exact .inr (.inl h2)
      · exact .inr (.inr ⟨k, hk⟩)
      · by_cases hk0 : P' k = 0
        · exact .inl (by omega)
        · exact .inr (.inr ⟨k, (hne k hk0).2 ▸ hk⟩)

end Xv6.Lib.Ownership
