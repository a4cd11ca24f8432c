import Xv6.Vm.Accounting

namespace Xv6.Vm

open Lib Lib.Radix Lib.Exec Finset

variable {kend : Nat} {l l₀ : List Nat} {t : Pgdir}

section Demand

variable {lo a b : Nat} {u : Nat → Bool}

theorem demand_add (h : demand t lo a ≤ l.length) :
    demand t lo (a + b) = demand t lo a + demand (extend u a t lo l).1 (lo + a) b := by
  induction a generalizing t lo l with
  | zero => simp [demand_zero, extend]
  | succ a ih =>
      have hle := le_demand t lo a
      cases l with
      | nil =>
          rw [List.length_nil] at h
          omega
      | cons f l =>
          rw [List.length_cons] at h
          have hlack : lacking 3 t lo ≤ l.length := by omega
          have hlen := length_grow hlack
          have hone := demand_succ a ⟨f, u lo⟩ hlack
          have hall := demand_succ (a + b) ⟨f, u lo⟩ hlack
          have hrest := @ih (grow 3 t lo l).2 (install t lo l ⟨f, u lo⟩) (lo + 1) (by omega)
          rw [extend, show a + 1 + b = a + b + 1 by omega, show lo + (a + 1) = lo + 1 + a by omega]
          omega

theorem demand_blank (f g : Nat) : demand (blank 3 f) lo a = demand (blank 3 g) lo a := by
  simp only [demand, missing, present_blank]

def imagePages (k : Nat) : Nat := 1 + demand (blank 3 0) 1 (k - 1)

end Demand

/-- An image that is being built with pages from the list `l₀`, of which `l` is left. -/
structure NewImage (kend : Nat) (l₀ : List Nat) (sz : UInt64) (t : Pgdir) (l : List Nat) : Prop where
  frames : Frames kend l t
  low : LowOnly t
  pos : 1 ≤ pages sz
  user : ∀ k, 1 ≤ k → k < pages sz → ∃ f, mapped t k = some ⟨f, true⟩
  unmapped : ∀ k, k < 2 ^ 35 → k = 0 ∨ pages sz ≤ k → mapped t k = none
  bare : pages sz ≤ 1 → find 3 t 0 = none
  used : ∀ cnt, l.length + imagePages (pages sz + cnt) = l₀.length + demand t (pages sz) cnt
  count : ∀ g, pageCount g t + l.count g = l₀.count g

variable {sz newsz : UInt64}

theorem newImage_blank {f : Nat} (hd : (f :: l).Nodup) (hpool : ∀ g ∈ f :: l, kend ≤ g ∧ g < npages) :
    NewImage kend (f :: l) 4096 (blank 3 f) l where
  frames := frames_blank hd hpool
  low := lowOnly_blank f
  pos := by decide
  user k hk hk' := by
    have : pages 4096 = 1 := by decide
    omega
  unmapped k _ _ := mapped_blank f k
  bare _ := rfl
  used cnt := by
    have : pages 4096 = 1 := by decide
    rw [this, imagePages, demand_blank 0 f, List.length_cons, Nat.add_sub_cancel_left]
    omega
  count g := by
    rw [pageCount_blank, List.count_cons]
    simp only [beq_iff_eq]
    omega

theorem NewImage.synced (h : NewImage kend l₀ sz t l) : Synced ⟨sz, t⟩ := by
  intro k hk
  constructor
  · intro hm
    by_contra hno
    rw [h.unmapped k hk (by show _ ∨ pages sz ≤ k; simp only at hno; omega)] at hm
    cases hm
  · rintro ⟨h1, h2⟩
    obtain ⟨f, hf⟩ := h.user k h1 h2
    rw [hf]
    rfl

theorem NewImage.room (h : NewImage kend l₀ sz t l) : l.length + imagePages (pages sz) = l₀.length := by
  have := h.used 0
  rwa [demand_zero, Nat.add_zero, Nat.add_zero] at this

theorem NewImage.grown (h : NewImage kend l₀ sz t l) (hle : sz ≤ newsz) (hd : growDemand t sz newsz ≤ l.length) :
    NewImage kend l₀ newsz (grown t sz newsz l).1 (grown t sz newsz l).2 := by
  obtain ⟨hext, hroom⟩ := grown_spec h.frames h.synced hle hd
  have hmono := pages_mono hle
  have hpos := h.pos
  refine ⟨h.frames.of_count hext.count, h.low.of_sameTop hext.top, by omega, fun k hk hk' => ?_, fun k hk hk' => ?_,
    fun hone => ?_, fun cnt => ?_, fun g => (hext.count g).trans (h.count g)⟩
  · by_cases hlo : k < pages sz
    · rw [hext.outside k (by omega) (.inl hlo)]
      exact h.user k hk hlo
    · exact hext.inside k (by omega) (by omega)
  · rw [hext.outside k (by omega) (by omega)]
    exact h.unmapped k hk (by omega)
  · rw [Vm.grown, show pages newsz - pages sz = 0 by omega]
    exact h.bare (by omega)
  · have hadd := demand_add (b := cnt) (u := fun _ => true) (show demand t (pages sz) (pages newsz - pages sz) ≤
      l.length from hd)
    have hused := h.used (pages newsz - pages sz + cnt)
    have hlen := hext.length
    rw [show pages sz + (pages newsz - pages sz + cnt) = pages newsz + cnt by omega] at hused
    rw [show pages sz + (pages newsz - pages sz) = pages newsz by omega] at hadd
    change _ = _ + demand (extend _ _ _ _ _).1 _ _
    omega

theorem NewImage.allocuvm (h : NewImage kend l₀ sz t l) (hbase : newsz < kernbase) (hle : sz ≤ newsz) :
    if imagePages (pages newsz) ≤ l₀.length then
      ∃ t' l', allocuvm kend t sz newsz ⟨l⟩ = .ok ((t', newsz), ⟨l'⟩) ∧ NewImage kend l₀ newsz t' l'
    else allocuvm kend t sz newsz ⟨l⟩ = .error (.panic .outOfMemory) := by
  have hmono := pages_mono hle
  have hused := h.used (pages newsz - pages sz)
  rw [show pages sz + (pages newsz - pages sz) = pages newsz by omega] at hused
  have heq := allocuvm_eq h.frames h.synced hbase hle
  by_cases hd : growDemand t sz newsz ≤ l.length
  · have hd' : demand t (pages sz) (pages newsz - pages sz) ≤ l.length := hd
    rw [if_pos hd] at heq
    rw [if_pos (by omega)]
    exact ⟨_, _, heq, h.grown hle hd⟩
  · have hd' : ¬ demand t (pages sz) (pages newsz - pages sz) ≤ l.length := hd
    rw [if_neg hd] at heq
    rw [if_neg (by omega)]
    exact heq

section Free

theorem forM_total {α : Type} {g : α → VmM Unit} (is : List α) (hg : ∀ i ∈ is, ∀ l, ∃ m, g i ⟨l⟩ = .ok ((), m)) :
    ∃ m, is.forM g ⟨l⟩ = .ok ((), m) := by
  induction is generalizing l with
  | nil => exact ⟨_, rfl⟩
  | cons i is ih =>
      obtain ⟨⟨l'⟩, hi⟩ := hg i List.mem_cons_self l
      obtain ⟨m, hm⟩ := ih (l := l') fun j hj => hg j (List.mem_cons_of_mem _ hj)
      exact ⟨m, bind_eq_ok.mpr ⟨(), _, hi, hm⟩⟩

abbrev occurs (f n : Nat) (t : Table 512 Nat Pte n) : Nat :=
  weight (fun g => if g = f then 1 else 0) (fun p : Pte => if p.page = f then 1 else 0) n t

theorem occurs_le {f n : Nat} {t : Table 512 Nat Pte (n + 1)} {i : Fin 512} {c : Table 512 Nat Pte n}
    (hc : t.2 i = some c) :
    occurs f n c ≤ occurs f (n + 1) t := by
  have := UpdateSum.le_sum (fun o : Option (Table 512 Nat Pte n) => o.elim 0 (occurs f n)) t.2 i
  rw [hc] at this
  exact this.trans (Nat.le_add_left ..)

theorem freeTable_total {n : Nat} {t : Table 512 Nat Pte n} (h : ∀ f, 0 < occurs f n t → kend ≤ f ∧ f < npages) :
    ∃ m, freeTable kend n t ⟨l⟩ = .ok ((), m) := by
  induction n generalizing l with
  | zero => exact ⟨_, kfree_eq (h _ (by simp [weight]))⟩
  | succ n ih =>
      have hloop := forM_total (l := l) (List.finRange 512)
        (g := fun i => (t.2 i).elim (pure ()) (freeTable kend n)) fun i _ l => by
          cases hc : t.2 i with
          | none => exact ⟨_, rfl⟩
          | some c => exact ih fun f hf => h f (lt_of_lt_of_le hf (occurs_le hc))
      obtain ⟨⟨l'⟩, hl'⟩ := hloop
      exact ⟨_, bind_eq_ok.mpr ⟨(), _, hl', kfree_eq (h _ (by simp [weight]))⟩⟩

theorem freevm_total (h : ∀ f, 0 < pageCount f t → kend ≤ f ∧ f < npages) :
    ∃ m, freevm kend (some t) ⟨l⟩ = .ok ((), m) := by
  have hloop := forM_total (l := l) ((List.finRange 512).take 256)
    (g := fun i => (t.2 i).elim (pure ()) (freeTable kend 3)) fun i _ l => by
      cases hc : t.2 i with
      | none => exact ⟨_, rfl⟩
      | some c => exact freeTable_total fun f hf => h f (lt_of_lt_of_le hf (occurs_le hc))
  obtain ⟨⟨l'⟩, hl'⟩ := hloop
  exact ⟨_, bind_eq_ok.mpr ⟨(), _, hl', kfree_eq (h _ (by simp [pageCount, weight]))⟩⟩

end Free

end Xv6.Vm
