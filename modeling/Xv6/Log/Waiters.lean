import Xv6.Log.Occupancy

namespace Xv6.Log

open Lib.Runs

variable {P : Type} [DecidableEq P] [Fintype P] {g : Region} {s t : State P} {a : Act P}

/-- Whoever sleeps on `&log` waits for a commit or for an operation to end, and the log is empty between
transactions. -/
structure Waiters (s : State P) : Prop where
  awaited : ∀ p, s.pc p = .sleeping → s.committing = true ∨ 0 < s.outstanding
  empty : s.committing = false → s.outstanding = 0 → s.lh = []
  released : ∀ p, s.pc p = .committing .release → s.lh = []
  panic : s.panic ≠ some .committing

omit [Fintype P] in
theorem goto_eq {p q : P} {pc pc' : Pc} (h : (s.goto p pc).pc q = pc') : pc = pc' ∨ s.pc q = pc' := by
  by_cases hq : q = p
  · subst hq
    exact .inl (by simpa [State.goto] using h)
  · exact .inr (by simpa [State.goto, hq] using h)

omit [Fintype P] in
theorem Waiters.goto (h : Waiters s) (p : P) (pc : Pc) (hs : pc ≠ .sleeping) (hr : pc ≠ .committing .release)
    (ht : t.pc = (s.goto p pc).pc) (ho : t.outstanding = s.outstanding) (hc : t.committing = s.committing)
    (hl : t.lh = s.lh) (hp : t.panic = s.panic) : Waiters t where
  awaited q hq := by
    rw [hc, ho]
    exact h.awaited q ((goto_eq (ht ▸ hq)).resolve_left hs)
  empty := by
    rw [hc, ho, hl]
    exact h.empty
  released q hq := by
    rw [hl]
    exact h.released q ((goto_eq (ht ▸ hq)).resolve_left hr)
  panic := by
    rw [hp]
    exact h.panic

theorem woken_ne_sleeping (pc : Pc) : pc.woken ≠ .sleeping := by cases pc <;> exact (nomatch ·)

theorem woken_eq_committing {pc : Pc} {st : Stage} (h : pc.woken = .committing st) : pc = .committing st := by
  cases pc <;> first | exact h | cases h

omit [DecidableEq P] in
theorem Occupancy.in_op (ho : Occupancy s) {p : P} {op : Op} (hp : (s.pc p).op? = some op) :
    0 < s.outstanding ∧ ∀ q st, s.pc q ≠ .committing st := by
  refine ⟨?_, fun q st hq => ?_⟩
  · have hle := le_total Pc.inOp s p
    rw [← ho.ops, Pc.inOp, hp] at hle
    exact hle
  · have := ho.no_op (ho.committing_of_pc hq) p
    rw [hp] at this
    cases this

theorem waiters_step (ho : Occupancy s) (h : Waiters s) (hst : Step g s a t) : Waiters t := by
  cases hst with
  | sleep p hpc hfull =>
      refine ⟨fun q hq => ?_, h.empty, fun q hq => ?_, h.panic⟩
      · show s.committing = true ∨ 0 < s.outstanding
        rcases hfull with hc | hfull
        · exact .inl hc
        · -- with nothing outstanding the log is empty, and there is room for one operation
          by_contra hno
          rw [not_or, Bool.not_eq_true, Nat.not_lt, Nat.le_zero] at hno
          rw [h.empty hno.1 hno.2, hno.2] at hfull
          exact absurd hfull (by decide)
      · exact h.released q ((goto_eq hq).resolve_left (nomatch ·))
  | start p hpc hc hfits =>
      refine ⟨fun q hq => .inr (Nat.succ_pos _), fun _ hout => (nomatch hout), fun q hq => ?_, h.panic⟩
      exact h.released q ((goto_eq hq).resolve_left (nomatch ·))
  | modify p op b v hpc hfree =>
      exact h.goto p (.modified op b) (nomatch ·) (nomatch ·) rfl rfl rfl rfl rfl
  | tooBig p op b hpc hfull | outside p op b hpc hout => exact ⟨h.awaited, h.empty, h.released, (nomatch ·)⟩
  | test p op b hpc => exact h.goto p (.tested op b) (nomatch ·) (nomatch ·) rfl rfl rfl rfl rfl
  | append p op b hpc =>
      obtain ⟨hpos, hcommit⟩ := ho.in_op (p := p) (by rw [hpc]; rfl)
      refine ⟨fun q hq => .inr hpos, fun _ hout => absurd hout hpos.ne', fun q hq => ?_, h.panic⟩
      exact absurd ((goto_eq hq).resolve_left (nomatch ·)) (hcommit q _)
  | panicEnd p op hpc hc => exact nomatch (ho.no_op hc p).symm.trans (congrArg Pc.op? hpc)
  | commit p op hpc hc hlast =>
      refine ⟨fun q hq => .inl rfl, fun hc => (nomatch hc), fun q hq => ?_, h.panic⟩
      rcases goto_eq hq with hst | hq
      · show s.lh = []
        by_contra hne
        rw [if_neg hne] at hst
        cases hst
      · exact h.released q hq
  | leave p op hpc hc hmore =>
      refine ⟨fun q hq => .inr (Nat.pos_of_ne_zero hmore), fun _ hout => absurd hout hmore, fun q hq => ?_, h.panic⟩
      exact h.released q ((goto_eq (woken_eq_committing hq)).resolve_left (nomatch ·))
  | writeLog p tail hpc hlt =>
      exact h.goto p (.committing (.writeLog (tail + 1))) (nomatch ·) (nomatch ·) rfl rfl rfl rfl rfl
  | logDone p tail hpc hge =>
      exact h.goto p (.committing .writeHead) (nomatch ·) (nomatch ·) rfl rfl rfl rfl rfl
  | writeHead p hpc =>
      exact h.goto p (.committing (.install 0)) (nomatch ·) (nomatch ·) rfl rfl rfl rfl rfl
  | install p tail hpc hlt =>
      exact h.goto p (.committing (.install (tail + 1))) (nomatch ·) (nomatch ·) rfl rfl rfl rfl rfl
  | installDone p tail hpc hge =>
      exact h.goto p (.committing .clearHead) (nomatch ·) (nomatch ·) rfl rfl rfl rfl rfl
  | clearHead p hpc =>
      have hc := ho.committing_of_pc hpc
      exact ⟨fun q hq => .inl hc, fun _ _ => rfl, fun q hq => rfl, h.panic⟩
  | release p hpc =>
      refine ⟨fun q hq => ?_, fun _ _ => h.released p hpc, fun q hq => h.released p hpc, h.panic⟩
      exact absurd hq (woken_ne_sleeping _)
  | kill p hpc => exact h.goto p .waiting (nomatch ·) (nomatch ·) rfl rfl rfl rfl rfl
  | evict b hdirty hfree => exact ⟨h.awaited, h.empty, h.released, h.panic⟩

omit [DecidableEq P] [Fintype P] in
theorem waiters_boot (d : Disk) : Waiters (boot P d) :=
  ⟨fun _ hp => (nomatch hp), fun _ _ => rfl, fun _ _ => rfl, (nomatch ·)⟩

/-- In every run after boot: a process that sleeps on `&log` has a commit or an outstanding operation to wait for;
without either `log.lh.n` is 0; a process inside `commit` is alone there and nothing is outstanding; and
`log.committing` is never a panic. -/
theorem no_stranded_waiter {d : Disk} {as : List (Act P)} (hrun : run (step g) (boot P d) as = some s) :
    (∀ p, s.pc p = .sleeping → (∃ q st, s.pc q = .committing st) ∨ 0 < s.outstanding) ∧
      ((∀ q st, s.pc q ≠ .committing st) → s.outstanding = 0 → s.lh = []) ∧
      (∀ p st, s.pc p = .committing st → s.outstanding = 0 ∧ ∀ q st', s.pc q = .committing st' → q = p) ∧
      s.panic ≠ some .committing := by
  have hinv : Occupancy s ∧ Waiters s := by
    refine run_invariant (fun s => Occupancy s ∧ Waiters s) (fun s a t h _ hst => ?_)
      ⟨occupancy_boot d, waiters_boot d⟩ (along_true _ _) hrun
    have hst := (step_cases hst).2
    exact ⟨occupancy_step h.1 hst, waiters_step h.1 h.2 hst⟩
  obtain ⟨ho, hw⟩ := hinv
  refine ⟨fun p hp => (hw.awaited p hp).imp_left ho.exists_committer, fun hno hout => ?_, fun p st hp =>
    ⟨?_, ?_⟩, hw.panic⟩
  · refine hw.empty (Bool.eq_false_iff.mpr fun hc => ?_) hout
    obtain ⟨q, st, hq⟩ := ho.exists_committer hc
    exact hno q st hq
  · exact ho.quiet (ho.committing_of_pc hp)
  · exact fun q st' hq => ho.committer_unique hq hp

theorem no_stranded_waiter_fourth :
    let as : List (Act (Fin 4)) := [.beginOp 0, .beginOp 1, .beginOp 2, .beginOp 3]
    ∃ s, run (step ⟨2, 30⟩) (boot (Fin 4) fun _ _ => 0) as = some s ∧ s.pc 3 = .sleeping ∧
      ((∃ q st, s.pc q = .committing st) ∨ 0 < s.outstanding) := by
  intro as
  have h : (run (step ⟨2, 30⟩) (boot (Fin 4) fun _ _ => 0) as).any (fun s => decide (s.pc 3 = .sleeping)) =
    true := by
    decide +kernel
  obtain ⟨s, hs, h⟩ := (Option.any_eq_true _ _).mp h
  exact ⟨s, hs, of_decide_eq_true h, (no_stranded_waiter hs).1 3 (of_decide_eq_true h)⟩

end Xv6.Log
