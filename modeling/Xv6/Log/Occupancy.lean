import Xv6.Log.Model
import Xv6.Lib.UpdateSum

namespace Xv6.Log

open Lib.UpdateSum Lib.Runs

variable {P : Type} [DecidableEq P] [Fintype P] {g : Region} {s t : State P} {a : Act P}

def total (w : Pc → Nat) (s : State P) : Nat := ∑ q, w (s.pc q)

theorem total_goto (w : Pc → Nat) (s : State P) (p : P) (pc : Pc) :
    total w (s.goto p pc) + w (s.pc p) = total w s + w pc :=
  sum_update w s.pc p pc

omit [DecidableEq P] in
theorem total_wakeup (w : Pc → Nat) (hw : w .waiting = w .sleeping) (s : State P) :
    total w s.wakeup = total w s := by
  apply Finset.sum_congr rfl
  intro q _
  show w (s.pc q).woken = w (s.pc q)
  cases s.pc q <;> first | rfl | exact hw

omit [DecidableEq P] in
theorem total_congr (w : Pc → Nat) (h : t.pc = s.pc) : total w t = total w s := by
  unfold total
  rw [h]

omit [DecidableEq P] in
theorem le_total (w : Pc → Nat) (s : State P) (p : P) : w (s.pc p) ≤ total w s := le_sum w s.pc p

def Pc.inOp (pc : Pc) : Nat := if pc.op?.isSome then 1 else 0

def Pc.inCommit : Pc → Nat
  | .committing _ => 1
  | _ => 0

/-- `log.outstanding` counts the operations in progress, `log.committing` tells whether a
process is inside `commit`, and the two exclude each other. -/
structure Occupancy (s : State P) : Prop where
  ops : s.outstanding = total Pc.inOp s
  commits : total Pc.inCommit s = if s.committing then 1 else 0
  quiet : s.committing = true → s.outstanding = 0

omit [DecidableEq P] in
theorem Occupancy.no_op (h : Occupancy s) (hc : s.committing = true) (p : P) : (s.pc p).op? = none := by
  have hle := le_total Pc.inOp s p
  rw [← h.ops, h.quiet hc] at hle
  cases ho : (s.pc p).op? with
  | none => rfl
  | some op => simp [Pc.inOp, ho] at hle

omit [DecidableEq P] in
theorem Occupancy.committing_of_pc (h : Occupancy s) {p : P} {st : Stage} (hpc : s.pc p = .committing st) :
    s.committing = true := by
  have hle := le_total Pc.inCommit s p
  rw [h.commits, hpc] at hle
  by_contra hc
  simp [Pc.inCommit, hc] at hle

theorem Occupancy.committer_unique (h : Occupancy s) {p q : P} {st st' : Stage}
    (hp : s.pc p = .committing st) (hq : s.pc q = .committing st') : p = q := by
  by_contra hne
  have hle := add_le_sum Pc.inCommit s.pc hne
  have hone := h.commits
  rw [total, if_pos (h.committing_of_pc hp)] at hone
  rw [hp, hq, hone] at hle
  simp [Pc.inCommit] at hle

omit [DecidableEq P] in
theorem Occupancy.exists_committer (h : Occupancy s) (hc : s.committing = true) :
    ∃ p st, s.pc p = .committing st := by
  by_contra hnone
  have hzero : total Pc.inCommit s = 0 := by
    apply Finset.sum_eq_zero
    intro q _
    cases hq : s.pc q with
    | committing st => exact absurd ⟨q, st, hq⟩ hnone
    | _ => rfl
  have hone := h.commits
  rw [hc, if_pos rfl] at hone
  omega

omit [DecidableEq P] in
theorem occupancy_boot (d : Disk) : Occupancy (boot P d) where
  ops := by simp [boot, total, Pc.inOp, Pc.op?]
  commits := by simp [boot, total, Pc.inCommit]
  quiet := by simp [boot]

theorem Occupancy.goto (h : Occupancy s) (p : P) (pc : Pc)
    (hop : pc.inOp = (s.pc p).inOp) (hcm : pc.inCommit = (s.pc p).inCommit)
    (ho : t.outstanding = s.outstanding) (hc : t.committing = s.committing)
    (hpc : t.pc = (s.goto p pc).pc) : Occupancy t := by
  have h1 := total_goto Pc.inOp s p pc
  have h2 := total_goto Pc.inCommit s p pc
  have e1 := total_congr Pc.inOp hpc
  have e2 := total_congr Pc.inCommit hpc
  refine ⟨?_, ?_, ?_⟩
  · have := h.ops; omega
  · have := h.commits; rw [hc]; omega
  · rw [hc, ho]; exact h.quiet

theorem Occupancy.move (h : Occupancy s) (p : P) (pc : Pc)
    (hop : t.outstanding + (s.pc p).inOp = s.outstanding + pc.inOp)
    (hcm : (if t.committing then 1 else 0) + (s.pc p).inCommit =
      (if s.committing then 1 else 0) + pc.inCommit)
    (hq : t.committing = true → t.outstanding = 0)
    (hpc : total Pc.inOp t = total Pc.inOp (s.goto p pc))
    (hpc' : total Pc.inCommit t = total Pc.inCommit (s.goto p pc)) : Occupancy t := by
  have h1 := total_goto Pc.inOp s p pc
  have h2 := total_goto Pc.inCommit s p pc
  have h3 := h.ops
  have h4 := h.commits
  exact ⟨by omega, by omega, hq⟩

theorem Occupancy.stay (h : Occupancy s) {p : P} {st st' : Stage} (hpc : s.pc p = .committing st)
    (ho : t.outstanding = s.outstanding) (hc : t.committing = s.committing)
    (ht : t.pc = (s.goto p (.committing st')).pc) : Occupancy t :=
  h.goto p (.committing st') (by rw [hpc]; rfl) (by rw [hpc]; rfl) ho hc ht

theorem occupancy_step (h : Occupancy s) (hst : Step g s a t) : Occupancy t := by
  cases hst with
  | sleep p hpc hfull =>
      have hop : (Pc.sleeping).inOp = (s.pc p).inOp := by rcases hpc with hpc | hpc <;> rw [hpc] <;> rfl
      have hcm : (Pc.sleeping).inCommit = (s.pc p).inCommit := by
        rcases hpc with hpc | hpc <;> rw [hpc] <;> rfl
      exact h.goto p .sleeping hop hcm rfl rfl rfl
  | start p hpc hc hfits =>
      have hop : (s.pc p).inOp = 0 := by rcases hpc with hpc | hpc <;> rw [hpc] <;> rfl
      have hcm : (s.pc p).inCommit = 0 := by rcases hpc with hpc | hpc <;> rw [hpc] <;> rfl
      refine h.move p (.running ⟨s.hist.epochs.length, ∅⟩) ?_ ?_ ?_ rfl rfl
      · rw [hop]; rfl
      · rw [hcm]; rfl
      · intro ht
        rw [show s.committing = true from ht] at hc
        cases hc
  | modify p op b v hpc hfree =>
      exact h.goto p (.modified op b) (by rw [hpc]; rfl) (by rw [hpc]; rfl) rfl rfl rfl
  | tooBig p op b hpc hfull => exact ⟨h.ops, h.commits, h.quiet⟩
  | outside p op b hpc hout => exact ⟨h.ops, h.commits, h.quiet⟩
  | test p op b hpc => exact h.goto p (.tested op b) (by rw [hpc]; rfl) (by rw [hpc]; rfl) rfl rfl rfl
  | append p op b hpc =>
      exact h.goto p (.running { op with blocks := insert b op.blocks }) (by rw [hpc]; rfl)
        (by rw [hpc]; rfl) rfl rfl rfl
  | panicEnd p op hpc hc =>
      have := h.no_op hc p
      simp [hpc, Pc.op?] at this
  | commit p op hpc hc hlast =>
      have hle := le_total Pc.inOp s p
      have hone : (s.pc p).inOp = 1 := by rw [hpc]; rfl
      have hops := h.ops
      refine h.move p (.committing (if s.lh = [] then .release else .writeLog 0)) ?_ ?_ ?_ rfl rfl
      · rw [hone]
        show 0 + 1 = s.outstanding + 0
        omega
      · rw [hpc, hc]; rfl
      · intro _; rfl
  | leave p op hpc hc hmore =>
      refine h.move p .idle ?_ ?_ ?_ (total_wakeup _ rfl _) (total_wakeup _ rfl _)
      · rw [hpc]
        show s.outstanding - 1 + 1 = s.outstanding + 0
        omega
      · rw [hpc]; rfl
      · intro ht
        rw [show s.committing = true from ht] at hc
        cases hc
  | writeLog p tail hpc hlt => exact h.stay hpc rfl rfl rfl
  | logDone p tail hpc hge => exact h.stay hpc rfl rfl rfl
  | writeHead p hpc => exact h.stay hpc rfl rfl rfl
  | install p tail hpc hlt => exact h.stay hpc rfl rfl rfl
  | installDone p tail hpc hge => exact h.stay hpc rfl rfl rfl
  | clearHead p hpc => exact h.stay hpc rfl rfl rfl
  | release p hpc =>
      have hc := h.committing_of_pc hpc
      refine h.move p .idle ?_ ?_ ?_ (total_wakeup _ rfl _) (total_wakeup _ rfl _)
      · rw [hpc]; rfl
      · rw [hpc, hc]; rfl
      · intro ht
        cases ht
  | kill p hpc => exact h.goto p .waiting (by rw [hpc]; rfl) (by rw [hpc]; rfl) rfl rfl rfl
  | evict b hdirty hfree => exact ⟨h.ops, h.commits, h.quiet⟩

end Xv6.Log
