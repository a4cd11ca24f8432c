import Xv6.Log.CrashStages

namespace Xv6.Log

open Lib.Runs

variable {P : Type} [DecidableEq P] [Fintype P] {g : Region} {d : Disk} {s t : State P} {a : Act P}

omit [DecidableEq P] in
theorem crashInv_boot (hd : readHead (d g.start) = []) : CrashInv g d (boot P d) where
  occ := occupancy_boot d
  epochs := ⟨by simp [boot], by simp [boot], by simp [boot, Pc.op?]⟩
  recorded := ⟨by simp [boot], by simp [boot], by simp [boot], by simp [boot]⟩
  cached := ⟨by simp [boot, Pc.held?], by simp [boot, Pc.held?], fun _ _ _ => rfl, by simp [boot], fun _ _ _ => rfl⟩
  quiet := fun _ => ⟨rfl, hd, fun _ _ => rfl⟩
  stage := by simp [boot]

theorem crashInv_step (hsize : 0 < g.size) (h : CrashInv g d s) (hok : keepsLog g s a = true)
    (hst : Step g s a t) : CrashInv g d t where
  occ := occupancy_step h.occ hst
  epochs := epochs_step h hst
  recorded := recorded_step h hok hst
  cached := cached_step hsize h hok hst
  quiet := quiet_step h hst
  stage := stage_step hsize h hst

/-- Recovering the disk now gives the state after `k` commits: all finished ones, and none
that an operation in progress belongs to. -/
structure CommitPoint (g : Region) (d : Disk) (s : State P) (k : Nat) : Prop where
  finished : s.hist.finished ≤ k
  begun : k ≤ s.hist.commits
  open_ops : ∀ p op, (s.pc p).op? = some op → k ≤ s.hist.epoch op.no
  home : ∀ b, g.Home b → redone g s.disk b = s.hist.stateAfter d k b

omit [DecidableEq P] in
theorem CrashInv.commitPoint_settled (h : CrashInv g d s) (hset : Settled g d s)
    (hcount : s.hist.finished ≤ s.hist.commits) : WellFormed g s.disk ∧ ∃ k, CommitPoint g d s k := by
  refine ⟨⟨Or.inr hset.header, by simp [hset.header]⟩, s.hist.finished, le_rfl, hcount, ?_, hset.redone⟩
  intro p op hp
  exact (h.epochs.current p op hp).2.ge

omit [DecidableEq P] in
theorem CrashInv.commitPoint_committed (h : CrashInv g d s) (hc : s.committing = true) {n : Nat}
    (hcount : s.hist.commits = s.hist.finished + 1) (hcom : Committed g d s n) :
    WellFormed g s.disk ∧ ∃ k, CommitPoint g d s k := by
  have hfits := h.recorded.fits
  unfold capacity at hfits
  refine ⟨⟨?_, ?_⟩, s.hist.finished + 1, Nat.le_succ _, hcount.ge, ?_, ?_⟩
  · rw [hcom.header]
    rcases Nat.eq_zero_or_pos s.lh.length with h0 | h0
    · exact Or.inr (List.length_eq_zero_iff.mp h0)
    · exact Or.inl (by omega)
  · rw [hcom.header]
    exact fun b hb => (h.recorded.home b hb).1
  · intro q op hq
    rw [h.occ.no_op hc q] at hq
    cases hq
  · intro b hb
    rw [hcom.redone h.epochs h.recorded b hb, new_eq_stateAfter h.epochs]

omit [DecidableEq P] in
theorem CrashInv.commitPoint (h : CrashInv g d s) : WellFormed g s.disk ∧ ∃ k, CommitPoint g d s k := by
  cases hc : s.committing with
  | false => exact h.commitPoint_settled (h.quiet hc).2 (h.quiet hc).1.ge
  | true =>
      obtain ⟨p, st, hpc⟩ := h.occ.exists_committer hc
      have hat := h.stage p st hpc
      have hcount := hat.counts
      cases st with
      | writeLog tail => exact h.commitPoint_settled hat.2.1 hcount
      | writeHead => exact h.commitPoint_settled hat.2.1 hcount
      | install tail => exact h.commitPoint_committed hc hat.1 hat.2
      | clearHead => exact h.commitPoint_committed hc hat.1 hat.2
      | release => exact h.commitPoint_settled hat.2 hcount

/-- A crash at any point of a run, followed by a recovery that may itself be interrupted any
number of times, leaves the home blocks as some whole number of commits made them. Every
operation is in them with all its `log_write`s or with none; those of finished commits are,
and those still in progress are not. -/
theorem crash_atomic (hsize : 0 < g.size) (hd : readHead (d g.start) = []) {as : List (Act P)}
    (hok : Along (step g) (fun s a => keepsLog g s a = true) (boot P d) as)
    (hrun : run (step g) (boot P d) as = some s) :
    ∃ k, s.hist.finished ≤ k ∧ k ≤ s.hist.commits ∧
      (∀ p op, (s.pc p).op? = some op → k ≤ s.hist.epoch op.no) ∧
      ∀ d', Recovers g s.disk d' →
        readHead (d' g.start) = [] ∧ ∀ b, g.Home b → d' b = s.hist.stateAfter d k b := by
  have hinv : CrashInv g d s := run_invariant (CrashInv g d)
    (fun s a t hs ha ht => crashInv_step hsize hs ha (step_cases ht).2) (crashInv_boot hd) hok hrun
  obtain ⟨hwf, k, hk⟩ := hinv.commitPoint
  refine ⟨k, hk.finished, hk.begun, hk.open_ops, ?_⟩
  intro d' hrec
  obtain ⟨hempty, hhome⟩ := recovers_correct g hsize hrec hwf
  exact ⟨hempty, fun b hb => (hhome b hb).trans (hk.home b hb)⟩

def sharedRun : List (Act (Fin 2)) :=
  [.beginOp 0, .beginOp 1] ++ logWrites 0 oneBlock [100, 101] ++ logWrites 1 zeroBlock [101, 102] ++
    [.endOp 0, .endOp 1] ++ List.replicate 6 (.commit 1)

theorem crash_atomic_sharedRun :
    ∃ s : State (Fin 2), run (step ⟨2, logsize⟩) (boot (Fin 2) fun _ => zeroBlock) sharedRun = some s ∧
      s.lh = [100, 101, 102] ∧
      ∃ k, s.hist.finished ≤ k ∧ k ≤ s.hist.commits ∧
        (∀ p op, (s.pc p).op? = some op → k ≤ s.hist.epoch op.no) ∧
        ∀ d', Recovers ⟨2, logsize⟩ s.disk d' →
          readHead (d' 2) = [] ∧
            ∀ b, Region.Home ⟨2, logsize⟩ b → d' b = s.hist.stateAfter (fun _ => zeroBlock) k b := by
  have hrun : (run (step ⟨2, logsize⟩) (boot (Fin 2) fun _ => zeroBlock) sharedRun).any
      (fun s => decide (s.lh = [100, 101, 102])) = true := by decide +kernel
  obtain ⟨s, hs, hlh⟩ := (Option.any_eq_true _ _).mp hrun
  exact ⟨s, hs, of_decide_eq_true hlh,
    crash_atomic (by decide) (by decide) (along_of_alongB (keepsLog _) (fun _ _ h => h) (by decide +kernel)) hs⟩

end Xv6.Log
