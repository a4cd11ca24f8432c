import Xv6.Log.CrashSteps

namespace Xv6.Log

open Lib.BlockWrites Lib.Runs

variable {P : Type} [DecidableEq P] [Fintype P] {g : Region} {d : Disk} {s t : State P} {a : Act P}

theorem epochs_step (h : CrashInv g d s) (hst : Step g s a t) : Epochs t := by
  have he := h.epochs
  have hocc := occupancy_step h.occ hst
  cases hst with
  | start p hpc hc hfits =>
      refine ⟨?_, ?_, ?_⟩
      · intro e hmem
        rcases List.mem_append.mp hmem with hmem | hmem
        · exact he.le e hmem
        · rw [List.mem_singleton.mp hmem, (h.quiet hc).1]
          exact le_rfl
      · intro w hw
        exact lt_of_lt_of_le (he.logged w hw) (by simp [State.goto])
      · refine State.forall_goto (fun _ pc => ∀ op, pc.op? = some op →
          op.no < (s.hist.epochs ++ [s.hist.commits]).length ∧
          Hist.epoch { s.hist with epochs := s.hist.epochs ++ [s.hist.commits] } op.no = s.hist.finished) ?_ ?_
        · intro op hop
          cases hop
          simp [Hist.epoch, (h.quiet hc).1]
        · intro q op hq
          obtain ⟨hlt, heq⟩ := he.current q op hq
          refine ⟨by simp; omega, ?_⟩
          rw [epoch_append hlt, heq]
  | append p op b hpc =>
      have hop : (s.pc p).op? = some op := by rw [hpc]; rfl
      refine ⟨he.le, ?_, ?_⟩
      · intro w hw
        rcases List.mem_append.mp hw with hw | hw
        · exact he.logged w hw
        · rw [List.mem_singleton.mp hw]
          exact (he.current p op hop).1
      · refine State.forall_goto (fun _ pc => ∀ op, pc.op? = some op → op.no < s.hist.epochs.length ∧
          s.hist.epoch op.no = s.hist.finished) ?_ he.current
        intro op' hop'
        cases hop'
        exact he.current p op hop
  | commit p op hpc hc hlast =>
      refine ⟨?_, he.logged, ?_⟩
      · intro e hmem
        have hle := he.le e hmem
        show e ≤ if s.lh = [] then s.hist.finished + 1 else s.hist.finished
        split <;> omega
      · intro q op' hq
        rw [hocc.no_op rfl q] at hq
        cases hq
  | clearHead p hpc =>
      refine ⟨fun e hmem => (he.le e hmem).trans (Nat.le_succ _), he.logged, ?_⟩
      intro q op' hq
      rw [hocc.no_op (h.occ.committing_of_pc hpc) q] at hq
      cases hq
  | sleep p | kill p | logDone p | writeLog p | writeHead p | install p | installDone p =>
      exact he.goto p _ rfl (by simp [Pc.op?]) (Or.inl rfl)
  | leave p | release p => exact he.goto p .idle rfl (by simp [Pc.op?]) (Or.inr rfl)
  | modify p op b v hpc => exact he.goto p (.modified op b) rfl (by simp [hpc, Pc.op?]) (Or.inl rfl)
  | test p op b hpc => exact he.goto p (.tested op b) rfl (by simp [hpc, Pc.op?]) (Or.inl rfl)
  | tooBig | outside | panicEnd | evict => exact ⟨he.le, he.logged, he.current⟩

theorem recorded_step (h : CrashInv g d s) (hok : keepsLog g s a = true) (hst : Step g s a t) :
    Recorded g t := by
  have hr := h.recorded
  have he := h.epochs
  -- With the log empty and a new epoch begun, nothing of that epoch is logged yet.
  have hempty (f : Nat) (hf : s.hist.finished < f) (b : Nat) :
      b ∈ ([] : List Nat) ↔ ∃ w ∈ s.hist.trace, w.block = b ∧ s.hist.epoch w.op = f := by
    constructor
    · intro hb; cases hb
    · rintro ⟨w, hw, -, hf'⟩
      have := he.epoch_le w.op
      omega
  cases hst with
  | start p hpc hc hfits =>
      refine ⟨hr.nodup, hr.fits, ?_, hr.home⟩
      intro b
      have hsame : ∀ w ∈ s.hist.trace,
          Hist.epoch { s.hist with epochs := s.hist.epochs ++ [s.hist.commits] } w.op = s.hist.epoch w.op :=
        fun w hw => epoch_append (he.logged w hw)
      refine (hr.mem b).trans ⟨?_, ?_⟩
      · rintro ⟨w, hw, hb, heq⟩
        exact ⟨w, hw, hb, (hsame w hw).trans heq⟩
      · rintro ⟨w, hw, hb, heq⟩
        exact ⟨w, hw, hb, (hsame w hw).symm.trans heq⟩
  | append p op b hpc =>
      have hop : (s.pc p).op? = some op := by rw [hpc]; rfl
      have hheld : (s.pc p).held? = some b := by rw [hpc]; rfl
      have hfits : (absorb s.lh b).length ≤ capacity g := by simpa [keepsLog, hpc] using hok
      refine ⟨?_, hfits, ?_, ?_⟩
      · show (absorb s.lh b).Nodup
        unfold absorb
        split
        next hb => exact hr.nodup
        next hb => exact List.nodup_append.mpr ⟨hr.nodup, by simp, by simp; grind -ring -linarith⟩
      · intro x
        show x ∈ absorb s.lh b ↔ ∃ w ∈ s.hist.trace ++ [_], w.block = x ∧ s.hist.epoch w.op = s.hist.finished
        simp only [mem_absorb, hr.mem, List.mem_append, List.mem_singleton]
        constructor
        · rintro (⟨w, hw, hx⟩ | rfl)
          · exact ⟨w, Or.inl hw, hx⟩
          · exact ⟨_, Or.inr rfl, rfl, (he.current p op hop).2⟩
        · rintro ⟨w, hw | rfl, hx, hf⟩
          · exact Or.inl ⟨w, hw, hx, hf⟩
          · exact Or.inr hx.symm
      · intro x hx
        rcases (mem_absorb s.lh b x).mp hx with hx | rfl
        · exact hr.home x hx
        · exact h.cached.held p x hheld
  | commit p op hpc hc hlast =>
      refine ⟨hr.nodup, hr.fits, ?_, hr.home⟩
      intro b
      show b ∈ s.lh ↔ ∃ w ∈ s.hist.trace, w.block = b ∧
        s.hist.epoch w.op = if s.lh = [] then s.hist.finished + 1 else s.hist.finished
      split
      next hnil => rw [hnil]; exact hempty _ (Nat.lt_succ_self _) b
      next hnil => exact hr.mem b
  | clearHead p hpc =>
      exact ⟨List.nodup_nil, Nat.zero_le _, hempty _ (Nat.lt_succ_self _), by simp [commitStep, State.goto]⟩
  | _ => exact hr.of_eq rfl rfl

omit [DecidableEq P] in
theorem CrashInv.cache_log (h : CrashInv g d s) {b : Nat} (hb : ¬ g.Home b) : s.cache b = s.disk b := by
  apply h.cached.clean b
  · rintro ⟨q, hq⟩
    exact hb (h.cached.held q b hq).1
  · by_contra hd
    exact hb (h.cached.dirty b (by simpa using hd))

omit [DecidableEq P] in
theorem CrashInv.cache_home (h : CrashInv g d s) (hc : s.committing = true) {b : Nat} (hb : g.Home b) :
    s.cache b = s.new d b := by
  apply h.cached.data b hb
  rintro ⟨q, hq⟩
  have hop := h.occ.no_op hc q
  cases hpc : s.pc q <;> simp [hpc, Pc.op?, Pc.held?] at hop hq

omit [DecidableEq P] in
theorem CrashInv.log_block (h : CrashInv g d s) {i : Nat} (hi : i < s.lh.length) : ¬ g.Home (g.start + i + 1) := by
  have hfits := h.recorded.fits
  unfold capacity at hfits
  unfold Region.Home
  omega

theorem cached_step (hsize : 0 < g.size) (h : CrashInv g d s) (hok : keepsLog g s a = true)
    (hst : Step g s a t) : Cached g d t := by
  have hca := h.cached
  have hstart : ¬ g.Home g.start := by unfold Region.Home; omega
  have hnone (p : P) (hp : (s.pc p).held? = none) (pc : Pc) (hpc : pc.held? = none) :
      Cached g d (s.goto p pc) := hca.goto p pc (hpc.trans hp.symm)
  cases hst with
  | sleep p hpc => exact hnone p (by rcases hpc with hpc | hpc <;> rw [hpc] <;> rfl) _ rfl
  | start p hpc =>
      have hg := hnone p (by rcases hpc with hpc | hpc <;> rw [hpc] <;> rfl)
        (.running ⟨s.hist.epochs.length, ∅⟩) rfl
      exact hg.of_eq rfl rfl rfl (fun _ => rfl) rfl
  | modify p op b v hpc hfree =>
      exact cached_modify hca p op b v hpc hfree (by simpa [keepsLog] using hok)
  | tooBig p | outside p | panicEnd p => exact hca.of_eq rfl rfl rfl (fun _ => rfl) rfl
  | test p op b hpc => exact hca.goto p _ (by rw [hpc]; rfl)
  | append p op b hpc => exact cached_append hca p op b hpc
  | commit p op hpc =>
      have hg := hnone p (by rw [hpc]; rfl) (.committing (if s.lh = [] then .release else .writeLog 0)) rfl
      exact hg.of_eq rfl rfl rfl (fun _ => rfl) rfl
  | leave p op hpc =>
      exact (hnone p (by rw [hpc]; rfl) .idle rfl).wakeup.of_eq rfl rfl rfl (fun _ => rfl) rfl
  | writeLog p tail hpc hlt =>
      have hb := hca.bwrite (g.start + tail + 1) (s.cache s.lh[tail]) (fun hx => absurd hx (h.log_block hlt))
      exact hb.goto p _ (by simp [State.bwrite, hpc, Pc.held?])
  | logDone p tail hpc => exact hnone p (by rw [hpc]; rfl) _ rfl
  | writeHead p hpc =>
      have hb := hca.bwrite g.start (writeHead s.lh (s.cache g.start)) (fun hx => absurd hx hstart)
      exact hb.goto p _ (by simp [State.bwrite, hpc, Pc.held?])
  | install p tail hpc hlt =>
      have hlog : s.cache (g.start + tail + 1) = s.new d s.lh[tail] := by
        rw [h.cache_log (h.log_block hlt)]
        exact (h.stage p _ hpc).2.copied tail hlt hlt
      have hb := hca.bwrite s.lh[tail] (s.cache (g.start + tail + 1)) (fun _ => hlog)
      exact hb.goto p _ (by simp [State.bwrite, hpc, Pc.held?])
  | installDone p tail hpc => exact hnone p (by rw [hpc]; rfl) _ rfl
  | clearHead p hpc =>
      have hb := hca.bwrite g.start (writeHead [] (s.cache g.start)) (fun hx => absurd hx hstart)
      have hg := hb.goto p (.committing .release) (by simp [State.bwrite, hpc, Pc.held?])
      exact hg.of_eq rfl rfl rfl (fun _ => rfl) rfl
  | release p hpc =>
      exact (hnone p (by rw [hpc]; rfl) .idle rfl).wakeup.of_eq rfl rfl rfl (fun _ => rfl) rfl
  | kill p hpc => exact hnone p (by rw [hpc]; rfl) _ rfl
  | evict b hdirty hfree =>
      have hsame : Function.update s.cache b (s.disk b) = s.cache := by
        rw [← hca.clean b hfree hdirty, Function.update_eq_self]
      exact hca.of_eq rfl hsame rfl (fun _ => rfl) rfl

end Xv6.Log
