import Xv6.Log.CrashBuffers

namespace Xv6.Log

open Lib.BlockWrites Lib.Runs
open Function (update update_of_ne update_self)

variable {P : Type} [DecidableEq P] [Fintype P] {g : Region} {d : Disk} {s t : State P} {a : Act P}

omit [Fintype P] [DecidableEq P] in
theorem Settled.congr (h : Settled g d s) (hd : t.disk = s.disk) (ho : t.old d = s.old d) : Settled g d t := by
  refine ⟨hd ▸ h.header, ?_⟩
  rw [hd, ho]
  exact h.home

theorem quiet_step (h : CrashInv g d s) (hst : Step g s a t) (hc : t.committing = false) :
    t.hist.commits = t.hist.finished ∧ Settled g d t := by
  -- Inside `commit` the flag is set, and only `release` clears it.
  have hbusy {p : P} {st : Stage} (hpc : s.pc p = .committing st) : s.committing ≠ false := by
    simp [h.occ.committing_of_pc hpc]
  cases hst with
  | start p hpc hc' hfits =>
      obtain ⟨hcount, hset⟩ := h.quiet hc
      refine ⟨hcount, hset.congr rfl ?_⟩
      exact stateAfter_congr rfl (fun w hw => epoch_append (h.epochs.logged w hw))
  | append p op b hpc =>
      have hop : (s.pc p).op? = some op := by rw [hpc]; rfl
      obtain ⟨hcount, hset⟩ := h.quiet hc
      refine ⟨hcount, hset.congr rfl ?_⟩
      exact stateAfter_append rfl rfl (h.epochs.current p op hop).2.ge
  | commit p op hpc => cases hc
  | release p hpc =>
      obtain ⟨hcount, hset⟩ := h.stage p .release hpc
      exact ⟨hcount, hset.of_eq rfl rfl⟩
  | writeLog p tail hpc | logDone p tail hpc | install p tail hpc | installDone p tail hpc =>
      exact absurd hc (hbusy hpc)
  | writeHead p hpc | clearHead p hpc => exact absurd hc (hbusy hpc)
  | sleep | modify | tooBig | outside | test | panicEnd | leave | kill | evict =>
      exact ⟨(h.quiet hc).1, (h.quiet hc).2.of_eq rfl rfl⟩

theorem stage_goto (hocc : Occupancy s) {p : P} {st st' : Stage} (hpc : s.pc p = .committing st)
    (ht : t.pc = (s.goto p (.committing st')).pc) (hat : AtStage g d t st') :
    ∀ q st, t.pc q = .committing st → AtStage g d t st := by
  rw [ht]
  intro q st'' hq
  by_cases hqp : q = p
  · subst hqp
    simp only [State.goto, update_self, Pc.committing.injEq] at hq
    exact hq ▸ hat
  · simp only [State.goto, update_of_ne hqp] at hq
    exact absurd (hocc.committer_unique hq hpc) hqp

theorem stage_quiet (h : CrashInv g d s) (hc : s.committing = false) (p : P) (pc : Pc)
    (hpc : ∀ st, pc ≠ .committing st)
    (ht : t.pc = (s.goto p pc).pc ∨ t.pc = (s.goto p pc).wakeup.pc) :
    ∀ q st, t.pc q = .committing st → AtStage g d t st := by
  have hnone : ∀ q, ∀ st, (s.goto p pc).pc q ≠ .committing st := by
    refine State.forall_goto (fun _ c => ∀ st, c ≠ .committing st) hpc ?_
    intro q st hq
    rw [h.occ.committing_of_pc hq] at hc
    cases hc
  intro q st hq
  rcases ht with ht | ht
  · exact absurd (ht ▸ hq) (hnone q st)
  · rw [ht] at hq
    change ((s.goto p pc).pc q).woken = _ at hq
    cases hs : (s.goto p pc).pc q with
    | committing st' => exact absurd hs (hnone q st')
    | _ => simp [hs, Pc.woken] at hq

omit [DecidableEq P] in
theorem committed_install (h : CrashInv g d s) {tail : Nat} (hlt : tail < s.lh.length)
    (hcom : Committed g d s tail) :
    Committed g d (s.bwrite s.lh[tail] (s.cache (g.start + tail + 1))) (tail + 1) := by
  have hhome := (h.recorded.home s.lh[tail] (List.getElem_mem hlt)).1
  have hlog : s.cache (g.start + tail + 1) = s.new d s.lh[tail] := by
    rw [h.cache_log (h.log_block hlt)]
    exact hcom.copied tail hlt hlt
  have hkeep {b : Nat} (hb : b ≠ s.lh[tail]) :
      (s.bwrite s.lh[tail] (s.cache (g.start + tail + 1))).disk b = s.disk b := update_of_ne hb _ _
  have hstart : g.start ≠ s.lh[tail] := by
    intro he
    have hfits := h.recorded.fits
    unfold capacity at hfits
    unfold Region.Home at hhome
    omega
  refine ⟨?_, ?_, ?_, ?_⟩
  · rw [hkeep hstart]
    exact hcom.header
  · intro i hi hin
    rw [hkeep]
    · exact hcom.copied i hi hin
    · intro he
      exact h.log_block hi (he ▸ hhome)
  · intro b hb hmem
    by_cases hbt : b = s.lh[tail]
    · subst hbt
      exact (update_self _ _ _).trans hlog
    · rw [hkeep hbt]
      apply hcom.home b hb
      change b ∈ s.lh.take (tail + 1) at hmem
      rw [List.take_succ_eq_append_getElem hlt, List.mem_append] at hmem
      exact hmem.resolve_right (by simpa using hbt)
  · intro b hb hmem
    rw [hkeep]
    · exact hcom.rest b hb hmem
    · rintro rfl
      exact hmem (List.getElem_mem hlt)

omit [DecidableEq P] in
theorem settled_writeLog (h : CrashInv g d s) (hset : Settled g d s) {tail : Nat} (hlt : tail < s.lh.length)
    (v : Block) : Settled g d (s.bwrite (g.start + tail + 1) v) := by
  refine ⟨?_, ?_⟩
  · rw [show (s.bwrite (g.start + tail + 1) v).disk g.start = s.disk g.start from
      update_of_ne (by omega) _ _]
    exact hset.header
  · intro b hb
    rw [show (s.bwrite (g.start + tail + 1) v).disk b = s.disk b from
      update_of_ne (by rintro rfl; exact h.log_block hlt hb) _ _]
    exact hset.home b hb

omit [DecidableEq P] in
theorem copied_writeLog (h : CrashInv g d s) (hc : s.committing = true) {tail : Nat} (hlt : tail < s.lh.length)
    (hcop : Copied g d s tail) : Copied g d (s.bwrite (g.start + tail + 1) (s.cache s.lh[tail])) (tail + 1) := by
  intro i hi hin
  show update s.disk (g.start + tail + 1) (s.cache s.lh[tail]) (g.start + i + 1) = s.new d s.lh[i]
  by_cases hit : i = tail
  · subst hit
    rw [update_self]
    exact h.cache_home hc (h.recorded.home _ (List.getElem_mem hlt)).1
  · rw [update_of_ne (by omega)]
    exact hcop i hi (by omega)

omit [DecidableEq P] in
theorem committed_writeHead (hsize : 0 < g.size) (h : CrashInv g d s) (hset : Settled g d s)
    (hcop : Copied g d s s.lh.length) :
    Committed g d (s.bwrite g.start (writeHead s.lh (s.cache g.start))) 0 := by
  have hfits := h.recorded.fits
  unfold capacity at hfits
  refine ⟨?_, ?_, ?_, ?_⟩
  · rw [show (s.bwrite g.start (writeHead s.lh (s.cache g.start))).disk g.start =
      writeHead s.lh (s.cache g.start) from update_self _ _ _]
    exact readHead_writeHead _ _ (by omega) (fun b hb => (h.recorded.home b hb).2)
  · intro i hi hin
    exact (update_of_ne (by omega) _ _).trans (hcop i hi hin)
  · intro b _ hb
    simp at hb
  · intro b hb _
    refine (update_of_ne ?_ _ _).trans (hset.home b hb)
    rintro rfl
    unfold Region.Home at hb
    omega

omit [DecidableEq P] [Fintype P] in
theorem Committed.disk_eq_new {n : Nat} (hcom : Committed g d s n) (hn : s.lh.length ≤ n) (he : Epochs s)
    (hr : Recorded g s) {b : Nat} (hb : g.Home b) : s.disk b = s.new d b := by
  by_cases hmem : b ∈ s.lh
  · exact hcom.home b hb (by rwa [List.take_of_length_le hn])
  · rw [hcom.rest b hb hmem, new_eq_old he hr hmem]

theorem settled_clearHead (hsize : 0 < g.size) (h : CrashInv g d s) (p : P)
    (hcom : Committed g d s s.lh.length) : Settled g d (commitStep g s p .clearHead) := by
  refine ⟨?_, ?_⟩
  · rw [show (commitStep g s p .clearHead).disk g.start = writeHead [] (s.cache g.start) from
      update_self _ _ _]
    exact readHead_writeHead_nil _
  · intro b hb
    have hne : b ≠ g.start := by
      rintro rfl
      unfold Region.Home at hb
      omega
    rw [show (commitStep g s p .clearHead).disk b = s.disk b from update_of_ne hne _ _,
      hcom.disk_eq_new le_rfl h.epochs h.recorded hb, new_eq_stateAfter h.epochs]
    rfl

omit [DecidableEq P] in
theorem stage_commit (h : CrashInv g d s) (hc : s.committing = false)
    (hhist : t.hist = { s.hist with
      commits := s.hist.commits + 1
      finished := if s.lh = [] then s.hist.finished + 1 else s.hist.finished })
    (hd : t.disk = s.disk) : AtStage g d t (if s.lh = [] then .release else .writeLog 0) := by
  obtain ⟨hcount, hset⟩ := h.quiet hc
  have hold (b : Nat) : t.old d b = s.old d b := by
    rw [State.old, hhist]
    by_cases hnil : s.lh = []
    · have hb : b ∉ s.lh := by simp [hnil]
      rw [new_eq_old h.epochs h.recorded hb, new_eq_stateAfter h.epochs]
      simp only [hnil, if_true]
      rfl
    · simp only [hnil, if_false]
      rfl
  have hset' := hset.congr hd (funext hold)
  split
  next hnil =>
    refine ⟨?_, hset'⟩
    simp only [hhist, hnil, if_true, hcount]
  next hnil =>
    refine ⟨?_, hset', fun i _ hi => absurd hi (Nat.not_lt_zero i)⟩
    simp only [hhist, hnil, if_false, hcount]

theorem stage_step (hsize : 0 < g.size) (h : CrashInv g d s) (hst : Step g s a t) :
    ∀ q st, t.pc q = .committing st → AtStage g d t st := by
  have hidle {p : P} {op : Op} (hop : (s.pc p).op? = some op) : s.committing = false := by
    by_contra hc
    rw [h.occ.no_op (by simpa using hc) p] at hop
    cases hop
  have haside (p : P) (pc : Pc) (hpc : ∀ st, pc ≠ .committing st) :
      ∀ q st, (s.goto p pc).pc q = .committing st → AtStage g d (s.goto p pc) st := by
    refine State.forall_goto (fun _ c => ∀ st, c = .committing st → AtStage g d (s.goto p pc) st) ?_ ?_
    · intro st hst
      exact absurd hst (hpc st)
    · intro q st hq
      exact (h.stage q st hq).of_eq rfl rfl rfl
  cases hst with
  | sleep p | kill p => exact haside p _ (by simp)
  | tooBig | outside | panicEnd | evict => exact fun q st hq => (h.stage q st hq).of_eq rfl rfl rfl
  | start p hpc hc => exact stage_quiet h hc p (.running _) (by simp) (Or.inl rfl)
  | modify p op b v hpc =>
      exact stage_quiet h (hidle (by rw [hpc]; rfl)) p (.modified op b) (by simp) (Or.inl rfl)
  | test p op b hpc => exact stage_quiet h (hidle (by rw [hpc]; rfl)) p (.tested op b) (by simp) (Or.inl rfl)
  | append p op b hpc => exact stage_quiet h (hidle (by rw [hpc]; rfl)) p (.running _) (by simp) (Or.inl rfl)
  | leave p op hpc hc => exact stage_quiet h hc p .idle (by simp) (Or.inr rfl)
  | commit p op hpc hc hlast =>
      refine State.forall_goto (fun _ pc => ∀ st, pc = .committing st → AtStage g d _ st) ?_ ?_
      · intro st hst
        rw [← Pc.committing.inj hst]
        exact stage_commit h hc rfl rfl
      · intro q st hq
        rw [h.occ.committing_of_pc hq] at hc
        cases hc
  | writeLog p tail hpc hlt =>
      obtain ⟨hcount, hset, hcop⟩ := h.stage p _ hpc
      have hat : AtStage g d (s.bwrite (g.start + tail + 1) (s.cache s.lh[tail])) (.writeLog (tail + 1)) :=
        ⟨hcount, settled_writeLog h hset hlt _, copied_writeLog h (h.occ.committing_of_pc hpc) hlt hcop⟩
      exact stage_goto h.occ hpc rfl (hat.of_eq rfl rfl rfl)
  | logDone p tail hpc hge =>
      obtain ⟨hcount, hset, hcop⟩ := h.stage p _ hpc
      have hat : AtStage g d s .writeHead := ⟨hcount, hset, fun i hi _ => hcop i hi (by omega)⟩
      exact stage_goto h.occ hpc rfl (hat.of_eq rfl rfl rfl)
  | writeHead p hpc =>
      obtain ⟨hcount, hset, hcop⟩ := h.stage p _ hpc
      have hat : AtStage g d (s.bwrite g.start (writeHead s.lh (s.cache g.start))) (.install 0) :=
        ⟨hcount, committed_writeHead hsize h hset hcop⟩
      exact stage_goto h.occ hpc rfl (hat.of_eq rfl rfl rfl)
  | install p tail hpc hlt =>
      obtain ⟨hcount, hcom⟩ := h.stage p _ hpc
      have hat : AtStage g d (s.bwrite s.lh[tail] (s.cache (g.start + tail + 1))) (.install (tail + 1)) :=
        ⟨hcount, committed_install h hlt hcom⟩
      exact stage_goto h.occ hpc rfl (hat.of_eq rfl rfl rfl)
  | installDone p tail hpc hge =>
      obtain ⟨hcount, hcom⟩ := h.stage p _ hpc
      have hat : AtStage g d s .clearHead :=
        ⟨hcount, hcom.header, hcom.copied, fun b hb _ => hcom.disk_eq_new hge h.epochs h.recorded hb, hcom.rest⟩
      exact stage_goto h.occ hpc rfl (hat.of_eq rfl rfl rfl)
  | clearHead p hpc =>
      obtain ⟨hcount, hcom⟩ := h.stage p _ hpc
      exact stage_goto h.occ hpc rfl ⟨hcount, settled_clearHead hsize h p hcom⟩
  | release p hpc =>
      intro q st hq
      change ((s.goto p .idle).pc q).woken = _ at hq
      by_cases hqp : q = p
      · subst hqp
        simp [State.goto, Pc.woken] at hq
      · have hqs : s.pc q = .committing st := by
          simp only [State.goto, update_of_ne hqp] at hq
          cases hs : s.pc q <;> simp_all [Pc.woken]
        exact absurd (h.occ.committer_unique hqs hpc) hqp

end Xv6.Log
