import Xv6.Log.Capacity
import Mathlib

namespace Xv6.Log

open Lib.Runs

variable {P : Type} [DecidableEq P] [Fintype P] {g : Region} {s t : State P} {a : Act P} {T : Nat}

def Pc.reserved (pc : Pc) : Nat :=
  match pc.op? with
  | some op => maxopblocks - op.blocks.card
  | none => 0

/-- Operations are admitted by `begin_op` only while their reservations stay within `T`
blocks; the code itself admits up to `LOGSIZE`. -/
def admitsWithin (T : Nat) (s : State P) : Act P → Bool
  | .beginOp _ => s.committing || decide (logsize < s.lh.length + (s.outstanding + 1) * maxopblocks) ||
      decide (s.lh.length + (s.outstanding + 1) * maxopblocks ≤ T)
  | _ => true

/-- The recorded blocks and the open reservations stay within `T`, and what an operation
has logged is recorded. -/
structure Reserved (T : Nat) (s : State P) : Prop where
  within : s.lh.length + total Pc.reserved s ≤ T
  recorded : ∀ p op, (s.pc p).op? = some op → ∀ b ∈ op.blocks, b ∈ s.lh
  bounded : ∀ p op, (s.pc p).op? = some op → op.blocks.card ≤ maxopblocks
  pending : ∀ p op b, s.pc p = .tested op b → (insert b op.blocks).card ≤ maxopblocks

omit [DecidableEq P] in
theorem reserved_le (hocc : Occupancy s) : total Pc.reserved s ≤ s.outstanding * maxopblocks := by
  rw [hocc.ops, total, total, Finset.sum_mul]
  apply Finset.sum_le_sum
  intro q _
  unfold Pc.reserved Pc.inOp
  cases (s.pc q).op? with
  | none => simp
  | some op => simp

omit [DecidableEq P] in
theorem Reserved.of_eq (h : Reserved T s) (hlh : t.lh = s.lh) (hpc : t.pc = s.pc) : Reserved T t := by
  obtain ⟨h1, h2, h3, h4⟩ := h
  refine ⟨?_, ?_, ?_, ?_⟩
  · rwa [hlh, total_congr _ hpc]
  · rwa [hlh, hpc]
  · rwa [hpc]
  · rwa [hpc]

theorem Reserved.goto (h : Reserved T s) (p : P) (pc : Pc)
    (hop : pc.op? = none ∨ pc.op? = (s.pc p).op?)
    (htest : ∀ op b, pc = .tested op b → (insert b op.blocks).card ≤ maxopblocks) :
    Reserved T (s.goto p pc) := by
  have hsum := total_goto Pc.reserved s p pc
  have hle : pc.reserved ≤ (s.pc p).reserved := by
    unfold Pc.reserved
    rcases hop with hop | hop <;> rw [hop]
    exact Nat.zero_le _
  have hsame (Q : Op → Prop) (hQ : ∀ q op, (s.pc q).op? = some op → Q op) :
      ∀ q op, ((s.goto p pc).pc q).op? = some op → Q op := by
    refine State.forall_goto (fun _ pc => ∀ op, pc.op? = some op → Q op) ?_ hQ
    intro op hpc
    rcases hop with hop | hop
    · rw [hop] at hpc; cases hpc
    · exact hQ p op (hop ▸ hpc)
  refine ⟨?_, hsame _ h.recorded, hsame _ h.bounded, ?_⟩
  · have := h.within
    show s.lh.length + total Pc.reserved (s.goto p pc) ≤ T
    omega
  · exact State.forall_goto (fun _ pc => ∀ op b, pc = .tested op b → (insert b op.blocks).card ≤ maxopblocks)
      htest h.pending

omit [DecidableEq P] in
theorem Reserved.wakeup (h : Reserved T s) : Reserved T s.wakeup := by
  have hop (q : P) : (s.pc q).woken.op? = (s.pc q).op? := by cases s.pc q <;> rfl
  refine ⟨?_, ?_, ?_, ?_⟩
  · rw [total_wakeup _ rfl]
    exact h.within
  · intro q op hq
    exact h.recorded q op ((hop q).symm.trans hq)
  · intro q op hq
    exact h.bounded q op ((hop q).symm.trans hq)
  · intro q op b hq
    apply h.pending q op b
    change (s.pc q).woken = _ at hq
    cases hpc : s.pc q <;> simp_all [Pc.woken]

theorem Reserved.start (h : Reserved T s) (hocc : Occupancy s) (p : P)
    (hfits : s.lh.length + (s.outstanding + 1) * maxopblocks ≤ T) (no : Nat) :
    Reserved T (s.goto p (.running ⟨no, ∅⟩)) := by
  have hsum := total_goto Pc.reserved s p (.running ⟨no, ∅⟩)
  have hle := reserved_le hocc
  have hnew : (Pc.running ⟨no, ∅⟩).reserved = maxopblocks := rfl
  refine ⟨?_, ?_, ?_, ?_⟩
  · show s.lh.length + total Pc.reserved (s.goto p _) ≤ T
    rw [Nat.add_mul] at hfits
    omega
  · refine State.forall_goto (fun _ pc => ∀ op, pc.op? = some op → ∀ b ∈ op.blocks, b ∈ s.lh) ?_ h.recorded
    intro op hop
    cases hop
    simp
  · refine State.forall_goto (fun _ pc => ∀ op, pc.op? = some op → op.blocks.card ≤ maxopblocks) ?_ h.bounded
    intro op hop
    cases hop
    simp
  · exact State.forall_goto (fun _ pc => ∀ op b, pc = .tested op b → (insert b op.blocks).card ≤ maxopblocks)
      (by simp) h.pending

theorem Reserved.append (h : Reserved T s) (p : P) (op : Op) (b : Nat) (hpc : s.pc p = .tested op b) :
    Reserved T (logWriteAppend s p op b) := by
  have hsum := total_goto Pc.reserved s p (.running { op with blocks := insert b op.blocks })
  have hcard := h.pending p op b hpc
  have hop : (s.pc p).op? = some op := by rw [hpc]; rfl
  have hold : (s.pc p).reserved = maxopblocks - op.blocks.card := by rw [Pc.reserved, hop]
  have hnew : (Pc.running { op with blocks := insert b op.blocks }).reserved =
      maxopblocks - (insert b op.blocks).card := rfl
  refine ⟨?_, ?_, ?_, ?_⟩
  · show (absorb s.lh b).length + total Pc.reserved (s.goto p _) ≤ T
    have hwithin := h.within
    by_cases hb : b ∈ op.blocks
    · have hlh : absorb s.lh b = s.lh := if_pos (h.recorded p op hop b hb)
      rw [Finset.insert_eq_of_mem hb] at hnew hsum ⊢
      rw [hlh]
      omega
    · rw [Finset.card_insert_of_notMem hb] at hcard hnew
      have hlen := length_absorb_le s.lh b
      omega
  · refine State.forall_goto (fun _ pc => ∀ op, pc.op? = some op → ∀ x ∈ op.blocks, x ∈ absorb s.lh b) ?_ ?_
    · intro op' hop' x hx
      cases hop'
      rw [Finset.mem_insert] at hx
      refine (mem_absorb s.lh b x).mpr ?_
      rcases hx with rfl | hx
      · exact Or.inr rfl
      · exact Or.inl (h.recorded p op hop x hx)
    · intro q op' hq x hx
      exact (mem_absorb s.lh b x).mpr (Or.inl (h.recorded q op' hq x hx))
  · refine State.forall_goto (fun _ pc => ∀ op, pc.op? = some op → op.blocks.card ≤ maxopblocks) ?_ h.bounded
    intro op' hop'
    cases hop'
    exact hcard
  · exact State.forall_goto (fun _ pc => ∀ op b, pc = .tested op b → (insert b op.blocks).card ≤ maxopblocks)
      (by simp) h.pending

theorem reserved_step (h : Reserved T s) (hocc : Occupancy s) (hb : opBound s a = true)
    (hT : admitsWithin T s a = true) (hst : Step g s a t) : Reserved T t := by
  cases hst with
  | sleep p hpc hfull => exact h.goto p .sleeping (Or.inl rfl) (by simp)
  | start p hpc hc hfits =>
      have hfit : s.lh.length + (s.outstanding + 1) * maxopblocks ≤ T := by
        simp only [admitsWithin, hc, Bool.false_or, Bool.or_eq_true, decide_eq_true_eq] at hT
        omega
      have hs := h.start hocc p hfit s.hist.epochs.length
      exact hs.of_eq rfl rfl
  | modify p op b v hpc hfree =>
      have hs := h.goto p (.modified op b) (Or.inr (by rw [hpc]; rfl)) (by simp)
      exact hs.of_eq rfl rfl
  | tooBig p op b hpc hfull => exact h.of_eq rfl rfl
  | outside p op b hpc hout => exact h.of_eq rfl rfl
  | test p op b hpc hlog hsize hout =>
      refine h.goto p (.tested op b) (Or.inr (by rw [hpc]; rfl)) ?_
      intro op' b' he
      simp only [Pc.tested.injEq] at he
      obtain ⟨rfl, rfl⟩ := he
      simpa [opBound, hpc] using hb
  | append p op b hpc => exact h.append p op b hpc
  | panicEnd p op hpc hc => exact h.of_eq rfl rfl
  | commit p op hpc hc hlast =>
      have hs := h.goto p (.committing (if s.lh = [] then .release else .writeLog 0)) (Or.inl rfl) (by simp)
      exact hs.of_eq rfl rfl
  | leave p op hpc hc hmore =>
      have hs := (h.goto p .idle (Or.inl rfl) (by simp)).wakeup
      exact hs.of_eq rfl rfl
  | writeLog p tail hpc hlt =>
      have hs := h.goto p (.committing (.writeLog (tail + 1))) (Or.inl rfl) (by simp)
      exact hs.of_eq rfl rfl
  | logDone p tail hpc hge => exact h.goto p (.committing .writeHead) (Or.inl rfl) (by simp)
  | writeHead p hpc =>
      have hs := h.goto p (.committing (.install 0)) (Or.inl rfl) (by simp)
      exact hs.of_eq rfl rfl
  | install p tail hpc hlt =>
      have hs := h.goto p (.committing (.install (tail + 1))) (Or.inl rfl) (by simp)
      exact hs.of_eq rfl rfl
  | installDone p tail hpc hge => exact h.goto p (.committing .clearHead) (Or.inl rfl) (by simp)
  | clearHead p hpc =>
      have hs := h.goto p (.committing .release) (Or.inl rfl) (by simp)
      have hnone : ∀ q, ((s.goto p (.committing .release)).pc q).op? = none := by
        intro q
        by_cases hqp : q = p
        · subst hqp; simp [State.goto, Pc.op?]
        · simp only [State.goto, Function.update_of_ne hqp]
          exact hocc.no_op (hocc.committing_of_pc hpc) q
      refine ⟨?_, ?_, hs.bounded, hs.pending⟩
      · have := hs.within
        show 0 + total Pc.reserved (s.goto p _) ≤ T
        omega
      · intro q op hq
        rw [show ((commitStep g s p .clearHead).pc q).op? = none from hnone q] at hq
        cases hq
  | release p hpc =>
      have hs := (h.goto p .idle (Or.inl rfl) (by simp)).wakeup
      exact hs.of_eq rfl rfl
  | kill p hpc => exact h.goto p .waiting (Or.inl rfl) (by simp)
  | evict b hdirty hfree => exact h.of_eq rfl rfl

omit [DecidableEq P] in
theorem reserved_boot (d : Disk) : Reserved T (boot P d) := by
  refine ⟨?_, ?_, ?_, ?_⟩ <;> simp [boot, total, Pc.reserved, Pc.op?]

theorem no_tooBig (hsize : g.size = logsize) (hT : T + 2 ≤ logsize) {d : Disk} {as : List (Act P)}
    (hok : Along (step g) (fun s a => opBound s a = true ∧ admitsWithin T s a = true) (boot P d) as)
    (hrun : run (step g) (boot P d) as = some s) : s.panic ≠ some .tooBig := by
  have hinv : Occupancy s ∧ Reserved T s ∧ s.panic ≠ some .tooBig := by
    refine run_invariant (fun s => Occupancy s ∧ Reserved T s ∧ s.panic ≠ some .tooBig) ?_
      ⟨occupancy_boot d, reserved_boot d, by simp [boot]⟩ hok hrun
    rintro s a t ⟨hocc, hres, -⟩ ⟨hb, ha⟩ ht
    obtain ⟨hpanic, hst⟩ := step_cases ht
    refine ⟨occupancy_step hocc hst, reserved_step hres hocc hb ha hst, ?_⟩
    have hlen := hres.within
    have hnone : s.panic ≠ some .tooBig := by simp [hpanic]
    cases hst with
    | tooBig p op b hpc hfull => omega
    | outside p op b hpc hout => simp
    | panicEnd p op hpc hc => simp
    | _ => exact hnone
  exact hinv.2.2

def fullRun : List (Act (Fin 3)) :=
  [.beginOp 0, .beginOp 1, .beginOp 2] ++
    logWrites 0 oneBlock (List.range' 100 10) ++ logWrites 1 oneBlock (List.range' 200 10) ++
    logWrites 2 oneBlock (List.range' 300 9) ++ [.modify 2 309 oneBlock, .test 2]

/-- The reservations `begin_op` admits do not fit in the log `mkfs` lays out: one block of
the region holds the header. -/
theorem admitted_overflow :
    ∃ s : State (Fin 3), run (step ⟨2, logsize⟩) (boot (Fin 3) fun _ => zeroBlock) fullRun = some s ∧
      Along (step ⟨2, logsize⟩) (fun s a => opBound s a = true) (boot (Fin 3) fun _ => zeroBlock) fullRun ∧
      s.panic = some .tooBig := by
  have hrun : (run (step ⟨2, logsize⟩) (boot (Fin 3) fun _ => zeroBlock) fullRun).any
      (fun s => decide (s.panic = some .tooBig)) = true := by decide +kernel
  obtain ⟨s, hs, h⟩ := (Option.any_eq_true _ _).mp hrun
  exact ⟨s, hs, along_of_alongB opBound (fun _ _ h => h) (by decide +kernel), of_decide_eq_true h⟩

/-- With a reservation of 29 blocks the region can be filled, and the next call of
`log_write` fails although its block is already recorded. -/
def refillRun : List (Act (Fin 3)) :=
  [.beginOp 0, .beginOp 1] ++ logWrites 1 oneBlock (List.range' 200 9) ++ [.endOp 1, .beginOp 2] ++
    logWrites 0 oneBlock (List.range' 100 10) ++ logWrites 2 oneBlock (List.range' 300 10) ++
    [.modify 2 309 oneBlock, .test 2]

theorem refill_overflow :
    ∃ s : State (Fin 3), run (step ⟨2, logsize⟩) (boot (Fin 3) fun _ => zeroBlock) refillRun = some s ∧
      Along (step ⟨2, logsize⟩) (fun s a => opBound s a = true ∧ admitsWithin 29 s a = true)
        (boot (Fin 3) fun _ => zeroBlock) refillRun ∧
      s.panic = some .tooBig := by
  have hrun : (run (step ⟨2, logsize⟩) (boot (Fin 3) fun _ => zeroBlock) refillRun).any
      (fun s => decide (s.panic = some .tooBig)) = true := by decide +kernel
  obtain ⟨s, hs, h⟩ := (Option.any_eq_true _ _).mp hrun
  refine ⟨s, hs, ?_, of_decide_eq_true h⟩
  exact along_of_alongB (fun s a => opBound s a && admitsWithin 29 s a)
    (fun _ _ h => by simpa using h) (by decide +kernel)

/-- The bound on admissions under which no call of `log_write` meets a full log, whatever
the interleaving: two blocks less than the `LOGSIZE` that `begin_op` compares with. -/
theorem reservation_suffices_iff (T : Nat) :
    (∀ (start : Nat) (P : Type) [DecidableEq P] [Fintype P] (d : Disk) (as : List (Act P)) (s : State P),
      Along (step ⟨start, logsize⟩) (fun s a => opBound s a = true ∧ admitsWithin T s a = true)
        (boot P d) as →
      run (step ⟨start, logsize⟩) (boot P d) as = some s → s.panic ≠ some .tooBig) ↔
    T + 2 ≤ logsize := by
  constructor
  · intro h
    by_contra hT
    obtain ⟨s, hrun, hok, hpanic⟩ := refill_overflow
    refine h 2 (Fin 3) _ refillRun s (hok.mono ?_) hrun hpanic
    intro s a ⟨hb, ha⟩
    refine ⟨hb, ?_⟩
    have hle : 29 ≤ T := by
      rw [show logsize = 30 from rfl] at hT
      omega
    cases a with
    | beginOp p =>
        simp only [admitsWithin, Bool.or_eq_true, decide_eq_true_eq] at ha ⊢
        exact ha.imp_right fun h => h.trans hle
    | _ => rfl
  · intro hT start P _ _ d as s hok hrun
    exact no_tooBig rfl hT hok hrun

end Xv6.Log
