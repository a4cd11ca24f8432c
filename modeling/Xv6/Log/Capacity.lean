import Xv6.Log.Occupancy

namespace Xv6.Log

open Lib.Runs

variable {P : Type} [DecidableEq P] [Fintype P] {g : Region} {s t : State P} {a : Act P}

def capacity (g : Region) : Nat := min logsize (g.size - 1)

def Pc.pending : Pc → Nat
  | .tested _ _ => 1
  | _ => 0

/-- A call of `log_write` makes its test while the log has room for the appends already
admitted by the test and not yet made, and for this one. -/
def testCounts (g : Region) (s : State P) : Act P → Bool
  | .test _ => decide (s.lh.length + total Pc.pending s < capacity g)
  | _ => true

/-- What the file system promises: an operation passes at most `MAXOPBLOCKS` different block
numbers to `log_write`. -/
def opBound (s : State P) : Act P → Bool
  | .test p => match s.pc p with
    | .modified op b => decide ((insert b op.blocks).card ≤ maxopblocks)
    | _ => true
  | _ => true

def Roomy (g : Region) (s : State P) : Prop := s.lh.length + total Pc.pending s ≤ capacity g

theorem length_absorb_le (lh : List Nat) (b : Nat) : (absorb lh b).length ≤ lh.length + 1 := by
  unfold absorb
  split <;> simp

theorem mem_absorb (lh : List Nat) (b x : Nat) : x ∈ absorb lh b ↔ x ∈ lh ∨ x = b := by
  unfold absorb
  split
  · constructor
    · exact Or.inl
    · rintro (h | rfl) <;> assumption
  · simp

theorem Roomy.goto (h : Roomy g s) (p : P) (pc : Pc) (hpc : pc.pending ≤ (s.pc p).pending)
    (hlh : t.lh.length ≤ s.lh.length) (ht : total Pc.pending t = total Pc.pending (s.goto p pc)) :
    Roomy g t := by
  have hsum := total_goto Pc.pending s p pc
  unfold Roomy at h ⊢
  omega

theorem roomy_step (h : Roomy g s) (hok : testCounts g s a = true) (hst : Step g s a t) : Roomy g t := by
  cases hst with
  | sleep p hpc hfull => exact h.goto p .sleeping (Nat.zero_le _) le_rfl rfl
  | start p hpc hc hfits => exact h.goto p (.running _) (Nat.zero_le _) le_rfl rfl
  | modify p op b v hpc hfree => exact h.goto p (.modified op b) (Nat.zero_le _) le_rfl rfl
  | tooBig p op b hpc hfull => exact h
  | outside p op b hpc hout => exact h
  | test p op b hpc hlog hsize hout =>
      have hsum := total_goto Pc.pending s p (.tested op b)
      rw [hpc] at hsum
      simp only [testCounts, decide_eq_true_eq] at hok
      unfold Roomy
      simp only [Pc.pending] at hsum
      show s.lh.length + _ ≤ _
      omega
  | append p op b hpc =>
      have hsum := total_goto Pc.pending s p (.running { op with blocks := insert b op.blocks })
      rw [hpc] at hsum
      have hlen := length_absorb_le s.lh b
      unfold Roomy at h ⊢
      simp only [Pc.pending] at hsum
      show (absorb s.lh b).length + total Pc.pending (s.goto p _) ≤ _
      omega
  | panicEnd p op hpc hc => exact h
  | commit p op hpc hc hlast => exact h.goto p (.committing _) (Nat.zero_le _) le_rfl rfl
  | leave p op hpc hc hmore => exact h.goto p .idle (Nat.zero_le _) le_rfl (total_wakeup _ rfl _)
  | writeLog p tail hpc hlt => exact h.goto p (.committing _) (Nat.zero_le _) le_rfl rfl
  | logDone p tail hpc hge => exact h.goto p (.committing _) (Nat.zero_le _) le_rfl rfl
  | writeHead p hpc => exact h.goto p (.committing _) (Nat.zero_le _) le_rfl rfl
  | install p tail hpc hlt => exact h.goto p (.committing _) (Nat.zero_le _) le_rfl rfl
  | installDone p tail hpc hge => exact h.goto p (.committing _) (Nat.zero_le _) le_rfl rfl
  | clearHead p hpc => exact h.goto p (.committing _) (Nat.zero_le _) (Nat.zero_le _) rfl
  | release p hpc => exact h.goto p .idle (Nat.zero_le _) le_rfl (total_wakeup _ rfl _)
  | kill p hpc => exact h.goto p .waiting (Nat.zero_le _) le_rfl rfl
  | evict b hdirty hfree => exact h

theorem roomy_run {d : Disk} {as : List (Act P)}
    (hok : Along (step g) (fun s a => testCounts g s a = true) (boot P d) as)
    (hrun : run (step g) (boot P d) as = some s) : Roomy g s := by
  apply run_invariant (Roomy g) (fun s a t hs ha ht => roomy_step hs ha (step_cases ht).2) _ hok hrun
  simp [Roomy, boot, total, Pc.pending]

omit [Fintype P] in
theorem commit_writes {p : P} (hfit : s.lh.length ≤ g.size - 1) (hst : Step g s (.commit p) t) (b : Nat)
    (hb : t.disk b ≠ s.disk b) : (g.start ≤ b ∧ b ≤ g.start + (g.size - 1)) ∨ b ∈ s.lh := by
  have hupd (x : Nat) (v : Block) (hx : Function.update s.disk x v b ≠ s.disk b) : b = x := by
    by_contra hne
    exact hx (Function.update_of_ne hne _ _)
  cases hst with
  | writeLog _ tail hpc hlt =>
      have := hupd _ _ hb
      left
      omega
  | logDone | installDone | release => exact absurd rfl hb
  | writeHead hpc =>
      have := hupd _ _ hb
      left
      omega
  | install _ tail hpc hlt =>
      right
      rw [hupd _ _ hb]
      exact List.getElem_mem _
  | clearHead hpc =>
      have := hupd _ _ hb
      left
      omega

/-- While every test counts the appends still pending, the log stays within its region: the
header never records more than it holds, `write_log` and `install_trans` use the blocks after
the header up to the region's last one, and `commit` changes no block behind the region that
is not itself recorded. -/
theorem log_within_region {d : Disk} {as : List (Act P)}
    (hok : Along (step g) (fun s a => testCounts g s a = true) (boot P d) as)
    (hrun : run (step g) (boot P d) as = some s) :
    s.lh.length ≤ min logsize (g.size - 1) ∧
      (∀ p tail, s.pc p = .committing (.writeLog tail) ∨ s.pc p = .committing (.install tail) →
        tail < s.lh.length → g.start + tail + 1 ≤ g.start + (g.size - 1)) ∧
      ∀ p t, step g s (.commit p) = some t → ∀ b, t.disk b ≠ s.disk b →
        (g.start ≤ b ∧ b ≤ g.start + (g.size - 1)) ∨ b ∈ s.lh := by
  have hroom := roomy_run hok hrun
  have hle : s.lh.length ≤ min logsize (g.size - 1) := by
    unfold Roomy capacity at hroom
    omega
  refine ⟨hle, ?_, ?_⟩
  · intro p tail _ htail
    omega
  · intro p t ht b hb
    exact commit_writes (by omega) (step_cases ht).2 b hb

def logWrites (p : P) (v : Block) (bs : List Nat) : List (Act P) :=
  bs.flatMap fun b => [.modify p b v, .test p, .append p]

def zeroBlock : Block := fun _ => 0

def oneBlock : Block := fun _ => 1

def overlapRun : List (Act (Fin 2)) :=
  [.beginOp 0, .beginOp 1, .modify 0 100 oneBlock, .modify 1 200 oneBlock, .test 0, .test 1, .append 1, .append 0]

theorem log_within_region_overlapRun :
    ∃ s : State (Fin 2), run (step ⟨2, logsize⟩) (boot (Fin 2) fun _ => zeroBlock) overlapRun = some s ∧
      s.lh = [200, 100] ∧ s.lh.length ≤ min logsize (logsize - 1) := by
  have hrun : (run (step ⟨2, logsize⟩) (boot (Fin 2) fun _ => zeroBlock) overlapRun).any
      (fun s => decide (s.lh = [200, 100])) = true := by decide +kernel
  obtain ⟨s, hs, hlh⟩ := (Option.any_eq_true _ _).mp hrun
  refine ⟨s, hs, of_decide_eq_true hlh, ?_⟩
  exact (log_within_region (along_of_alongB (testCounts _) (fun _ _ h => h) (by decide +kernel)) hs).1

def overflowRun : List (Act (Fin 3)) :=
  [.beginOp 0, .beginOp 1, .beginOp 2] ++
    logWrites 0 oneBlock (List.range' 100 10) ++ logWrites 1 oneBlock (List.range' 200 9) ++
    logWrites 2 oneBlock (List.range' 300 9) ++
    [.modify 1 209 oneBlock, .modify 2 309 oneBlock, .test 1, .test 2, .append 1, .append 2]

/-- Although no operation passes more than `MAXOPBLOCKS` blocks, the header then records more blocks than the region
holds. All the buffers of the cache are dirty by then, so `commit` would panic in its first `bread`. -/
theorem log_leaves_region :
    ∃ s : State (Fin 3),
      run (step ⟨2, logsize⟩) (boot (Fin 3) fun _ => zeroBlock) overflowRun = some s ∧
      Along (step ⟨2, logsize⟩) (fun s a => opBound s a = true) (boot (Fin 3) fun _ => zeroBlock) overflowRun ∧
      s.lh.length = 30 ∧ ¬ s.lh.length ≤ min logsize (logsize - 1) := by
  have hrun : (run (step ⟨2, logsize⟩) (boot (Fin 3) fun _ => zeroBlock) overflowRun).any
      (fun s => decide (s.lh.length = 30)) = true := by decide +kernel
  obtain ⟨s, hs, h⟩ := (Option.any_eq_true _ _).mp hrun
  have hlen : s.lh.length = 30 := of_decide_eq_true h
  exact ⟨s, hs, along_of_alongB opBound (fun _ _ h => h) (by decide +kernel), hlen, by rw [hlen]; decide⟩

end Xv6.Log
