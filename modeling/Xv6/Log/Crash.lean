import Xv6.Log.History
import Xv6.Log.Capacity
import Mathlib

namespace Xv6.Log

open Lib.BlockWrites Lib.Runs

variable {P : Type} {g : Region} {d : Disk} {s t : State P} {a : Act P}

/-- What the transactions of a run keep to: they change home blocks (numbered by a `uint`)
and record no more of them than the header and the region hold. -/
def keepsLog (g : Region) (s : State P) : Act P → Bool
  | .modify _ b _ => decide (g.Home b ∧ b < 2 ^ 32)
  | .append p => match s.pc p with
    | .tested _ b => decide ((absorb s.lh b).length ≤ capacity g)
    | _ => true
  | _ => true

def State.new (s : State P) (d : Disk) : Disk := replay d s.hist.trace

def State.old (s : State P) (d : Disk) : Disk := s.hist.stateAfter d s.hist.finished

/-- The header on disk is empty and the home blocks hold the finished commits. -/
structure Settled (g : Region) (d : Disk) (s : State P) : Prop where
  header : readHead (s.disk g.start) = []
  home : ∀ b, g.Home b → s.disk b = s.old d b

def Copied (g : Region) (d : Disk) (s : State P) (n : Nat) : Prop :=
  ∀ i (hi : i < s.lh.length), i < n → s.disk (g.start + i + 1) = s.new d s.lh[i]

/-- The header is written, so the transaction will be redone; its first `n` blocks are home. -/
structure Committed (g : Region) (d : Disk) (s : State P) (n : Nat) : Prop where
  header : readHead (s.disk g.start) = s.lh
  copied : Copied g d s s.lh.length
  home : ∀ b, g.Home b → b ∈ s.lh.take n → s.disk b = s.new d b
  rest : ∀ b, g.Home b → b ∉ s.lh → s.disk b = s.old d b

def AtStage (g : Region) (d : Disk) (s : State P) : Stage → Prop
  | .writeLog tail => s.hist.commits = s.hist.finished + 1 ∧ Settled g d s ∧ Copied g d s tail
  | .writeHead => s.hist.commits = s.hist.finished + 1 ∧ Settled g d s ∧ Copied g d s s.lh.length
  | .install tail => s.hist.commits = s.hist.finished + 1 ∧ Committed g d s tail
  | .clearHead => s.hist.commits = s.hist.finished + 1 ∧ Committed g d s s.lh.length
  | .release => s.hist.commits = s.hist.finished ∧ Settled g d s

theorem AtStage.counts {st : Stage} (h : AtStage g d s st) : s.hist.finished ≤ s.hist.commits := by
  cases st <;> have := h.1 <;> omega

/-- The recorded blocks are those the current epoch has logged; they are different home
blocks and fit in the log. -/
structure Recorded (g : Region) (s : State P) : Prop where
  nodup : s.lh.Nodup
  fits : s.lh.length ≤ capacity g
  mem : ∀ b, b ∈ s.lh ↔ ∃ w ∈ s.hist.trace, w.block = b ∧ s.hist.epoch w.op = s.hist.finished
  home : ∀ b ∈ s.lh, g.Home b ∧ b < 2 ^ 32

/-- Operations in progress belong to the current epoch, and no operation to a later one. -/
structure Epochs (s : State P) : Prop where
  le : ∀ e ∈ s.hist.epochs, e ≤ s.hist.finished
  logged : ∀ w ∈ s.hist.trace, w.op < s.hist.epochs.length
  current : ∀ p op, (s.pc p).op? = some op →
    op.no < s.hist.epochs.length ∧ s.hist.epoch op.no = s.hist.finished

/-- Buffers nobody has locked hold the logged data; the clean ones agree with the disk. -/
structure Cached (g : Region) (d : Disk) (s : State P) : Prop where
  held : ∀ p b, (s.pc p).held? = some b → g.Home b ∧ b < 2 ^ 32
  unique : ∀ p q b, (s.pc p).held? = some b → (s.pc q).held? = some b → p = q
  data : ∀ b, g.Home b → ¬ Held s b → s.cache b = s.new d b
  dirty : ∀ b, s.dirty b = true → g.Home b
  clean : ∀ b, ¬ Held s b → s.dirty b = false → s.cache b = s.disk b

structure CrashInv [Fintype P] (g : Region) (d : Disk) (s : State P) : Prop where
  occ : Occupancy s
  epochs : Epochs s
  recorded : Recorded g s
  cached : Cached g d s
  quiet : s.committing = false → s.hist.commits = s.hist.finished ∧ Settled g d s
  stage : ∀ p st, s.pc p = .committing st → AtStage g d s st

theorem Epochs.epoch_le (h : Epochs s) (no : Nat) : s.hist.epoch no ≤ s.hist.finished := by
  by_cases hno : no < s.hist.epochs.length
  · rw [Hist.epoch, List.getD_eq_getElem _ _ hno]
    exact h.le _ (List.getElem_mem hno)
  · rw [Hist.epoch, List.getD_eq_default _ _ (not_lt.mp hno)]
    exact Nat.zero_le _

theorem new_eq_old (he : Epochs s) (hr : Recorded g s) {b : Nat} (hb : b ∉ s.lh) : s.old d b = s.new d b := by
  apply stateAfter_of_unwritten
  intro w hw hwb
  have hle := he.epoch_le w.op
  have hne : s.hist.epoch w.op ≠ s.hist.finished := fun heq => hb ((hr.mem b).mpr ⟨w, hw, hwb, heq⟩)
  omega

theorem new_eq_stateAfter (he : Epochs s) : s.new d = s.hist.stateAfter d (s.hist.finished + 1) := by
  refine (stateAfter_all ?_).symm
  intro w _
  exact Nat.lt_succ_of_le (he.epoch_le w.op)

theorem Settled.redone (h : Settled g d s) : ∀ b, g.Home b → redone g s.disk b = s.old d b := by
  intro b hb
  rw [redone_of_empty g s.disk h.header]
  exact h.home b hb

theorem Committed.redone {n : Nat} (h : Committed g d s n) (he : Epochs s) (hr : Recorded g s) :
    ∀ b, g.Home b → redone g s.disk b = s.new d b := by
  intro b hb
  have hkeys : ((logged g 0 s.lh s.disk).map Prod.fst).Nodup := by
    rw [map_fst_logged]
    exact hr.nodup
  rw [Log.redone, h.header]
  by_cases hmem : b ∈ s.lh
  · obtain ⟨i, hi, rfl⟩ := List.mem_iff_getElem.mp hmem
    have hlog := mem_logged g 0 i s.lh s.disk hi
    rw [Nat.zero_add, h.copied i hi hi] at hlog
    exact applyWrites_of_mem _ _ hkeys hlog
  · rw [applyWrites_of_notMem, h.rest b hb hmem, new_eq_old he hr hmem]
    intro w hw hwb
    apply hmem
    rw [← hwb, ← map_fst_logged g 0 s.lh s.disk]
    exact List.mem_map_of_mem hw

end Xv6.Log
