import Xv6.Param
import Xv6.Lib.BlockWrites

namespace Xv6.Log

open Lib.Bytes Lib.BlockWrites
open Function (update update_of_ne update_self)

/-- `log.start` and `log.size`, as `initlog` takes them from the superblock. -/
structure Region where
  start : Nat
  size : Nat
  deriving DecidableEq, Repr

def Region.Home (g : Region) (b : Nat) : Prop := b < g.start ∨ g.start + g.size ≤ b

instance (g : Region) (b : Nat) : Decidable (g.Home b) :=
  inferInstanceAs (Decidable (b < g.start ∨ g.start + g.size ≤ b))

def headCount (buf : Block) : Nat := if getWord buf 0 < 2 ^ 31 then getWord buf 0 else 0

def readHead (buf : Block) : List Nat := getWords buf 4 (headCount buf)

def writeHead (lh : List Nat) (buf : Block) : Block := putWords (putWord buf 0 lh.length) 4 lh

theorem readHead_writeHead (lh : List Nat) (buf : Block) (hn : lh.length ≤ logsize)
    (hb : ∀ b ∈ lh, b < 2 ^ 32) : readHead (writeHead lh buf) = lh := by
  have hlen : lh.length ≤ 30 := hn
  have hcount : headCount (writeHead lh buf) = lh.length := by
    have hword : getWord (writeHead lh buf) 0 = lh.length := by
      rw [writeHead, getWord_putWords_before _ _ _ _ (by omega) (by decide)]
      exact getWord_putWord_self _ _ _ (by decide) (by omega)
    rw [headCount, hword, if_pos (by omega)]
  rw [readHead, hcount]
  exact getWords_putWords_self _ _ _ (by unfold bsize; omega) hb

theorem readHead_writeHead_nil (buf : Block) : readHead (writeHead [] buf) = [] :=
  readHead_writeHead [] buf (by simp) (by simp)

/-- `install_trans` from entry `tail` on: the block writes it issues, each reading its log
block from the disk as the earlier writes left it. -/
def installTrans (g : Region) : Nat → List Nat → Disk → List (Nat × Block)
  | _, [], _ => []
  | tail, b :: lh, d =>
      let v := d (g.start + tail + 1)
      (b, v) :: installTrans g (tail + 1) lh (update d b v)

def recoverFromLog (g : Region) (d : Disk) : List (Nat × Block) :=
  let ws := installTrans g 0 (readHead (d g.start)) d
  ws ++ [(g.start, writeHead [] (applyWrites ws d g.start))]

/-- Recovery of a disk that may itself be cut short by a crash after any number of its
writes and then starts again, any number of times. -/
inductive Recovers (g : Region) : Disk → Disk → Prop
  | done (d : Disk) : Recovers g d (applyWrites (recoverFromLog g d) d)
  | crash (d d' : Disk) (m : Nat) (h : Recovers g (applyWrites ((recoverFromLog g d).take m) d) d') :
      Recovers g d d'

def logged (g : Region) : Nat → List Nat → Disk → List (Nat × Block)
  | _, [], _ => []
  | tail, b :: lh, d => (b, d (g.start + tail + 1)) :: logged g (tail + 1) lh d

theorem map_fst_logged (g : Region) (tail : Nat) (lh : List Nat) (d : Disk) :
    (logged g tail lh d).map Prod.fst = lh := by
  induction lh generalizing tail with
  | nil => rfl
  | cons b lh ih => simp [logged, ih]

theorem length_logged (g : Region) (tail : Nat) (lh : List Nat) (d : Disk) :
    (logged g tail lh d).length = lh.length := by
  rw [← List.length_map (f := Prod.fst), map_fst_logged]

theorem mem_logged (g : Region) (tail i : Nat) (lh : List Nat) (d : Disk) (hi : i < lh.length) :
    (lh[i], d (g.start + (tail + i) + 1)) ∈ logged g tail lh d := by
  induction lh generalizing tail i with
  | nil => simp at hi
  | cons b lh ih =>
      cases i with
      | zero => simp [logged]
      | succ i =>
          have h := ih (tail + 1) i (by simpa using hi)
          rw [show tail + 1 + i = tail + (i + 1) by omega] at h
          exact List.mem_cons_of_mem _ h

theorem logged_congr (g : Region) (tail : Nat) (lh : List Nat) (c d : Disk)
    (h : ∀ i, i < lh.length → c (g.start + (tail + i) + 1) = d (g.start + (tail + i) + 1)) :
    logged g tail lh c = logged g tail lh d := by
  induction lh generalizing tail with
  | nil => rfl
  | cons b lh ih =>
      have hhead := h 0 (by simp)
      have htail := ih (tail + 1) (fun i hi => by
        rw [show tail + 1 + i = tail + (i + 1) by omega]
        exact h (i + 1) (by simpa using hi))
      simp only [Nat.add_zero] at hhead
      rw [logged, logged, hhead, htail]

/-- The log of a disk is in order: its entries are home blocks and fit in the region. -/
structure WellFormed (g : Region) (d : Disk) : Prop where
  fits : (readHead (d g.start)).length < g.size ∨ readHead (d g.start) = []
  home : ∀ b ∈ readHead (d g.start), g.Home b

theorem installTrans_eq_logged (g : Region) (tail : Nat) (lh : List Nat) (d : Disk)
    (hfits : tail + lh.length < g.size ∨ lh = []) (hhome : ∀ b ∈ lh, g.Home b) :
    installTrans g tail lh d = logged g tail lh d := by
  induction lh generalizing tail d with
  | nil => rfl
  | cons b lh ih =>
      simp only [List.length_cons, reduceCtorEq, or_false] at hfits
      have hb := hhome b (by simp)
      rw [installTrans, logged, ih _ _ (Or.inl (by omega)) (fun x hx => hhome x (by simp [hx]))]
      rw [logged_congr]
      intro i hi
      apply update_of_ne
      unfold Region.Home at hb
      omega

def redone (g : Region) (d : Disk) : Disk := applyWrites (logged g 0 (readHead (d g.start)) d) d

theorem recoverFromLog_eq (g : Region) (d : Disk) (h : WellFormed g d) :
    recoverFromLog g d = logged g 0 (readHead (d g.start)) d ++
      [(g.start, writeHead [] (redone g d g.start))] := by
  have hinstall := installTrans_eq_logged g 0 (readHead (d g.start)) d (by simpa using h.fits) h.home
  simp only [recoverFromLog, hinstall, redone]

theorem logged_outside (g : Region) (tail : Nat) (lh : List Nat) (d : Disk) (x : Nat)
    (hhome : ∀ b ∈ lh, g.Home b) (hx : ¬ g.Home x) :
    ∀ w ∈ logged g tail lh d, w.1 ≠ x := by
  intro w hw hwx
  have hmem : w.1 ∈ lh := by
    rw [← map_fst_logged g tail lh d]
    exact List.mem_map_of_mem hw
  exact hx (hwx ▸ hhome _ hmem)

theorem redone_of_empty (g : Region) (d : Disk) (h : readHead (d g.start) = []) : redone g d = d := by
  rw [redone, h]
  rfl

theorem applyWrites_recoverFromLog (g : Region) (d : Disk) (h : WellFormed g d) :
    applyWrites (recoverFromLog g d) d =
      update (redone g d) g.start (writeHead [] (redone g d g.start)) := by
  rw [recoverFromLog_eq g d h, applyWrites_append]
  rfl

theorem redone_of_crash (g : Region) (d : Disk) (h : WellFormed g d) (m : Nat) (hsize : 0 < g.size) :
    WellFormed g (applyWrites ((recoverFromLog g d).take m) d) ∧
      ∀ b, g.Home b → redone g (applyWrites ((recoverFromLog g d).take m) d) b = redone g d b := by
  have hlen := length_logged g 0 (readHead (d g.start)) d
  have hstart : ¬ g.Home g.start := by unfold Region.Home; omega
  by_cases hm : m ≤ (readHead (d g.start)).length
  · -- The header is still there, so the second recovery redoes every entry.
    have htake : (recoverFromLog g d).take m = (logged g 0 (readHead (d g.start)) d).take m := by
      rw [recoverFromLog_eq g d h, List.take_append_of_le_length (by omega)]
    have hkeep : ∀ x, ¬ g.Home x → applyWrites ((recoverFromLog g d).take m) d x = d x := by
      intro x hx
      rw [htake]
      apply applyWrites_of_notMem
      intro w hw
      exact logged_outside g 0 _ d x h.home hx w (List.mem_of_mem_take hw)
    have hhead := hkeep g.start hstart
    have hlog : logged g 0 (readHead (d g.start)) (applyWrites ((recoverFromLog g d).take m) d) =
        logged g 0 (readHead (d g.start)) d := by
      apply logged_congr
      intro i hi
      apply hkeep
      unfold Region.Home
      rcases h.fits with hf | hf
      · omega
      · simp [hf] at hi
    refine ⟨⟨?_, ?_⟩, ?_⟩
    · rw [hhead]; exact h.fits
    · rw [hhead]; exact h.home
    · intro b _
      rw [redone, hhead, hlog, htake, redone]
      exact applyWrites_take_redo _ _ _ _
  · -- Every write was done: the header is empty and the home blocks are final.
    have htake : (recoverFromLog g d).take m = recoverFromLog g d := by
      apply List.take_of_length_le
      rw [recoverFromLog_eq g d h]
      simp only [List.length_append, List.length_singleton]
      omega
    rw [htake, applyWrites_recoverFromLog g d h]
    have hempty : readHead (update (redone g d) g.start
        (writeHead [] (redone g d g.start)) g.start) = [] := by
      rw [update_self, readHead_writeHead_nil]
    refine ⟨⟨Or.inr hempty, ?_⟩, ?_⟩
    · rw [hempty]; simp
    · intro b hb
      rw [redone_of_empty g _ hempty, update_of_ne]
      intro hbs
      exact hstart (hbs ▸ hb)

/-- Recovery, however often it is itself interrupted, ends with an empty log and every home
block as the log on the crashed disk says. -/
theorem recovers_correct (g : Region) (hsize : 0 < g.size) {d d' : Disk} (h : Recovers g d d')
    (hd : WellFormed g d) :
    readHead (d' g.start) = [] ∧ ∀ b, g.Home b → d' b = redone g d b := by
  induction h with
  | done d =>
      rw [applyWrites_recoverFromLog g d hd]
      refine ⟨by rw [update_self, readHead_writeHead_nil], ?_⟩
      intro b hb
      apply update_of_ne
      rintro rfl
      unfold Region.Home at hb
      omega
  | crash d d' m _ ih =>
      obtain ⟨hwf, hsame⟩ := redone_of_crash g d hd m hsize
      obtain ⟨hempty, hhome⟩ := ih hwf
      exact ⟨hempty, fun b hb => (hhome b hb).trans (hsame b hb)⟩

end Xv6.Log
