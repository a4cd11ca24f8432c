import Xv6.Log.Occupancy

namespace Xv6.Log

open Lib.BlockWrites

def replay (d : Disk) (ws : List Write) : Disk := applyWrites (ws.map fun w => (w.block, w.data)) d

def Hist.epoch (h : Hist) (no : Nat) : Nat := h.epochs.getD no 0

/-- The home blocks after the first `k` commits: the writes of exactly the operations whose
epoch is below `k`, in the order of their `log_write` calls. -/
def Hist.stateAfter (h : Hist) (d : Disk) (k : Nat) : Disk :=
  replay d (h.trace.filter fun w => decide (h.epoch w.op < k))

theorem replay_append (d : Disk) (ws : List Write) (w : Write) :
    replay d (ws ++ [w]) = Function.update (replay d ws) w.block w.data := by
  simp only [replay, List.map_append, applyWrites_append]
  rfl

variable {h : Hist} {d : Disk}

theorem epoch_append {e no : Nat} (hno : no < h.epochs.length) :
    ({ h with epochs := h.epochs ++ [e] } : Hist).epoch no = h.epoch no := by
  simp [Hist.epoch, List.getD_eq_getElem?_getD, List.getElem?_append_left hno]

theorem stateAfter_congr {h' : Hist} {k : Nat} (ht : h'.trace = h.trace)
    (he : ∀ w ∈ h.trace, h'.epoch w.op = h.epoch w.op) : h'.stateAfter d k = h.stateAfter d k := by
  unfold Hist.stateAfter
  rw [ht]
  congr 1
  apply List.filter_congr
  intro w hw
  rw [he w hw]

theorem stateAfter_append {h' : Hist} {k : Nat} {w : Write} (he : h'.epochs = h.epochs)
    (ht : h'.trace = h.trace ++ [w]) (hw : k ≤ h.epoch w.op) : h'.stateAfter d k = h.stateAfter d k := by
  have hep : h'.epoch = h.epoch := by
    funext no
    simp [Hist.epoch, he]
  have hdrop : ¬ h.epoch w.op < k := by omega
  simp [Hist.stateAfter, ht, hep, List.filter_append, hdrop]

theorem stateAfter_all {k : Nat} (hk : ∀ w ∈ h.trace, h.epoch w.op < k) :
    h.stateAfter d k = replay d h.trace := by
  rw [Hist.stateAfter, List.filter_eq_self.mpr]
  intro w hw
  exact decide_eq_true (hk w hw)

theorem stateAfter_of_unwritten {k b : Nat} (hb : ∀ w ∈ h.trace, w.block = b → h.epoch w.op < k) :
    h.stateAfter d k b = replay d h.trace b := by
  apply applyWrites_map_filter
  intro w hw hwb
  exact decide_eq_true (hb w hw hwb)

end Xv6.Log
