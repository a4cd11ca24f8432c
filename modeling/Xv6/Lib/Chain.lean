import Mathlib

namespace Xv6.Lib

variable {B : Type} {next : B → Option B} {h : Option B} {b c : B} {l : List B}

def Chain (next : B → Option B) : Option B → List B → Prop
  | h, [] => h = none
  | h, b :: l => h = some b ∧ Chain next (next b) l

def lastNode (next : B → Option B) : Nat → B → Option B
  | 0, _ => none
  | n + 1, b =>
      match next b with
      | none => some b
      | some c => lastNode next n c

namespace Chain

theorem head_eq (hc : Chain next h l) : h = l.head? := by
  cases l with
  | nil => exact hc
  | cons b l => exact hc.1

theorem lastNode_eq {n : Nat} (hc : Chain next (some b) (b :: l)) (hn : l.length < n) :
    lastNode next n b = (b :: l).getLast? := by
  induction n generalizing b l with
  | zero => cases hn
  | succ n ih =>
      cases l with
      | nil =>
          have : next b = none := hc.2
          simp [lastNode, this]
      | cons c l =>
          have hb : next b = some c := hc.2.1
          have := ih (b := c) (l := l) ⟨rfl, hc.2.2⟩ (by simpa using hn)
          simpa [lastNode, hb, List.getLast?_cons_cons] using this

variable [DecidableEq B]

theorem update (hc : Chain next h l) (hb : b ∉ l) (o : Option B) : Chain (Function.update next b o) h l := by
  induction l generalizing h with
  | nil => exact hc
  | cons c l ih =>
      rw [List.mem_cons, not_or] at hb
      refine ⟨hc.1, ?_⟩
      rw [Function.update_of_ne (Ne.symm hb.1)]
      exact ih hc.2 hb.2

theorem append (hc : Chain next h l) (hnodup : l.Nodup) (hlast : l.getLast? = some c) (hb : b ∉ l)
    (hnone : next b = none) :
    Chain (Function.update next c (some b)) h (l ++ [b]) := by
  induction l generalizing h with
  | nil => cases hlast
  | cons d l ih =>
      rw [List.mem_cons, not_or] at hb
      refine ⟨hc.1, ?_⟩
      cases l with
      | nil =>
          obtain rfl : d = c := by simpa using hlast
          rw [Function.update_self]
          refine ⟨rfl, ?_⟩
          rw [Function.update_of_ne hb.1]
          exact hnone
      | cons e l =>
          rw [List.getLast?_cons_cons] at hlast
          have hdc : d ≠ c := by
            rintro rfl
            exact (List.nodup_cons.mp hnodup).1 (List.mem_of_getLast? hlast)
          rw [Function.update_of_ne hdc]
          exact ih hc.2 (List.nodup_cons.mp hnodup).2 hlast hb.2

end Chain

end Xv6.Lib
