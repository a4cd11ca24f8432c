import Xv6.Lib.Ring
import Xv6.Lib.Runs

namespace Xv6.Console

open Lib

abbrev inputBuf : Nat := 128

structure Input where
  buf : Fin inputBuf → UInt8
  /-- Read index -/
  r : UInt32
  /-- Write index -/
  w : UInt32
  /-- Edit index -/
  e : UInt32

def ctrl (x : UInt8) : UInt8 := x - 64

namespace Input

def char (input : Input) (i : UInt32) : UInt8 := input.buf (Fin.ofNat inputBuf i.toNat)

def killLine (input : Input) : Input :=
  if input.e ≠ input.w ∧ input.char (input.e - 1) ≠ 10 then killLine { input with e := input.e - 1 } else input
termination_by (input.e - input.w).toNat
decreasing_by
  rename_i h
  have := Ring.size_back h.1.symm
  omega

def backspace (input : Input) : Input := if input.e ≠ input.w then { input with e := input.e - 1 } else input

/-- The default case of `consoleintr`. -/
def put (input : Input) (c : UInt8) : Input :=
  if c ≠ 0 ∧ input.e - input.r < 128 then
    let c := if c = 13 then 10 else c
    let input := { input with
      buf := Function.update input.buf (Fin.ofNat inputBuf input.e.toNat) c
      e := input.e + 1 }
    if c = 10 ∨ c = ctrl 68 ∨ input.e = input.r + 128 then { input with w := input.e } else input
  else input

/-- One round of `consoleintr`. -/
def key (input : Input) (c : UInt8) : Input :=
  if c = ctrl 90 then input
  else if c = ctrl 80 then input
  else if c = ctrl 85 then input.killLine
  else if c = ctrl 72 ∨ c = 127 then input.backspace
  else input.put c

def consoleintr (input : Input) (cs : List UInt8) : Input := cs.foldl key input

end Input

/-- A call of `consoleread`: `n` and `target`, and the bytes in `dst`. -/
structure Reading where
  n : Int32
  target : UInt32
  dst : List UInt8

inductive Outcome
  | sleeps (k : Reading)
  | returns (ret : Int32) (dst : List UInt8)

def Reading.finish (k : Reading) : Outcome := .returns (k.target - k.n.toUInt32).toInt32 k.dst

theorem toInt_pred {n : Int32} (h : 0 < n) : (n - 1).toInt = n.toInt - 1 := by
  have hpos := Int32.lt_iff_toInt_lt.mp h
  have hlt := n.toInt_lt
  rw [Int32.toInt_sub, Int32.toInt_one]
  rw [Int32.toInt_zero] at hpos
  exact Int.bmod_eq_of_le (by omega) (by omega)

/-- The loop of `consoleread`, until it returns or goes to sleep. -/
def readLoop (killed : Bool) (input : Input) (k : Reading) : Input × Outcome :=
  if h : 0 < k.n then
    if input.r = input.w then
      if killed then (input, .returns (-1) k.dst) else (input, .sleeps k)
    else
      let c := input.char input.r
      let input := { input with r := input.r + 1 }
      if c = ctrl 68 then
        -- saved for the next time if there are bytes before it
        if k.n.toUInt32 < k.target then ({ input with r := input.r - 1 }, k.finish) else (input, k.finish)
      else
        let k := { k with n := k.n - 1, dst := k.dst ++ [c] }
        if c = 10 then (input, k.finish) else readLoop killed input k
  else (input, k.finish)
termination_by k.n.toInt.toNat
decreasing_by
  have hpos := Int32.lt_iff_toInt_lt.mp h
  rw [Int32.toInt_zero] at hpos
  simp only [toInt_pred h]
  omega

/-- The console, the processes that are asleep in `consoleread`, and the calls that have returned. -/
structure State (P : Type) where
  input : Input
  reader : P → Option Reading
  returned : List (P × Int32 × List UInt8)

inductive Event (P : Type)
  | intr (cs : List UInt8)
  | read (p : P) (n : Int32) (killed : Bool)
  | wakeup (p : P) (killed : Bool)

def Event.killed {P : Type} : Event P → Bool
  | .intr _ => false
  | .read _ _ killed => killed
  | .wakeup _ killed => killed

def start {P : Type} (buf : Fin inputBuf → UInt8) : State P := ⟨⟨buf, 0, 0, 0⟩, fun _ => none, []⟩

variable {P : Type} [DecidableEq P]

def State.leave (s : State P) (p : P) : Input × Outcome → State P
  | (input, .sleeps k) => { s with input := input, reader := Function.update s.reader p (some k) }
  | (input, .returns ret dst) =>
      { input := input, reader := Function.update s.reader p none, returned := s.returned ++ [(p, ret, dst)] }

def step (s : State P) : Event P → Option (State P)
  | .intr cs => some { s with input := s.input.consoleintr cs }
  | .read p n killed =>
      match s.reader p with
      | none => some (s.leave p (readLoop killed s.input ⟨n, n.toUInt32, []⟩))
      | some _ => none
  | .wakeup p killed =>
      match s.reader p with
      | none => none
      | some k => some (s.leave p (readLoop killed s.input k))

end Xv6.Console
