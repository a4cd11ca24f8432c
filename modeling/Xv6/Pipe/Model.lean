import Xv6.Kernel.Model
import Xv6.Lib.Ring
import Xv6.Lib.Runs

namespace Xv6.Pipe

open Function (update)

/-- Where a process is. In `reading` and `writing` it is at an `acquire` of the pipe's lock, on entry or
after a wakeup. In `readTest`, `readCopy`, `readDone` and `writeLoop` it holds the lock; a
writer has stored `i` bytes, `j` of them before it last took the lock. -/
inductive Pc
  | idle
  | reading (n : Int)
  | readTest (n : Int)
  | readSleep (n : Int)
  | readCopy (n : Int) (got : List UInt8)
  | readDone (n : Int) (got : List UInt8)
  | writing (addr : Nat → UInt8) (n : Int) (i : Nat)
  | writeLoop (addr : Nat → UInt8) (n : Int) (i j : Nat)
  | writeSleep (addr : Nat → UInt8) (n : Int) (i : Nat)
  | returned (r : Int)

def Pc.holds : Pc → Bool
  | .readTest _ | .readCopy _ _ | .readDone _ _ | .writeLoop _ _ _ _ => true
  | _ => false

def Pc.readSleeps : Pc → Bool
  | .readSleep _ => true
  | _ => false

def Pc.writeSleeps : Pc → Bool
  | .writeSleep _ _ _ => true
  | _ => false

def Pc.readLength : Pc → Option Int
  | .reading n | .readTest n | .readSleep n | .readCopy n _ | .readDone n _ => some n
  | _ => none

def Pc.outside : Pc → Bool
  | .idle | .returned _ => true
  | _ => false

def Pc.wakeRead : Pc → Pc
  | .readSleep n => .reading n
  | pc => pc

def Pc.wakeWrite : Pc → Pc
  | .writeSleep addr n i => .writing addr n i
  | pc => pc

/-- A pipe with its lock and the processes that use it. `stored` and `delivered` list the bytes that
went into the ring and out of it; the kernel does not keep them. -/
structure State (P : Type) where
  pipe : Kernel.Pipe
  lock : Option P
  pc : P → Pc
  killed : P → Bool
  stored : List UInt8
  delivered : List UInt8

variable {P : Type}

def start (data : Fin pipesize → UInt8) : State P where
  pipe := ⟨data, 0, 0, true, true⟩
  lock := none
  pc := fun _ => .idle
  killed := fun _ => false
  stored := []
  delivered := []

namespace State

variable [DecidableEq P]

def goto (s : State P) (p : P) (pc : Pc) : State P := { s with pc := update s.pc p pc }

omit [DecidableEq P] in
def wakeRead (s : State P) : State P := { s with pc := fun q => (s.pc q).wakeRead }

omit [DecidableEq P] in
def wakeWrite (s : State P) : State P := { s with pc := fun q => (s.pc q).wakeWrite }

omit [DecidableEq P] in
def release (s : State P) : State P := { s with lock := none }

def take (s : State P) (p : P) (n : Int) (got : List UInt8) : State P :=
  { s with
    pipe := { s.pipe with nread := s.pipe.nread + 1 }
    delivered := s.delivered ++ [s.pipe.data (Fin.ofNat pipesize s.pipe.nread.toNat)] }.goto p
      (.readCopy n (got ++ [s.pipe.data (Fin.ofNat pipesize s.pipe.nread.toNat)]))

def put (s : State P) (p : P) (addr : Nat → UInt8) (n : Int) (i j : Nat) : State P :=
  { s with
    pipe := { s.pipe with
      data := update s.pipe.data (Fin.ofNat pipesize s.pipe.nwrite.toNat) (addr i)
      nwrite := s.pipe.nwrite + 1 }
    stored := s.stored ++ [addr i] }.goto p (.writeLoop addr n (i + 1) j)

omit [DecidableEq P] in
def closeEnd (s : State P) (writable : Bool) : State P :=
  if writable then { s with pipe := { s.pipe with writeopen := false } }.wakeRead
  else { s with pipe := { s.pipe with readopen := false } }.wakeWrite

end State

def Full (x : Kernel.Pipe) : Prop := x.nwrite = x.nread + 512

def Empty (x : Kernel.Pipe) : Prop := x.nread = x.nwrite

instance (x : Kernel.Pipe) : Decidable (Full x) := inferInstanceAs (Decidable (_ = _))

instance (x : Kernel.Pipe) : Decidable (Empty x) := inferInstanceAs (Decidable (_ = _))

inductive Act (P : Type)
  | read (p : P) (n : Int)
  | write (p : P) (addr : Nat → UInt8) (n : Int)
  | acquire (p : P)
  | run (p : P)
  | close (writable : Bool)
  | kill (p : P)

variable [DecidableEq P]

def runLocked (s : State P) (p : P) : Pc → Option (State P)
  | .readTest n =>
      if Empty s.pipe ∧ s.pipe.writeopen = true then
        if s.killed p then some ((s.goto p (.returned (-1))).release)
        else some ((s.goto p (.readSleep n)).release)
      else some (s.goto p (.readCopy n []))
  | .readCopy n got =>
      if (got.length : Int) < n ∧ ¬ Empty s.pipe then some (s.take p n got) else some (s.goto p (.readDone n got))
  | .readDone _ got => some ((s.goto p (.returned got.length)).wakeWrite.release)
  | .writeLoop addr n i j =>
      if (i : Int) < n then
        if Full s.pipe then
          if s.pipe.readopen = false ∨ s.killed p = true then some ((s.goto p (.returned (-1))).release)
          else some ((s.wakeRead.goto p (.writeSleep addr n i)).release)
        else some (s.put p addr n i j)
      else some ((s.goto p (.returned n)).wakeRead.release)
  | _ => none

/-- One step; a critical section of `pipeclose` is a single step. -/
def step (s : State P) : Act P → Option (State P)
  | .read p n => if (s.pc p).outside then some (s.goto p (.reading n)) else none
  | .write p addr n => if (s.pc p).outside then some (s.goto p (.writing addr n 0)) else none
  | .acquire p =>
      if s.lock.isSome then none
      else match s.pc p with
        | .reading n => some { s.goto p (.readTest n) with lock := some p }
        | .writing addr n i => some { s.goto p (.writeLoop addr n i i) with lock := some p }
        | _ => none
  | .run p => runLocked s p (s.pc p)
  | .close w => if s.lock.isSome then none else some (s.closeEnd w)
  | .kill p =>
      some { s with
        killed := update s.killed p true
        pc := update s.pc p (s.pc p).wakeRead.wakeWrite }

inductive Step (s : State P) : Act P → State P → Prop
  | read (p n) (hpc : (s.pc p).outside = true) : Step s (.read p n) (s.goto p (.reading n))
  | write (p addr n) (hpc : (s.pc p).outside = true) : Step s (.write p addr n) (s.goto p (.writing addr n 0))
  | acquireRead (p n) (hpc : s.pc p = .reading n) (hl : s.lock = none) :
      Step s (.acquire p) { s.goto p (.readTest n) with lock := some p }
  | acquireWrite (p addr n i) (hpc : s.pc p = .writing addr n i) (hl : s.lock = none) :
      Step s (.acquire p) { s.goto p (.writeLoop addr n i i) with lock := some p }
  | readKilled (p n) (hpc : s.pc p = .readTest n) (he : Empty s.pipe) (hw : s.pipe.writeopen = true)
      (hk : s.killed p = true) : Step s (.run p) ((s.goto p (.returned (-1))).release)
  | readSleep (p n) (hpc : s.pc p = .readTest n) (he : Empty s.pipe) (hw : s.pipe.writeopen = true) :
      Step s (.run p) ((s.goto p (.readSleep n)).release)
  | readStart (p n) (hpc : s.pc p = .readTest n) (he : Empty s.pipe → s.pipe.writeopen = false) :
      Step s (.run p) (s.goto p (.readCopy n []))
  | take (p n got) (hpc : s.pc p = .readCopy n got) (hn : (got.length : Int) < n) (he : ¬ Empty s.pipe) :
      Step s (.run p) (s.take p n got)
  | readStop (p n got) (hpc : s.pc p = .readCopy n got) (hn : (got.length : Int) < n → Empty s.pipe) :
      Step s (.run p) (s.goto p (.readDone n got))
  | readReturn (p n got) (hpc : s.pc p = .readDone n got) :
      Step s (.run p) ((s.goto p (.returned got.length)).wakeWrite.release)
  | giveUp (p addr n i j) (hpc : s.pc p = .writeLoop addr n i j) (hi : (i : Int) < n) (hf : Full s.pipe)
      (hr : s.pipe.readopen = false ∨ s.killed p = true) : Step s (.run p) ((s.goto p (.returned (-1))).release)
  | writeSleep (p addr n i j) (hpc : s.pc p = .writeLoop addr n i j) (hf : Full s.pipe)
      (hr : s.pipe.readopen = true) : Step s (.run p) ((s.wakeRead.goto p (.writeSleep addr n i)).release)
  | put (p addr n i j) (hpc : s.pc p = .writeLoop addr n i j) (hf : ¬ Full s.pipe) :
      Step s (.run p) (s.put p addr n i j)
  | writeReturn (p addr n i j) (hpc : s.pc p = .writeLoop addr n i j) (hi : n ≤ i) :
      Step s (.run p) ((s.goto p (.returned n)).wakeRead.release)
  | close (w) (hl : s.lock = none) : Step s (.close w) (s.closeEnd w)
  | kill (p) : Step s (.kill p) { s with
      killed := update s.killed p true
      pc := update s.pc p (s.pc p).wakeRead.wakeWrite }

theorem step_cases {s t : State P} {a : Act P} (h : step s a = some t) : Step s a t := by
  cases a with
  | read p n =>
      simp only [step, Option.ite_none_right_eq_some, Option.some.injEq] at h
      exact h.2 ▸ .read p n h.1
  | write p addr n =>
      simp only [step, Option.ite_none_right_eq_some, Option.some.injEq] at h
      exact h.2 ▸ .write p addr n h.1
  | acquire p =>
      simp only [step, Option.ite_none_left_eq_some] at h
      obtain ⟨hl, h⟩ := h
      rw [Option.not_isSome_iff_eq_none] at hl
      split at h
      next n hpc => exact Option.some.inj h ▸ .acquireRead p n hpc hl
      next addr n i hpc => exact Option.some.inj h ▸ .acquireWrite p addr n i hpc hl
      next => cases h
  | run p =>
      simp only [step] at h
      cases hpc : s.pc p with
      | readTest n =>
          rw [hpc, runLocked] at h
          split at h
          next he =>
            split at h
            next hk => exact Option.some.inj h ▸ .readKilled p n hpc he.1 he.2 hk
            next => exact Option.some.inj h ▸ .readSleep p n hpc he.1 he.2
          next he =>
            refine Option.some.inj h ▸ .readStart p n hpc fun hemp => ?_
            exact Bool.eq_false_iff.mpr fun hw => he ⟨hemp, hw⟩
      | readCopy n got =>
          rw [hpc, runLocked] at h
          split at h
          next hn => exact Option.some.inj h ▸ .take p n got hpc hn.1 hn.2
          next hn => exact Option.some.inj h ▸ .readStop p n got hpc fun hlt => not_not.mp fun he => hn ⟨hlt, he⟩
      | readDone n got =>
          rw [hpc, runLocked] at h
          exact Option.some.inj h ▸ .readReturn p n got hpc
      | writeLoop addr n i j =>
          rw [hpc, runLocked] at h
          split at h
          next hi =>
            split at h
            next hf =>
              split at h
              next hr => exact Option.some.inj h ▸ .giveUp p addr n i j hpc hi hf hr
              next hr =>
                rw [not_or, Bool.not_eq_false] at hr
                exact Option.some.inj h ▸ .writeSleep p addr n i j hpc hf hr.1
            next hf => exact Option.some.inj h ▸ .put p addr n i j hpc hf
          next hi => exact Option.some.inj h ▸ .writeReturn p addr n i j hpc (not_lt.mp hi)
      | _ =>
          rw [hpc] at h
          cases h
  | close w =>
      simp only [step, Option.ite_none_left_eq_some, Option.some.injEq] at h
      exact h.2 ▸ .close w (Option.not_isSome_iff_eq_none.mp h.1)
  | kill p => exact Option.some.inj h ▸ .kill p

end Xv6.Pipe
