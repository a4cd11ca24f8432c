import Xv6.Console.Model

namespace Xv6.Console

open Lib
open Function (update update_of_ne update_self)

/-- A line-edited queue of bytes, and the processes that read from it. `log` lists all that has been committed,
`taken` what has been taken out again, and by whom. -/
structure Line (P : Type) where
  committed : List UInt8
  pending : List UInt8
  /-- How many more bytes a process wants, and what it has got -/
  reader : P → Option (Nat × List UInt8)
  returned : List (P × List UInt8)
  log : List UInt8
  taken : List (P × UInt8)

inductive Read
  | waits (n : Nat) (got : List UInt8)
  | ends (got : List UInt8)

/-- What a read becomes, what it takes and what it leaves. It ends after a newline, and before or at an end of
file. -/
def takeLine : (n : Nat) → (got committed : List UInt8) → Read × List UInt8 × List UInt8
  | 0, got, committed => (.ends got, [], committed)
  | n + 1, got, [] => (.waits (n + 1) got, [], [])
  | n + 1, got, c :: rest =>
      if c = ctrl 68 then
        if got = [] then (.ends [], [c], rest) else (.ends got, [], c :: rest)
      else if c = 10 then (.ends (got ++ [c]), [c], rest)
      else
        let r := takeLine n (got ++ [c]) rest
        (r.1, c :: r.2.1, r.2.2)

namespace Line

variable {P : Type}

def start : Line P := ⟨[], [], fun _ => none, [], [], []⟩

def commit (l : Line P) (cs : List UInt8) : Line P :=
  { l with committed := l.committed ++ cs, pending := [], log := l.log ++ cs }

def enter (l : Line P) (c : UInt8) : Line P :=
  if c = 0 ∨ l.committed.length + l.pending.length = inputBuf then l
  else
    let c := if c = 13 then 10 else c
    let pending := l.pending ++ [c]
    if c = 10 ∨ c = ctrl 68 ∨ l.committed.length + pending.length = inputBuf then l.commit pending
    else { l with pending := pending }

def key (l : Line P) (c : UInt8) : Line P :=
  if c = ctrl 90 ∨ c = ctrl 80 then l
  else if c = ctrl 85 then { l with pending := [] }
  else if c = ctrl 72 ∨ c = 127 then { l with pending := l.pending.dropLast }
  else l.enter c

variable [DecidableEq P]

def leave (l : Line P) (p : P) : Read × List UInt8 × List UInt8 → Line P
  | (.waits n got, took, rest) =>
      { l with
        committed := rest
        taken := l.taken ++ took.map (p, ·)
        reader := update l.reader p (some (n, got)) }
  | (.ends got, took, rest) =>
      { l with
        committed := rest
        taken := l.taken ++ took.map (p, ·)
        reader := update l.reader p none
        returned := l.returned ++ [(p, got)] }

def step (l : Line P) : Event P → Option (Line P)
  | .intr cs => some (cs.foldl key l)
  | .read p n _ =>
      match l.reader p with
      | none => some (l.leave p (takeLine n.toInt.toNat [] l.committed))
      | some _ => none
  | .wakeup p _ =>
      match l.reader p with
      | none => none
      | some (n, got) => some (l.leave p (takeLine n got l.committed))

def deliveredTo (l : Line P) (p : P) : List UInt8 :=
  (l.returned.filter (·.1 = p)).flatMap Prod.snd ++ ((l.reader p).map Prod.snd).getD []

/-- What is committed is taken in order, by one process each; all but the ends of files are bytes that it gets. -/
structure Conserved (l : Line P) : Prop where
  log : l.log = l.taken.map Prod.snd ++ l.committed
  delivered : ∀ p, l.deliveredTo p = ((l.taken.filter (·.1 = p)).map Prod.snd).filter (· ≠ ctrl 68)

end Line

def Read.got : Read → List UInt8
  | .waits _ got => got
  | .ends got => got

theorem takeLine_spec (n : Nat) (got cs : List UInt8) : cs = (takeLine n got cs).2.1 ++ (takeLine n got cs).2.2 ∧
    (takeLine n got cs).1.got = got ++ (takeLine n got cs).2.1.filter (· ≠ ctrl 68) := by
  induction n generalizing got cs with
  | zero => simp [takeLine, Read.got]
  | succ n ih =>
      cases cs with
      | nil => simp [takeLine, Read.got]
      | cons c rest =>
          rw [takeLine]
          split
          next hc =>
            split
            next hg => simp [Read.got, hc, hg]
            next => simp [Read.got]
          next hc =>
            split
            next => simp [Read.got, hc]
            next =>
              obtain ⟨hcs, hgot⟩ := ih (got ++ [c]) rest
              refine ⟨congrArg (c :: ·) hcs, ?_⟩
              rw [hgot, List.filter_cons_of_pos (by simpa using hc), List.append_assoc]
              rfl

section Conserved

variable {P : Type} [DecidableEq P] {l : Line P}

theorem conserved_enter (h : l.Conserved) (c : UInt8) : (l.enter c).Conserved := by
  rw [Line.enter]
  split
  next => exact h
  next =>
    dsimp only
    generalize (if c = 13 then 10 else c) = d
    split
    next =>
      refine ⟨?_, h.delivered⟩
      show l.log ++ _ = l.taken.map Prod.snd ++ (l.committed ++ _)
      rw [h.log, List.append_assoc]
    next => exact ⟨h.log, h.delivered⟩

theorem conserved_key (h : l.Conserved) (c : UInt8) : (l.key c).Conserved := by
  rw [Line.key]
  split
  next => exact h
  next =>
    split
    next => exact ⟨h.log, h.delivered⟩
    next =>
      split
      next => exact ⟨h.log, h.delivered⟩
      next => exact conserved_enter h c

theorem conserved_leave (h : l.Conserved) {p : P} {n : Nat} {got : List UInt8}
    (hgot : ((l.reader p).map Prod.snd).getD [] = got) : (l.leave p (takeLine n got l.committed)).Conserved := by
  obtain ⟨hcs, hread⟩ := takeLine_spec n got l.committed
  have hfilter (q : P) (took : List UInt8) : ((l.taken ++ took.map (p, ·)).filter (·.1 = q)).map Prod.snd =
      ((l.taken.filter (·.1 = q)).map Prod.snd) ++ if q = p then took else [] := by
    rw [List.filter_append, List.map_append]
    congr 1
    by_cases hq : q = p
    · rw [if_pos hq, List.filter_eq_self.mpr (by simp [hq])]
      simp
    · rw [if_neg hq, List.filter_eq_nil_iff.mpr (by simp [Ne.symm hq])]
      rfl
  have hlog (took rest : List UInt8) (hcs : l.committed = took ++ rest) :
      l.log = (l.taken ++ took.map (p, ·)).map Prod.snd ++ rest := by
    rw [h.log, hcs]
    simp
  have hown (q : P) (took : List UInt8) : l.deliveredTo q ++ (if q = p then took else []).filter (· ≠ ctrl 68) =
      (((l.taken ++ took.map (p, ·)).filter (·.1 = q)).map Prod.snd).filter (· ≠ ctrl 68) := by
    rw [hfilter, List.filter_append, h.delivered q]
  generalize takeLine n got l.committed = t at hcs hread
  obtain ⟨rd, took, rest⟩ := t
  cases rd with
  | waits m got' =>
      refine ⟨hlog took rest hcs, ?_⟩
      intro q
      refine Eq.trans ?_ (hown q took)
      simp only [Line.leave, Line.deliveredTo]
      by_cases hq : q = p
      · subst hq
        have hg : got' = got ++ took.filter (· ≠ ctrl 68) := hread
        rw [update_self, if_pos rfl, hgot, hg, List.append_assoc]
        rfl
      · rw [update_of_ne hq, if_neg hq]
        simp
  | ends got' =>
      refine ⟨hlog took rest hcs, ?_⟩
      intro q
      refine Eq.trans ?_ (hown q took)
      simp only [Line.leave, Line.deliveredTo]
      by_cases hq : q = p
      · subst hq
        have hg : got' = got ++ took.filter (· ≠ ctrl 68) := hread
        rw [update_self, if_pos rfl, hgot, hg]
        simp
      · rw [update_of_ne hq, if_neg hq]
        simp [Ne.symm hq]

theorem conserved_step (h : l.Conserved) {e : Event P} {l' : Line P} (hst : l.step e = some l') : l'.Conserved := by
  cases e with
  | intr cs =>
      cases hst
      induction cs generalizing l with
      | nil => exact h
      | cons c cs ih => exact ih (conserved_key h c)
  | read p n killed =>
      rw [Line.step] at hst
      split at hst
      next hp =>
        cases hst
        exact conserved_leave h (by rw [hp]; rfl)
      next => cases hst
  | wakeup p killed =>
      rw [Line.step] at hst
      split at hst
      next => cases hst
      next n got hp =>
        cases hst
        exact conserved_leave h (by rw [hp]; rfl)

end Conserved

end Xv6.Console
