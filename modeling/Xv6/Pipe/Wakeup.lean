import Xv6.Pipe.Fifo

namespace Xv6.Pipe

open Lib

variable {P : Type} [DecidableEq P] {s t : State P} {a : Act P} {p q : P} {pc : Pc}

def Storing (s : State P) : Prop := ∃ p addr n i j, s.pc p = .writeLoop addr n i j ∧ j < i

def Taking (s : State P) : Prop :=
  ∃ p n got, got ≠ [] ∧ (s.pc p = .readCopy n got ∨ s.pc p = .readDone n got)

def Counted (s : State P) : Prop := ∀ p addr n i j, s.pc p = .writeLoop addr n i j → j ≤ i

/-- Whoever sleeps cannot proceed, or the process that has the lock has just made it possible. -/
structure Attentive (s : State P) : Prop where
  count : Counted s
  readers : ∀ p, (s.pc p).readSleeps = true → Empty s.pipe ∧ s.pipe.writeopen = true ∨ Storing s
  writers : ∀ p, (s.pc p).writeSleeps = true → Full s.pipe ∧ s.pipe.readopen = true ∨ Taking s

/-- The process is a `pipewrite` that gives up, at a full pipe that has no reader or after a kill, though it has
stored bytes since it took the lock and a reader sleeps. -/
def BreaksOff (s : State P) (p : P) : Prop :=
  match s.pc p with
  | .writeLoop _ n i j =>
      (i : Int) < n ∧ Full s.pipe ∧ (s.pipe.readopen = false ∨ s.killed p = true) ∧ j < i ∧
        ∃ q, (s.pc q).readSleeps = true
  | _ => False

def Completes (s : State P) : Act P → Prop
  | .run p => ¬ BreaksOff s p
  | _ => True

instance [Fintype P] (s : State P) (p : P) : Decidable (BreaksOff s p) := by
  unfold BreaksOff
  split <;> infer_instance

instance [Fintype P] (s : State P) (a : Act P) : Decidable (Completes s a) := by
  unfold Completes
  split <;> infer_instance

theorem readSleeps_wakeRead : pc.wakeRead.readSleeps = false := by cases pc <;> rfl

theorem readSleeps_wakeWrite : pc.wakeWrite.readSleeps = pc.readSleeps := by cases pc <;> rfl

theorem writeSleeps_wakeRead : pc.wakeRead.writeSleeps = pc.writeSleeps := by cases pc <;> rfl

theorem writeSleeps_wakeWrite : pc.wakeWrite.writeSleeps = false := by cases pc <;> rfl

theorem sleeps_goto {f : Pc → Bool} (h : f ((s.goto p pc).pc q) = true) : f pc = true ∨ f (s.pc q) = true := by
  by_cases hqp : q = p
  · subst hqp
    exact .inl (by simpa [State.goto] using h)
  · exact .inr (by simpa [State.goto, hqp] using h)

theorem goto_writeLoop {addr : Nat → UInt8} {n : Int} {i j : Nat} (h : (s.goto p pc).pc q = .writeLoop addr n i j) :
    pc = .writeLoop addr n i j ∨ s.pc q = .writeLoop addr n i j := by
  by_cases hqp : q = p
  · subst hqp
    exact .inl (by simpa [State.goto] using h)
  · exact .inr (by simpa [State.goto, hqp] using h)

theorem writeLoop_of_wakeRead {addr : Nat → UInt8} {n : Int} {i j : Nat} (h : pc.wakeRead = .writeLoop addr n i j) :
    pc = .writeLoop addr n i j := by
  cases pc <;> first | exact h | cases h

theorem writeLoop_of_wakeWrite {addr : Nat → UInt8} {n : Int} {i j : Nat}
    (h : pc.wakeWrite = .writeLoop addr n i j) :
    pc = .writeLoop addr n i j := by
  cases pc <;> first | exact h | cases h

theorem counted_step (h : Counted s) (hst : Step s a t) : Counted t := by
  intro q addr n i j hq
  cases hst with
  | read p n hpc | write p addr n hpc | acquireRead p n hpc hl | readKilled p n hpc | readSleep p n hpc
  | readStart p n hpc | readStop p n got hpc | giveUp p addr n i j hpc | take p n got hpc =>
      exact h q _ _ _ _ ((goto_writeLoop hq).resolve_left (nomatch ·))
  | acquireWrite p addr n i hpc hl =>
      rcases goto_writeLoop hq with heq | hq
      · cases heq
        exact le_rfl
      · exact h q _ _ _ _ hq
  | put p addr n i j hpc hf =>
      rcases goto_writeLoop hq with heq | hq
      · cases heq
        exact (h p _ _ _ _ hpc).trans (Nat.le_succ i)
      · exact h q _ _ _ _ hq
  | readReturn p n got hpc =>
      exact h q _ _ _ _ ((goto_writeLoop (writeLoop_of_wakeWrite hq)).resolve_left (nomatch ·))
  | writeReturn p addr n i j hpc =>
      exact h q _ _ _ _ ((goto_writeLoop (writeLoop_of_wakeRead hq)).resolve_left (nomatch ·))
  | writeSleep p addr n i j hpc =>
      exact h q _ _ _ _ (writeLoop_of_wakeRead ((goto_writeLoop hq).resolve_left (nomatch ·)))
  | close w hl =>
      cases w with
      | true => exact h q _ _ _ _ (writeLoop_of_wakeRead hq)
      | false => exact h q _ _ _ _ (writeLoop_of_wakeWrite hq)
  | kill p =>
      rcases goto_writeLoop (s := s) hq with hq | hq
      · exact h p _ _ _ _ (writeLoop_of_wakeRead (writeLoop_of_wakeWrite hq))
      · exact h q _ _ _ _ hq

theorem readSleeps_step (hst : Step s a t) (hq : (t.pc q).readSleeps = true) :
    (s.pc q).readSleeps = true ∨ Empty t.pipe ∧ t.pipe.writeopen = true := by
  cases hst with
  | readSleep p n hpc he hw => exact .inr ⟨he, hw⟩
  | read p n hpc | write p addr n hpc | acquireRead p n hpc hl | acquireWrite p addr n i hpc hl
  | readKilled p n hpc | readStart p n hpc | readStop p n got hpc | giveUp p addr n i j hpc
  | take p n got hpc | put p addr n i j hpc => exact .inl ((sleeps_goto hq).resolve_left (nomatch ·))
  | readReturn p n got hpc =>
      exact .inl ((sleeps_goto (readSleeps_wakeWrite.symm.trans hq)).resolve_left (nomatch ·))
  | writeSleep p addr n i j hpc =>
      rcases sleeps_goto hq with h | h
      · cases h
      · exact nomatch readSleeps_wakeRead.symm.trans h
  | writeReturn p addr n i j hpc => exact nomatch readSleeps_wakeRead.symm.trans hq
  | close w hl =>
      cases w with
      | true => exact nomatch readSleeps_wakeRead.symm.trans hq
      | false => exact .inl (readSleeps_wakeWrite.symm.trans hq)
  | kill p =>
      rcases sleeps_goto (s := s) hq with hq | hq
      · rw [readSleeps_wakeWrite, readSleeps_wakeRead] at hq
        cases hq
      · exact .inl hq

theorem writeSleeps_step (hst : Step s a t) (hq : (t.pc q).writeSleeps = true) :
    (s.pc q).writeSleeps = true ∨ Full t.pipe ∧ t.pipe.readopen = true := by
  cases hst with
  | writeSleep p addr n i j hpc hf hr => exact .inr ⟨hf, hr⟩
  | read p n hpc | write p addr n hpc | acquireRead p n hpc hl | acquireWrite p addr n i hpc hl
  | readKilled p n hpc | readSleep p n hpc | readStart p n hpc | readStop p n got hpc | giveUp p addr n i j hpc
  | take p n got hpc | put p addr n i j hpc => exact .inl ((sleeps_goto hq).resolve_left (nomatch ·))
  | readReturn p n got hpc => exact nomatch writeSleeps_wakeWrite.symm.trans hq
  | writeReturn p addr n i j hpc =>
      exact .inl ((sleeps_goto (writeSleeps_wakeRead.symm.trans hq)).resolve_left (nomatch ·))
  | close w hl =>
      cases w with
      | true => exact .inl (writeSleeps_wakeRead.symm.trans hq)
      | false => exact nomatch writeSleeps_wakeWrite.symm.trans hq
  | kill p =>
      rcases sleeps_goto (s := s) hq with hq | hq
      · exact nomatch writeSleeps_wakeWrite.symm.trans hq
      · exact .inl hq

theorem storing_step (he : Exclusive s) (hok : Completes s a) (hs : Storing s) (hst : Step s a t)
    (hq : (t.pc q).readSleeps = true) : Storing t := by
  obtain ⟨r, addr, n, i, j, hr, hlt⟩ := hs
  by_cases ha : a = .run r
  · subst ha
    cases hst with
    | put p addr n i j hpc =>
        cases hr.symm.trans hpc
        exact ⟨r, addr, n, i + 1, j, by simp [State.put, State.goto], Nat.lt_succ_of_lt hlt⟩
    | giveUp p addr n i j hpc hi hf hro =>
        cases hr.symm.trans hpc
        refine absurd ?_ hok
        rw [BreaksOff, hpc]
        exact ⟨hi, hf, hro, hlt, q, (sleeps_goto hq).resolve_left (fun h => by cases h)⟩
    | writeSleep p addr n i j hpc =>
        rcases sleeps_goto hq with h | h
        · cases h
        · cases readSleeps_wakeRead.symm.trans h
    | writeReturn p addr n i j hpc => cases readSleeps_wakeRead.symm.trans hq
    | readKilled p n hpc | readSleep p n hpc | readStart p n hpc | readStop p n got hpc | take p n got hpc
    | readReturn p n got hpc => cases hr.symm.trans hpc
  · obtain ⟨-, hpc⟩ := frame_step he hst (by rw [hr]; rfl) ha
    exact ⟨r, addr, n, i, j, hpc.trans hr, hlt⟩

theorem taking_take {n : Int} {got : List UInt8} : Taking (s.take p n got) :=
  ⟨p, n, got ++ [s.pipe.data (Fin.ofNat pipesize s.pipe.nread.toNat)],
    by simp, .inl (by simp [State.take, State.goto])⟩

theorem taking_step (he : Exclusive s) (hs : Taking s) (hst : Step s a t)
    (hq : (t.pc q).writeSleeps = true) : Taking t := by
  obtain ⟨r, n, got, hgot, hr⟩ := hs
  by_cases ha : a = .run r
  · subst ha
    cases hst with
    | take p n' got' hpc => exact taking_take
    | readStop p n' got' hpc =>
        rcases hr with hr | hr <;> cases hr.symm.trans hpc
        exact ⟨r, n, got, hgot, .inr (by simp [State.goto])⟩
    | readReturn p n' got' hpc => cases writeSleeps_wakeWrite.symm.trans hq
    | readKilled p n hpc | readSleep p n hpc | readStart p n hpc | giveUp p addr n i j hpc
    | writeSleep p addr n i j hpc | put p addr n i j hpc | writeReturn p addr n i j hpc =>
        rcases hr with hr | hr <;> cases hr.symm.trans hpc
  · have hh : (s.pc r).holds = true := by rcases hr with hr | hr <;> rw [hr] <;> rfl
    obtain ⟨-, hpc⟩ := frame_step he hst hh ha
    exact ⟨r, n, got, hgot, hr.imp hpc.trans hpc.trans⟩

/-- While readers sleep, an empty pipe ceases to be one, or loses its write end, only by a writer that will
wake them. -/
theorem empty_step (hc : Counted s) (he : Empty s.pipe) (hw : s.pipe.writeopen = true) (hst : Step s a t)
    (hq : (t.pc q).readSleeps = true) : Empty t.pipe ∧ t.pipe.writeopen = true ∨ Storing t := by
  cases hst with
  | take p n got hpc hn hne => exact absurd he hne
  | put p addr n i j hpc =>
      exact .inr ⟨p, addr, n, i + 1, j, by simp [State.put, State.goto], Nat.lt_succ_of_le (hc p _ _ _ _ hpc)⟩
  | close w hl =>
      cases w with
      | true => cases readSleeps_wakeRead.symm.trans hq
      | false => exact .inl ⟨he, hw⟩
  | _ => exact .inl ⟨he, hw⟩

theorem full_step (hf : Full s.pipe) (hr : s.pipe.readopen = true) (hst : Step s a t)
    (hq : (t.pc q).writeSleeps = true) : Full t.pipe ∧ t.pipe.readopen = true ∨ Taking t := by
  cases hst with
  | take p n got hpc hn hne => exact .inr taking_take
  | put p addr n i j hpc hnf => exact absurd hf hnf
  | close w hl =>
      cases w with
      | true => exact .inl ⟨hf, hr⟩
      | false => exact nomatch writeSleeps_wakeWrite.symm.trans hq
  | _ => exact .inl ⟨hf, hr⟩

theorem attentive_step (he : Exclusive s) (h : Attentive s) (hok : Completes s a) (hst : Step s a t) :
    Attentive t where
  count := counted_step h.count hst
  readers q hq := by
    rcases readSleeps_step hst hq with hs | hp
    · rcases h.readers q hs with ⟨hemp, hw⟩ | hs
      · exact empty_step h.count hemp hw hst hq
      · exact .inr (storing_step he hok hs hst hq)
    · exact .inl hp
  writers q hq := by
    rcases writeSleeps_step hst hq with hs | hp
    · rcases h.writers q hs with ⟨hf, hr⟩ | ht
      · exact full_step hf hr hst hq
      · exact .inr (taking_step he ht hst hq)
    · exact .inl hp

omit [DecidableEq P] in
theorem Exclusive.free (h : Exclusive s) (hl : s.lock = none) : ¬ Storing s ∧ ¬ Taking s := by
  have hno (p : P) (hp : (s.pc p).holds = true) : False := nomatch hl.symm.trans (h p hp)
  refine ⟨fun ⟨p, addr, n, i, j, hp, _⟩ => hno p (by rw [hp]; rfl), fun ⟨p, n, got, _, hp⟩ => hno p ?_⟩
  rcases hp with hp | hp <;> rw [hp] <;> rfl

theorem Full.not_empty {x : Kernel.Pipe} (h : Full x) : ¬ Empty x := fun he => by
  rw [Full, ← he] at h
  have h0 : x.nread - x.nread = 512 := by
    nth_rewrite 1 [h]
    rw [UInt32.add_comm, UInt32.add_sub_cancel]
  rw [UInt32.sub_self] at h0
  exact absurd h0 (by decide)

theorem BreaksOff.strands (h : BreaksOff s p) (hst : step s (.run p) = some t) :
    t.lock = none ∧ ¬ Empty t.pipe ∧ ∃ q, (t.pc q).readSleeps = true := by
  unfold BreaksOff at h
  split at h
  next addr n i j hpc =>
    obtain ⟨hi, hf, hr, -, q, hq⟩ := h
    have hqp : q ≠ p := fun e => by rw [e, hpc] at hq; cases hq
    simp only [step, runLocked, hpc, if_pos hi, if_pos hf, if_pos hr, Option.some.injEq] at hst
    subst hst
    exact ⟨rfl, hf.not_empty, q, by simpa [State.release, State.goto, hqp] using hq⟩
  next => cases h

/-- In every run in which no `pipewrite` breaks off: whenever the lock is free, who sleeps on `&p->nread` sleeps
at an empty pipe with its write end open, and who sleeps on `&p->nwrite` at a full one with its read end open.
A step by which a `pipewrite` does break off leads to a state where this fails. -/
theorem no_idle_sleeper (data : Fin pipesize → UInt8) (as : List (Act P)) (s : State P)
    (hrun : Runs.run step (start data) as = some s) :
    (Runs.Along step Completes (start data) as → s.lock = none → ∀ p,
      ((s.pc p).readSleeps = true → Empty s.pipe ∧ s.pipe.writeopen = true) ∧
        ((s.pc p).writeSleeps = true → Full s.pipe ∧ s.pipe.readopen = true)) ∧
      ∀ a t, ¬ Completes s a → step s a = some t →
        t.lock = none ∧ ∃ p, (t.pc p).readSleeps = true ∧ ¬ Empty t.pipe := by
  refine ⟨fun hok hl p => ?_, fun a t ha hst => ?_⟩
  · have hinv : Exclusive s ∧ Attentive s := by
      refine Runs.run_invariant (fun s => Exclusive s ∧ Attentive s) (fun s a t h ha hst => ?_) ⟨?_, ?_,
        ?_, ?_⟩ hok hrun
      · have hst := step_cases hst
        exact ⟨exclusive_step h.1 hst, attentive_step h.1 h.2 ha hst⟩
      · exact fun p hp => nomatch hp
      · exact fun p addr n i j hp => nomatch hp
      · exact fun p hp => nomatch hp
      · exact fun p hp => nomatch hp
    obtain ⟨hexcl, hatt⟩ := hinv
    obtain ⟨hstore, htake⟩ := hexcl.free hl
    exact ⟨fun hp => (hatt.readers p hp).resolve_right hstore, fun hp => (hatt.writers p hp).resolve_right htake⟩
  · cases a with
    | run p =>
        obtain ⟨hl, hne, q, hq⟩ := (not_not.mp ha).strands hst
        exact ⟨hl, q, hq, hne⟩
    | _ => exact absurd trivial ha

theorem no_idle_sleeper_woken :
    let as : List (Act Bool) :=
      [.read false 1, .acquire false, .run false, .write true (fun _ => 65) 1, .acquire true, .run true, .run true]
    ∃ s, Runs.run step (start fun _ => 0) as = some s ∧ s.lock = none ∧
      Runs.Along step Completes (start fun _ => 0) as ∧
      ∀ p, (s.pc p).readSleeps = true → Empty s.pipe := by
  intro as
  obtain ⟨s, hs⟩ : ∃ s, Runs.run step (start fun _ => 0) as = some s :=
    Option.isSome_iff_exists.mp (by decide +kernel)
  have hl : (Runs.run step (start fun _ => 0) as).all (fun s => s.lock.isNone) = true := by decide +kernel
  rw [hs] at hl
  have hl : s.lock = none := Option.isNone_iff_eq_none.mp hl
  have hok : Runs.Along step Completes (start fun _ => 0) as :=
    Runs.along_of_alongB (fun s a => decide (Completes s a)) (fun _ _ h => of_decide_eq_true h) (by decide +kernel)
  exact ⟨s, hs, hl, hok, fun p hp => (((no_idle_sleeper _ as s hs).1 hok hl p).1 hp).1⟩

/-- The first process sleeps in `piperead`. The second has been killed; its `pipewrite` of 513 bytes stores 512 of
them and returns -1, and the first sleeps on. -/
theorem reader_stranded :
    let as : List (Act Bool) :=
      [.read false 1, .acquire false, .run false, .kill true, .write true (fun _ => 65) 513,
      .acquire true] ++ List.replicate 513 (.run true)
    ∃ s, Runs.run step (start fun _ => 0) as = some s ∧ s.lock = none ∧ (s.pc false).readSleeps = true ∧
      ¬ Empty s.pipe := by
  intro as
  have h : (Runs.run step (start fun _ => 0) as).any (fun s => s.lock.isNone && (s.pc false).readSleeps &&
      !decide (Empty s.pipe)) = true := by decide +kernel
  obtain ⟨s, hs, h⟩ := (Option.any_eq_true _ _).mp h
  simp only [Bool.and_eq_true, Option.isNone_iff_eq_none, Bool.not_eq_true', decide_eq_false_iff_not] at h
  exact ⟨s, hs, h.1.1, h.1.2, h.2⟩

end Xv6.Pipe
