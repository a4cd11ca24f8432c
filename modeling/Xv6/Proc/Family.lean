import Xv6.Proc.Model

namespace Xv6.Proc

open Kernel (ProcState)

variable {s t : State} {a : Act}

/-- What matters about the state of a slot for who is whose parent. -/
inductive Phase
  | free
  | embryo
  | live
  | zombie
  deriving DecidableEq

def Slot.phase (x : Slot) : Phase :=
  match x.state with
  | .unused => .free
  | .embryo => .embryo
  | .zombie => .zombie
  | .sleeping | .runnable | .running => .live

section

variable (x : Slot)

theorem phase_setParent (r : Option (Fin nproc)) : ({ x with parent := r } : Slot).phase = x.phase := rfl

theorem phase_embryo (pid : Nat) : ({ x with state := .embryo, pid } : Slot).phase = .embryo := rfl

theorem phase_unused : ({ x with state := .unused } : Slot).phase = .free := rfl

theorem phase_runnable : ({ x with state := .runnable } : Slot).phase = .live := rfl

theorem phase_reap : x.reap.phase = .free := rfl

theorem reap_parent : x.reap.parent = none := rfl

end

theorem phase_eq_zombie {x : Slot} : x.phase = .zombie ↔ x.state = .zombie := by
  unfold Slot.phase
  cases x.state <;> simp

section

variable (x : Slot) (c : Option Chan) (tb : Fin nproc → Slot) (i p q : Fin nproc)

@[simp] theorem wakeup_phase : (x.wakeup c).phase = x.phase := by
  unfold Slot.wakeup
  split
  next h => simp [Slot.phase, h.1]
  next => rfl

@[simp] theorem wakeup_parent : (x.wakeup c).parent = x.parent := by
  unfold Slot.wakeup
  split <;> rfl

@[simp] theorem wakeup_pid : (x.wakeup c).pid = x.pid := by
  unfold Slot.wakeup
  split <;> rfl

@[simp] theorem kill_phase : x.kill.phase = x.phase := by
  unfold Slot.kill Slot.phase
  cases x.state <;> rfl

@[simp] theorem adopt_phase : (x.adopt p i).phase = x.phase := by
  unfold Slot.adopt
  split <;> rfl

@[simp] theorem adopt_pid : (x.adopt p i).pid = x.pid := by
  unfold Slot.adopt
  split <;> rfl

theorem adopt_parent : (x.adopt p i).parent = if x.parent = some p then some i else x.parent := by
  unfold Slot.adopt
  split <;> rfl

theorem exitSlot_phase : (exitSlot tb i p q).phase = if q = p then .zombie else (tb q).phase := by
  unfold exitSlot
  by_cases hq : q = p
  · simp only [hq, if_true, Slot.phase]
  · simp only [hq, if_false]
    split <;> simp

theorem exitSlot_parent :
    (exitSlot tb i p q).parent = if (tb q).parent = some p then some i else (tb q).parent := by
  rw [← wakeup_parent (tb q) ((tb p).parent.map .proc), ← adopt_parent]
  unfold exitSlot
  split <;> split <;> simp

theorem exitSlot_pid : (exitSlot tb i p q).pid = (tb q).pid := by
  unfold exitSlot
  split <;> split <;> simp

end

theorem running_live {p : Fin nproc} (h : Running s p) : (s.table p).phase = .live := by
  unfold Slot.phase
  rw [show (s.table p).state = _ from h]

structure Quiet (s t : State) : Prop where
  phase : ∀ q, (t.table q).phase = (s.table q).phase
  parent : ∀ q, (t.table q).parent = (s.table q).parent
  pid : ∀ q, (t.table q).pid = (s.table q).pid
  pc : ∀ q, t.pc q = s.pc q ∨ (s.table q).phase = .live ∧ (t.pc q).target = none
  initproc : t.initproc = s.initproc
  serial : t.serial = s.serial
  births : t.births = s.births
  exited : t.exited = s.exited
  reaped : t.reaped = s.reaped

theorem quiet_goto {p : Fin nproc} {pc : Pc} (hp : (s.table p).phase = .live) (hpc : pc.target = none) :
    Quiet s (s.goto p pc) := by
  refine ⟨fun _ => rfl, fun _ => rfl, fun _ => rfl, fun q => ?_, rfl, rfl, rfl, rfl, rfl⟩
  by_cases hq : q = p
  · subst hq
    exact .inr ⟨hp, by simpa [State.goto] using hpc⟩
  · exact .inl (by simp [State.goto, hq])

theorem quiet_setSlot {p : Fin nproc} {x : Slot} (hph : x.phase = (s.table p).phase)
    (hpar : x.parent = (s.table p).parent) (hpid : x.pid = (s.table p).pid) : Quiet s (s.setSlot p x) := by
  refine ⟨fun q => ?_, fun q => ?_, fun q => ?_, fun _ => .inl rfl, rfl, rfl, rfl, rfl, rfl⟩
  all_goals
    by_cases hq : q = p
    · subst hq
      simpa [State.setSlot]
    · simp [State.setSlot, hq]

theorem Quiet.trans {u : State} (h : Quiet s t) (h' : Quiet t u) : Quiet s u where
  phase q := (h'.phase q).trans (h.phase q)
  parent q := (h'.parent q).trans (h.parent q)
  pid q := (h'.pid q).trans (h.pid q)
  pc q := by
    rcases h'.pc q with h1 | ⟨h1, h2⟩
    · exact (h.pc q).imp h1.trans fun h3 => ⟨h3.1, h1 ▸ h3.2⟩
    · exact .inr ⟨h.phase q ▸ h1, h2⟩
  initproc := h'.initproc.trans h.initproc
  serial := h'.serial.trans h.serial
  births := h'.births.trans h.births
  exited := h'.exited.trans h.exited
  reaped := h'.reaped.trans h.reaped

inductive Move (s : State) : State → Prop
  | quiet (u) (h : Quiet s u) : Move s u
  | fork (p np) (hr : (s.table p).phase = .live) (hpc : (s.pc p).isUser = true) (hnp : (s.table np).phase = .free) :
      Move s ({ s.setSlot np { s.table np with state := .embryo, pid := s.nextpid } with
        nextpid := s.nextpid + 1 }.goto p (.forking np))
  | forkFail (p np) (hpc : s.pc p = .forking np) :
      Move s ((s.setSlot np { s.table np with state := .unused }).goto p (.user (-1)))
  | forkParent (p np) (hpc : s.pc p = .forking np) :
      Move s ((s.setSlot np { s.table np with parent := some p }).goto p (.forked np))
  | forkReturn (p np) (hpc : s.pc p = .forked np) : Move s (forkReturn s p np)
  | exit (p) (hr : (s.table p).phase = .live) (hpc : (s.pc p).isUser = true) (hp : p ≠ s.initproc) :
      Move s (exit s p)
  | reap (p q) (hr : (s.table p).phase = .live) (hq : (s.table q).parent = some p)
      (hz : (s.table q).phase = .zombie) :
      Move s { (s.setSlot q (s.table q).reap).goto p (.user (s.table q).pid) with
        reaped := s.reaped ++ [⟨s.serial q, s.serial p, (s.table q).pid⟩] }

theorem move_of_step (hst : Step s a t) : Move s t := by
  cases hst with
  | forkFull p hr hpc | wait p hr hpc | noChild p hr hpc hno | killMiss p pid hr hpc =>
      exact .quiet _ (quiet_goto (running_live hr) rfl)
  | fork p np hr hpc hnp => exact .fork p np (running_live hr) hpc (by simp [Slot.phase, hnp])
  | forkFail p np hr hpc => exact .forkFail p np hpc
  | forkParent p np hr hpc => exact .forkParent p np hpc
  | forkReturn p np hr hpc => exact .forkReturn p np hpc
  | exit p hr hpc hp => exact .exit p (running_live hr) hpc hp
  | reap p q hr hpc hq hz => exact .reap p q (running_live hr) hq (phase_eq_zombie.mpr hz)
  | waitSleep p hr hpc hno | yield p hr | sleep p hr hpc =>
      exact .quiet _ (quiet_setSlot (running_live hr).symm rfl rfl)
  | kill p q pid hr hpc =>
      refine .quiet _ ((quiet_setSlot (kill_phase _) rfl rfl).trans (quiet_goto ?_ rfl))
      rw [(quiet_setSlot (kill_phase _) rfl rfl).phase]
      exact running_live hr
  | dispatch p hp => exact .quiet _ (quiet_setSlot (by simp [Slot.phase, hp]) rfl rfl)
  | wakeup p => exact .quiet _ (quiet_setSlot (wakeup_phase _ _) (wakeup_parent _ _) (wakeup_pid _ _))

/-- Who is whose parent. A process that is not in user code is alive; a `fork` has a slot of its own. -/
structure Family (s : State) : Prop where
  init : (s.table s.initproc).phase = .live ∧ (s.table s.initproc).parent = none
  parent : ∀ q r, (s.table q).parent = some r → (s.table r).phase = .live
  orphan : ∀ q, (s.table q).parent = none →
    (s.table q).phase = .free ∨ (s.table q).phase = .embryo ∨ q = s.initproc
  other : ∀ q, (s.table q).parent ≠ some q
  free : ∀ q, (s.table q).phase = .free → (s.table q).parent = none
  busy : ∀ p, (s.pc p).isUser = false → (s.table p).phase = .live
  forking : ∀ p np, s.pc p = .forking np → (s.table np).phase = .embryo ∧ (s.table np).parent = none
  forked : ∀ p np, s.pc p = .forked np → (s.table np).phase = .embryo ∧ (s.table np).parent = some p
  target : ∀ p q np, (s.pc p).target = some np → (s.pc q).target = some np → p = q

theorem Family.target_embryo (h : Family s) (p np : Fin nproc) (hp : (s.pc p).target = some np) :
    (s.table np).phase = .embryo := by
  cases hpc : s.pc p <;> rw [hpc] at hp <;> cases hp
  · exact (h.forking p np hpc).1
  · exact (h.forked p np hpc).1

theorem Quiet.family (hq : Quiet s t) (h : Family s) : Family t := by
  obtain ⟨hph, hpar, -, hpc, hi, -⟩ := hq
  obtain ⟨h1, h2, h3, h4, h5, h6, h7, h8, h9⟩ := h
  constructor
  all_goals grind -ring -linarith [Pc.target, Pc.isUser]

section Moves

variable {p q np : Fin nproc}

theorem Family.fork (h : Family s) (hr : (s.table p).phase = .live) (hnp : (s.table np).phase = .free) :
    Family ({ s.setSlot np { s.table np with state := .embryo, pid := s.nextpid } with
      nextpid := s.nextpid + 1 }.goto p (.forking np)) := by
  have hembryo := h.target_embryo
  obtain ⟨h1, h2, h3, h4, h5, h6, h7, h8, h9⟩ := id h
  constructor
  all_goals simp only [State.goto, State.setSlot, Function.update_apply, apply_ite Slot.phase,
    apply_ite Slot.parent, phase_embryo]
  all_goals grind -ring -linarith [Pc.isUser, Pc.target]

theorem Family.forkFail (h : Family s) (hpc : s.pc p = .forking np) :
    Family ((s.setSlot np { s.table np with state := .unused }).goto p (.user (-1))) := by
  have hembryo := h.target_embryo
  obtain ⟨h1, h2, h3, h4, h5, h6, h7, h8, h9⟩ := id h
  constructor
  all_goals simp only [State.goto, State.setSlot, Function.update_apply, apply_ite Slot.phase,
    apply_ite Slot.parent, phase_unused]
  all_goals grind -ring -linarith [Pc.isUser, Pc.target]

theorem Family.forkParent (h : Family s) (hpc : s.pc p = .forking np) :
    Family ((s.setSlot np { s.table np with parent := some p }).goto p (.forked np)) := by
  have hembryo := h.target_embryo
  obtain ⟨h1, h2, h3, h4, h5, h6, h7, h8, h9⟩ := id h
  constructor
  all_goals simp only [State.goto, State.setSlot, Function.update_apply, apply_ite Slot.phase,
    apply_ite Slot.parent, phase_setParent]
  all_goals grind -ring -linarith [Pc.isUser, Pc.target]

theorem Family.forkReturn (h : Family s) (hpc : s.pc p = .forked np) :
    Family (forkReturn s p np) := by
  have hembryo := h.target_embryo
  obtain ⟨h1, h2, h3, h4, h5, h6, h7, h8, h9⟩ := id h
  constructor
  all_goals simp only [Proc.forkReturn, State.goto, State.setSlot, Function.update_apply, apply_ite Slot.phase,
    apply_ite Slot.parent, phase_runnable]
  all_goals grind -ring -linarith [Pc.isUser, Pc.target]

theorem Family.exit (h : Family s) (hr : (s.table p).phase = .live) (hpc : (s.pc p).isUser = true)
    (hp : p ≠ s.initproc) :
    Family (exit s p) := by
  have hembryo := h.target_embryo
  obtain ⟨h1, h2, h3, h4, h5, h6, h7, h8, h9⟩ := id h
  constructor
  all_goals simp only [Proc.exit, exitSlot_phase, exitSlot_parent]
  all_goals grind -ring -linarith [Pc.isUser, Pc.target]

theorem Family.reap (h : Family s) (hr : (s.table p).phase = .live) (hq : (s.table q).parent = some p)
    (hz : (s.table q).phase = .zombie) :
    Family { (s.setSlot q (s.table q).reap).goto p (.user (s.table q).pid) with
      reaped := s.reaped ++ [⟨s.serial q, s.serial p, (s.table q).pid⟩] } := by
  have hembryo := h.target_embryo
  obtain ⟨h1, h2, h3, h4, h5, h6, h7, h8, h9⟩ := id h
  constructor
  all_goals simp only [State.goto, State.setSlot, Function.update_apply, apply_ite Slot.phase,
    apply_ite Slot.parent, phase_reap, reap_parent]
  all_goals grind -ring -linarith [Pc.isUser, Pc.target]

end Moves

theorem family_step (h : Family s) (hst : Step s a t) : Family t := by
  cases move_of_step hst with
  | quiet _ hq => exact hq.family h
  | fork p np hr hpc hnp => exact h.fork hr hnp
  | forkFail p np hpc => exact h.forkFail hpc
  | forkParent p np hpc => exact h.forkParent hpc
  | forkReturn p np hpc => exact h.forkReturn hpc
  | exit p hr hpc hp => exact h.exit hr hpc hp
  | reap p q hr hq hz => exact h.reap hr hq hz

end Xv6.Proc
