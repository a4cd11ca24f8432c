import Xv6.Proc.HandOver
import Xv6.Proc.OneCpu
import Xv6.Sleep.Missed
import Xv6.Sleep.Wakeup

namespace Xv6

open Kernel (ProcState)
open Lib
open Function (update update_of_ne update_self)

namespace Ptable

/-- What `scheduler`, `sleep`, `wakeup1` and `kill` use of `struct proc`. The channel 0 is `none`. -/
structure Entry (Ch : Type) where
  state : ProcState
  chan : Option Ch
  killed : Bool

/-- The other assignments of `p->state`: in `allocproc`, at the end of `fork` and where it fails, in `scheduler`,
in `yield` and in `exit`. -/
inductive Turn : ProcState → ProcState → Prop
  | allocproc : Turn .unused .embryo
  | fork : Turn .embryo .runnable
  | forkFail : Turn .embryo .unused
  | scheduler : Turn .runnable .running
  | yield : Turn .running .runnable
  | exit : Turn .running .zombie

variable {P Ch : Type} [DecidableEq P] [DecidableEq Ch]

def Entry.wakeup1 (x : Entry Ch) (chan : Option Ch) : Entry Ch :=
  { x with state := if x.state = .sleeping ∧ x.chan = chan then .runnable else x.state }

def Entry.kill (x : Entry Ch) : Entry Ch :=
  { x with killed := true, state := if x.state = .sleeping then .runnable else x.state }

/-- What is done to the table under `ptable.lock`. `sleep` is the part before `sched` and `awake` the part after. -/
inductive Step (t : P → Entry Ch) : (P → Entry Ch) → Prop
  | wakeup1 (chan) : Step t fun p => (t p).wakeup1 chan
  | kill (p) : Step t (update t p (t p).kill)
  | sleep (p chan) (h : (t p).state = .running) : Step t (update t p ⟨.sleeping, some chan, (t p).killed⟩)
  | awake (p) (h : (t p).state = .running) : Step t (update t p { t p with chan := none })
  | turn (p) {st st'} (h : (t p).state = st) (hst : Turn st st') : Step t (update t p { t p with state := st' })
  | wait (p) (h : (t p).state = .zombie) : Step t (update t p ⟨.unused, (t p).chan, false⟩)

abbrev Steps : (P → Entry Ch) → (P → Entry Ch) → Prop := Relation.ReflTransGen Step

variable {t u v : P → Entry Ch} {p : P} {x : Entry Ch}

theorem Steps.same (hv : v = t) : Steps t v := hv ▸ .refl

theorem Steps.one (h : Step t u) (hv : v = u) : Steps t v := hv ▸ .single h

theorem Steps.at (h : Step t (update t p x)) (hp : v p = x) (hne : ∀ q, q ≠ p → v q = t q) : Steps t v := by
  refine .one h (funext fun q => ?_)
  by_cases hq : q = p
  · rw [hq, hp, update_self]
  · rw [hne q hq, update_of_ne hq]

end Ptable

namespace Sleep

open Ptable

variable {P C L : Type} [DecidableEq P] [DecidableEq C] [DecidableEq L] {s t : State P C L} {a : Act P C L}

def State.entries (s : State P C L) (p : P) : Entry (Chan L) := ⟨s.state p, s.chan p, s.killed p⟩

theorem entries_step (h : Locks s) (hst : Step s a t) : Steps s.entries t.entries := by
  cases hst with
  | sleepSched c p l hc hpc =>
      refine .at (.sleep p (.lock l) (h.running c p hc)) ?_ fun q hq => ?_
      all_goals simp_all [State.entries, State.goto, State.sched, State.setState, State.setChan]
  | awake c p l hc hpc =>
      refine .at (.awake p (h.running c p hc)) ?_ fun q hq => ?_
      all_goals simp_all [State.entries, State.goto, State.setChan]
  | wakeAll c p chan lk hc hpc =>
      exact .single (.wakeup1 (some chan))
  | killSet c p q hc hpc =>
      refine .at (.kill q) ?_ fun r hr => ?_
      all_goals simp_all [State.entries, State.goto, State.setState]
      rfl
  | yieldSched c p hc hpc =>
      refine .at (.turn p (h.running c p hc) .yield) ?_ fun q hq => ?_
      all_goals simp_all [State.entries, State.goto, State.sched, State.setState]
  | dispatch c p ht hp =>
      refine .at (.turn p hp .scheduler) ?_ fun q hq => ?_
      all_goals simp_all [State.entries, State.setState]
  | _ => exact .refl

theorem entries_run {pid : P → Nat} {as : List (Act P C L)} (hrun : Runs.run step (start pid) as = some s) :
    Steps (start pid : State P C L).entries s.entries :=
  Runs.run_chain State.entries Locks
    (fun _ _ _ h hst => ⟨locks_step h (step_cases hst), entries_step h (step_cases hst)⟩) (locks_start pid) hrun

end Sleep

namespace Sleep.Missed

open Ptable

variable {P : Type} [DecidableEq P] {s t : State P} {p : P} {a : Act P}

def Proc.entry (x : Proc P) : Entry (Chan P) := ⟨x.state, x.chan, x.killed⟩

def State.entries (s : State P) (p : P) : Entry (Chan P) := (s.proc p).entry

theorem entries_setProc {x : Proc P} : (s.setProc p x).entries = update s.entries p x.entry :=
  Function.comp_update Proc.entry s.proc p x

theorem entries_goto {pc : Pc} : (s.goto p pc).entries = s.entries :=
  entries_setProc.trans (Function.update_eq_self p s.entries)

theorem entries_wakeup {chan : Chan P} : (s.wakeup chan).entries = fun p => (s.entries p).wakeup1 (some chan) := by
  funext q
  by_cases h : (s.proc q).state = .sleeping ∧ (s.proc q).chan = some chan
  all_goals simp [State.entries, State.wakeup, Proc.entry, Entry.wakeup1, h]

theorem entries_runProc {pc : Pc} (hr : (s.proc p).state = .running) (hst : runProc s p a pc = some t) :
    Steps s.entries t.entries := by
  have same {u : State P} {pc : Pc} (hu : u.entries = s.entries) : Steps s.entries (u.goto p pc).entries :=
    .same (entries_goto.trans hu)
  have sleep {l : Lock} {o : Option P} {chan : Chan P} {pc : Pc} :
      Steps s.entries ((s.setLock l o).sleep p chan pc).entries :=
    .one (.sleep p chan hr) entries_setProc
  have awake {pc : Pc} : Steps s.entries (s.setProc p { s.proc p with chan := none, pc }).entries :=
    .one (.awake p hr) entries_setProc
  unfold runProc at hst
  split at hst
  all_goals try split at hst
  all_goals cases hst
  all_goals first | exact same rfl | exact sleep | exact awake | skip
  · exact .one (.wakeup1 _) (entries_goto.trans entries_wakeup)
  · unfold scan
    split
    next => exact same rfl
    next => split <;> first | exact same rfl | exact .one (.sleep p _ hr) entries_setProc
  · exact .one (.kill _) entries_setProc
  · refine .one (.kill p) (entries_setProc.trans ?_)
    simp [State.entries, Proc.entry, Entry.kill, hr]
  · exact .one (.turn p hr .yield) entries_setProc

theorem entries_step (hst : step s a = some t) : Steps s.entries t.entries := by
  unfold step at hst
  split at hst
  next => exact .one (.wakeup1 _) (Option.some.inj hst ▸ entries_wakeup)
  next p =>
    rw [Option.ite_none_right_eq_some] at hst
    exact .one (.turn p hst.1 .scheduler) (Option.some.inj hst.2 ▸ entries_setProc)
  next p _ _ _ =>
    rw [Option.ite_none_right_eq_some] at hst
    exact entries_runProc hst.1 hst.2
  next => cases hst

theorem entries_run {as : List (Act P)} (hrun : Runs.run step start as = some s) :
    Steps (start : State P).entries s.entries :=
  Runs.run_chain State.entries (fun _ => True) (fun _ _ _ _ hst => ⟨trivial, entries_step hst⟩) trivial hrun

end Sleep.Missed

namespace Proc

open Ptable

variable {s t : State} {a : Act} {p : Fin nproc}

/-- Whatever else a process waits for is a channel of its own. -/
def Chan.at (p : Fin nproc) : Chan → Fin nproc ⊕ Fin nproc
  | .proc q => .inl q
  | .other => .inr p

def Slot.entry (x : Slot) (p : Fin nproc) : Entry (Fin nproc ⊕ Fin nproc) :=
  ⟨x.state, x.chan.map (Chan.at p), x.killed⟩

def State.entries (s : State) (p : Fin nproc) : Entry (Fin nproc ⊕ Fin nproc) := (s.table p).entry p

theorem entries_setSlot {x : Slot} : (s.setSlot p x).entries = update s.entries p (x.entry p) := by
  funext q
  by_cases hq : q = p <;> simp [State.entries, State.setSlot, hq]

theorem entry_adopt (x : Slot) (q i : Fin nproc) : (x.adopt q i).entry p = x.entry p := by
  unfold Slot.adopt
  split <;> rfl

theorem entry_wakeup (x : Slot) (c : Option Chan) :
    (x.wakeup c).entry p = (x.entry p).wakeup1 (c.map (Chan.at p)) := by
  have hinj : Function.Injective (Chan.at p) := by
    intro c c' h
    cases c <;> cases c' <;> simp_all [Chan.at]
  simp only [Slot.wakeup, Slot.entry, Entry.wakeup1, (Option.map_injective hinj).eq_iff]
  by_cases h : x.state = .sleeping ∧ x.chan = c
  · simp only [if_pos h]
  · simp only [if_neg h]

theorem wakeup_steps : Steps s.entries (s.setSlot p ((s.table p).wakeup (some .other))).entries := by
  refine .one (.wakeup1 (some (.inr p))) (entries_setSlot.trans (funext fun q => ?_))
  by_cases hq : q = p
  · subst hq
    rw [update_self]
    exact entry_wakeup _ _
  · have hchan : (s.table q).chan.map (Chan.at q) ≠ some (.inr p) := by
      cases (s.table q).chan with
      | none => simp
      | some c => cases c <;> simp [Chan.at, hq]
    rw [update_of_ne hq]
    simp [Entry.wakeup1, State.entries, Slot.entry, hchan]

theorem exit_steps (hr : Running s p) : Steps s.entries (exit s p).entries := by
  let woken (q : Fin nproc) : Slot :=
    let x := ((s.table q).wakeup ((s.table p).parent.map .proc)).adopt p s.initproc
    if (zombieChild s.table p).isSome then x.wakeup (some (.proc s.initproc)) else x
  have hparent : Steps s.entries fun q =>
      (((s.table q).wakeup ((s.table p).parent.map .proc)).adopt p s.initproc).entry q := by
    refine .one (.wakeup1 ((s.table p).parent.map .inl)) (funext fun q => ?_)
    rw [entry_adopt, entry_wakeup, Option.map_map]
    rfl
  have hwoken : Steps s.entries fun q => (woken q).entry q := by
    by_cases hz : (zombieChild s.table p).isSome
    · simp only [woken, if_pos hz]
      exact hparent.trans (Steps.one (.wakeup1 (some (.inl s.initproc))) (funext fun q => entry_wakeup _ _))
    · simp only [woken, if_neg hz]
      exact hparent
  have hp : (woken p).state = .running := by
    have idle (x : Slot) (hx : x.state = .running) (c : Option Chan) : x.wakeup c = x := if_neg (by simp [hx])
    have hadopt : ((s.table p).adopt p s.initproc).state = .running := by
      unfold Slot.adopt
      split <;> exact hr
    simp only [woken, idle _ hr, idle _ hadopt, ite_self, hadopt]
  refine hwoken.trans (Steps.at (.turn p hp .exit) ?_ fun q hq => ?_)
  · simp [State.entries, exit, exitSlot, woken, Slot.entry]
  · simp [State.entries, exit, exitSlot, hq, woken]

theorem entries_step (h : Family s) (hst : Step s a t) : Steps s.entries t.entries := by
  have embryo {p np : Fin nproc} (hp : (s.pc p).target = some np) : (s.table np).state = .embryo := by
    have hphase := h.target_embryo _ _ hp
    unfold Slot.phase at hphase
    split at hphase <;> simp_all
  cases hst with
  | fork p np hr hpc hnp => exact .one (.turn np hnp .allocproc) entries_setSlot
  | forkFail p np hr hpc => exact .one (.turn np (embryo (by rw [hpc]; rfl)) .forkFail) entries_setSlot
  | forkParent p np hr hpc => exact .same (entries_setSlot.trans (Function.update_eq_self np s.entries))
  | forkReturn p np hr hpc => exact .one (.turn np (embryo (by rw [hpc]; rfl)) .fork) entries_setSlot
  | exit p hr hpc hp => exact exit_steps hr
  | reap p q hr hpc hq hz => exact .one (.wait q hz) entries_setSlot
  | waitSleep p hr hpc hno => exact .one (.sleep p (.inl p) hr) entries_setSlot
  | kill p q pid hr hpc => exact .one (.kill q) entries_setSlot
  | dispatch p hp => exact .one (.turn p hp .scheduler) entries_setSlot
  | yield p hr => exact .one (.turn p hr .yield) entries_setSlot
  | sleep p hr hpc => exact .one (.sleep p (.inr p) hr) entries_setSlot
  | wakeup p => exact wakeup_steps
  | _ => exact .refl

theorem entries_run {as : List Act} (hrun : Runs.run step start as = some s) : Steps start.entries s.entries :=
  Runs.run_chain State.entries Family
    (fun _ _ _ h hst => ⟨family_step h (step_cases hst), entries_step h (step_cases hst)⟩) family_start hrun

end Proc

namespace Proc.Switch

open Ptable

variable {P C : Type} [DecidableEq P] {initproc : P} {s t : State P C} {c : C} {p : P}

def State.entries (s : State P C) (p : P) : Entry (Chan P) := ⟨s.state p, s.chan p, s.killed p⟩

theorem turn_steps {st st' : ProcState} (hp : s.state p = st) (h : Turn st st')
    (ht : t.entries = (s.setState p st').entries) : Steps s.entries t.entries := by
  refine ht ▸ .at (.turn p hp h) ?_ fun q hq => ?_
  all_goals simp_all [State.entries, State.setState]

theorem acquire_steps {f : State P C → State P C} (h : (s.acquire c).map f = some t)
    (hf : ∀ u, (f u).entries = u.entries) : Steps s.entries t.entries := by
  obtain ⟨u, hu, rfl⟩ := Option.map_eq_some_iff.mp h
  obtain ⟨-, rfl⟩ := acquire_eq_some hu
  exact .same (hf _)

theorem exitWake_steps [Fintype P] : Steps s.entries
    (((s.parent p).elim s fun q => s.wakeup1 (.proc q)).abandon initproc p).entries := by
  have wakeup1 (u : State P C) (chan : Chan P) : Steps u.entries (u.wakeup1 chan).entries :=
    .single (.wakeup1 (some chan))
  have hparent : Steps s.entries ((s.parent p).elim s fun q => s.wakeup1 (.proc q)).entries := by
    cases s.parent p with
    | none => exact .refl
    | some q => exact wakeup1 s (.proc q)
  refine hparent.trans ?_
  unfold State.abandon
  dsimp only
  split
  next => exact wakeup1 _ (.proc initproc)
  next => exact .refl

variable [DecidableEq C]

theorem runSched_steps (h : Cpus s) {spc : SchedPc P} (hc : s.spc c = spc) (hst : runSched s c spc = some t) :
    Steps s.entries t.entries := by
  unfold runSched at hst
  split at hst
  next => exact acquire_steps hst fun _ => rfl
  next p =>
    rw [Option.ite_none_right_eq_some] at hst
    exact Option.some.inj hst.2 ▸ .refl
  next p => exact turn_steps (h.chosen c p (.inr hc)).2 .scheduler (Option.some.inj hst ▸ rfl)
  all_goals
    cases hst
    try exact .refl

theorem runProc_steps [Fintype P] (h : Cpus s) (hf : Forks s) (hs : s.stack c = some p) {pc : Pc P}
    (hpc : s.pc p = pc) (hst : runProc initproc s c p pc = some t) : Steps s.entries t.entries := by
  have hrun (hstage : pc.stage = .here) : s.state p = .running := (h.running c p hs).mpr (hpc ▸ hstage)
  unfold runProc at hst
  split at hst
  all_goals first
    | exact acquire_steps hst fun _ => rfl
    | exact Option.some.inj hst ▸ .refl
    | cases hst; done
    | skip
  next n => exact turn_steps (hf.embryo p n 2 (by rw [hpc]; rfl)) .fork (Option.some.inj hst ▸ rfl)
  next m => exact turn_steps (hrun rfl) .yield (Option.some.inj hst ▸ rfl)
  next chan b =>
    refine .at (.sleep p chan (hrun rfl)) ?_ fun q hq => ?_
    all_goals simp_all [← Option.some.inj hst, State.entries, State.goto, State.setState, State.setChan]
  next b =>
    rw [Option.ite_none_left_eq_some] at hst
    exact Option.some.inj hst.2 ▸ .refl
  iterate 2
    next =>
      refine .at (.awake p (hrun rfl)) ?_ fun q hq => ?_
      all_goals simp_all [← Option.some.inj hst, State.entries, State.goto, State.setChan]
  next => exact acquire_steps (Option.ite_none_left_eq_some.mp hst).2 fun _ => rfl
  next => exact Option.some.inj hst ▸ exitWake_steps
  next => exact turn_steps (hrun rfl) .exit (Option.some.inj hst ▸ rfl)

omit [DecidableEq C] in
theorem allocate_steps (hf : Forks s) {ok : Bool} {m : Mid P} (hpc : s.pc p = .mid m)
    (hst : allocate s p ok m = some t) : Steps s.entries t.entries := by
  unfold allocate at hst
  split at hst
  next n =>
    split at hst
    · exact Option.some.inj hst ▸ .refl
    · exact turn_steps (hf.embryo p n 0 (by rw [hpc]; rfl)) .forkFail (Option.some.inj hst ▸ rfl)
  next n =>
    split at hst
    · exact Option.some.inj hst ▸ .refl
    · exact turn_steps (hf.embryo p n 1 (by rw [hpc]; rfl)) .forkFail (Option.some.inj hst ▸ rfl)
  next => cases hst

theorem entries_step [Fintype P] {a : Act P C} (h : Cpus s) (hf : Forks s) (hst : step initproc s a = some t) :
    Steps s.entries t.entries := by
  cases a with
  | run c =>
      simp only [step] at hst
      split at hst
      next => exact runSched_steps h rfl hst
      next hs => exact runProc_steps h hf hs rfl hst
  | wakeup chan =>
      rw [step, Option.ite_none_right_eq_some] at hst
      exact .one (.wakeup1 (some chan)) (Option.some.inj hst.2 ▸ rfl)
  | kill q =>
      rw [step, Option.ite_none_right_eq_some] at hst
      refine .at (.kill q) ?_ fun r hr => ?_
      all_goals simp_all [← Option.some.inj hst.2, State.entries, State.setState]
      rfl
  | pick c p | rest c =>
      rw [step, Option.ite_none_right_eq_some] at hst
      exact Option.some.inj hst.2 ▸ .refl
  | call c k | full c =>
      obtain ⟨p, -, hst⟩ := Option.bind_eq_some_iff.mp hst
      exact Option.some.inj (Option.ite_none_right_eq_some.mp hst).2 ▸ .refl
  | timer c =>
      obtain ⟨p, -, hst⟩ := Option.bind_eq_some_iff.mp hst
      split at hst <;> first | exact Option.some.inj hst ▸ .refl | cases hst
  | alloc c n =>
      obtain ⟨p, -, hst⟩ := Option.bind_eq_some_iff.mp hst
      rw [Option.ite_none_right_eq_some] at hst
      exact turn_steps hst.1.2 .allocproc (Option.some.inj hst.2 ▸ rfl)
  | child c ok =>
      obtain ⟨p, -, hst⟩ := Option.bind_eq_some_iff.mp hst
      split at hst
      next m hpc => exact allocate_steps hf hpc hst
      next => cases hst
  | reap c q =>
      obtain ⟨p, -, hst⟩ := Option.bind_eq_some_iff.mp hst
      rw [Option.ite_none_right_eq_some] at hst
      refine .at (.wait q hst.1.2.2) ?_ fun r hr => ?_
      all_goals simp_all [← Option.some.inj hst.2, State.entries, State.goto, State.setState, State.setKstack,
        State.setPgdir]
  | childless c =>
      obtain ⟨p, -, hst⟩ := Option.bind_eq_some_iff.mp hst
      rw [Option.ite_none_right_eq_some] at hst
      obtain ⟨-, hst⟩ := hst
      split at hst <;> exact Option.some.inj hst ▸ .refl

theorem entries_run [Fintype P] {as : List (Act P C)}
    (hrun : Runs.run (step initproc) (start initproc) as = some s) :
    Steps (start initproc : State P C).entries s.entries :=
  Runs.run_chain State.entries (fun s => Cpus s ∧ Forks s ∧ Contexts s)
    (fun _ _ _ h hst => ⟨inv_step h hst, entries_step h.1 h.2.1 hst⟩) (inv_start initproc) hrun

end Proc.Switch

end Xv6
