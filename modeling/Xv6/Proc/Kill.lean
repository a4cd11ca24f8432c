import Xv6.Proc.HandOver

namespace Xv6.Proc

open Kernel (ProcState)
open Function (update update_of_ne update_self)

namespace Kill

/-- `targeted` holds for a slot if, since its process was created, there has been a call of `kill` with its pid or a
fault of its own. The kernel does not keep it. -/
structure State where
  sys : Proc.State
  targeted : Fin nproc → Bool

inductive Act
  | sys (a : Proc.Act)
  | kill (p : Fin nproc) (pid : Int)
  | fault (p : Fin nproc)

def start : State := ⟨Proc.start, fun _ => false⟩

def born (s : State) : Fin nproc → Bool :=
  match unusedSlot s.sys.table with
  | none => s.targeted
  | some np => update s.targeted np false

/-- The steps of the processes, with the pids that `kill` aims at and with faults in user code. -/
def step (s : State) : Act → Option State
  | .sys (.kill _ _) => none
  | .sys (.fork p) => (Proc.step s.sys (.fork p)).map (⟨·, born s⟩)
  | .sys a => (Proc.step s.sys a).map (⟨·, s.targeted⟩)
  | .kill p pid =>
      if Running s.sys p ∧ (s.sys.pc p).isUser then
        some ⟨kill s.sys p pid, fun q => s.targeted q || decide (((s.sys.table q).pid : Int) = pid)⟩
      else none
  | .fault p =>
      if Running s.sys p ∧ (s.sys.pc p).isUser then
        some ⟨s.sys.setSlot p { s.sys.table p with killed := true }, update s.targeted p true⟩
      else none

def Aimed (s : State) : Act → Prop
  | .kill _ pid => ∀ q, ((s.sys.table q).pid : Int) = pid → (s.sys.table q).phase = .live
  | _ => True

instance (s : State) (a : Act) : Decidable (Aimed s a) :=
  match a with
  | .kill _ _ => inferInstanceAs (Decidable (∀ _, _ → _))
  | .sys _ | .fault _ => .isTrue trivial

/-- A free slot and a process in the making are not marked, and any other marked process has been targeted. -/
structure Marked (s : State) : Prop where
  unborn : ∀ q, (s.sys.table q).phase = .free ∨ (s.sys.table q).phase = .embryo → (s.sys.table q).killed = false
  born : ∀ q, (s.sys.table q).phase = .live ∨ (s.sys.table q).phase = .zombie → (s.sys.table q).killed = true →
    s.targeted q = true

variable {s t : State}

/-- What a step other than a `kill` can do to a slot: the mark stays while the process is made, lives and exits,
or the slot is reaped. -/
inductive Ages (x : Slot) : Slot → Prop
  | same {y : Slot} (hk : y.killed = x.killed) (hp : y.phase = x.phase) : Ages x y
  | alloc {y : Slot} (hk : y.killed = x.killed) (hp : x.phase = .free) (hp' : y.phase = .embryo) : Ages x y
  | fail {y : Slot} (hk : y.killed = x.killed) (hp : x.phase = .embryo) (hp' : y.phase = .free) : Ages x y
  | create {y : Slot} (hk : y.killed = x.killed) (hp : x.phase = .embryo) (hp' : y.phase = .live) : Ages x y
  | exit {y : Slot} (hk : y.killed = x.killed) (hp : x.phase = .live) (hp' : y.phase = .zombie) : Ages x y
  | reap {y : Slot} (hk : y.killed = false) (hp' : y.phase = .free) : Ages x y

theorem exitSlot_killed (tb : Fin nproc → Slot) (i p q : Fin nproc) :
    (exitSlot tb i p q).killed = (tb q).killed := by
  have hwake (x : Slot) (c : Option Chan) : (x.wakeup c).killed = x.killed := by
    unfold Slot.wakeup
    split <;> rfl
  have hadopt (x : Slot) : (x.adopt p i).killed = x.killed := by
    unfold Slot.adopt
    split <;> rfl
  unfold exitSlot
  split <;> split <;> simp [hwake, hadopt]

theorem ages_update {v u : Proc.State} {p : Fin nproc} {y : Slot} (htb : u.table = update v.table p y)
    (h : Ages (v.table p) y) (q : Fin nproc) : Ages (v.table q) (u.table q) := by
  rw [htb]
  by_cases hq : q = p
  · subst hq
    rwa [update_self]
  · rw [update_of_ne hq]
    exact .same rfl rfl

theorem ages_step {v u : Proc.State} {a : Proc.Act} (hf : Family v) (hst : Step v a u)
    (hno : ∀ p pid, a ≠ .kill p pid)
    (q : Fin nproc) : Ages (v.table q) (u.table q) := by
  cases hst with
  | forkFull p hr hpc | wait p hr hpc | noChild p hr hpc hno => exact .same rfl rfl
  | killMiss p pid hr hpc | kill p _ pid hr hpc => exact absurd rfl (hno p pid)
  | fork p np hr hpc hnp =>
      have hfree : (v.table np).phase = .free := by simp [Slot.phase, hnp]
      apply ages_update rfl
      exact .alloc rfl hfree rfl
  | forkFail p np hr hpc =>
      apply ages_update rfl
      exact .fail rfl (hf.forking p np hpc).1 rfl
  | forkParent p np hr hpc =>
      apply ages_update rfl
      exact .same rfl rfl
  | forkReturn p np hr hpc =>
      apply ages_update rfl
      exact .create rfl (hf.forked p np hpc).1 rfl
  | exit p hr hpc hp =>
      have hphase := exitSlot_phase v.table v.initproc p q
      by_cases hq : q = p
      · subst hq
        rw [if_pos rfl] at hphase
        exact .exit (exitSlot_killed ..) (running_live hr) hphase
      · rw [if_neg hq] at hphase
        exact .same (exitSlot_killed ..) hphase
  | reap p q' hr hpc hq hz =>
      apply ages_update rfl
      exact .reap rfl rfl
  | waitSleep p hr hpc hno | yield p hr | sleep p hr hpc =>
      apply ages_update rfl
      exact .same rfl (running_live hr).symm
  | dispatch p hp =>
      have hlive : (v.table p).phase = .live := by simp [Slot.phase, hp]
      apply ages_update rfl
      exact .same rfl hlive.symm
  | wakeup p =>
      have hk : ((v.table p).wakeup (some .other)).killed = (v.table p).killed := by
        unfold Slot.wakeup
        split <;> rfl
      apply ages_update rfl
      exact .same hk (wakeup_phase ..)

theorem marked_of_ages {u : Proc.State} {tg : Fin nproc → Bool} (h : Marked s)
    (hages : ∀ q, Ages (s.sys.table q) (u.table q))
    (htg : ∀ q, (s.sys.table q).phase ≠ .free → tg q = s.targeted q) : Marked ⟨u, tg⟩ := by
  constructor
  · intro q hph
    have hun := h.unborn q
    cases hages q with
    | same hk hp =>
        rw [hk]
        exact hun (hp ▸ hph)
    | alloc hk hp hp' =>
        rw [hk]
        exact hun (.inl hp)
    | fail hk hp hp' =>
        rw [hk]
        exact hun (.inr hp)
    | create hk hp hp' | exit hk hp hp' =>
        rw [hp'] at hph
        simp at hph
    | reap hk hp' => exact hk
  · intro q hph hmark
    have hborn := h.born q
    cases hages q with
    | same hk hp =>
        rw [hp] at hph
        have hfree : (s.sys.table q).phase ≠ .free := by
          intro hfree
          rw [hfree] at hph
          simp at hph
        exact (htg q hfree).trans (hborn hph (hk ▸ hmark))
    | alloc hk hp hp' | fail hk hp hp' =>
        rw [hp'] at hph
        simp at hph
    | create hk hp hp' =>
        rw [hk, h.unborn q (.inr hp)] at hmark
        cases hmark
    | exit hk hp hp' => exact (htg q (by simp [hp])).trans (hborn (.inl hp) (hk ▸ hmark))
    | reap hk hp' =>
        rw [hk] at hmark
        cases hmark

theorem born_eq {q : Fin nproc} (h : (s.sys.table q).phase ≠ .free) : born s q = s.targeted q := by
  unfold born
  cases hnp : unusedSlot s.sys.table with
  | none => rfl
  | some np =>
      have hun : (s.sys.table np).state = .unused := by simpa using List.find?_some hnp
      have hq : q ≠ np := by
        rintro rfl
        exact h (by simp [Slot.phase, hun])
      exact update_of_ne hq ..

theorem pidSlot_eq_some {tb : Fin nproc → Slot} {pid : Int} {q : Fin nproc} (h : pidSlot tb pid = some q) :
    ((tb q).pid : Int) = pid := by
  simpa using List.find?_some h

theorem quiet_kill {v : Proc.State} {p : Fin nproc} {pid : Int} (hp : (v.table p).phase = .live) :
    Quiet v (kill v p pid) := by
  unfold kill
  split
  next => exact quiet_goto hp rfl
  next q _ =>
    have hq : Quiet v (v.setSlot q (v.table q).kill) := quiet_setSlot (kill_phase _) rfl rfl
    exact hq.trans (quiet_goto ((hq.phase p).trans hp) rfl)

theorem marked_kill (h : Marked s) {p : Fin nproc} {pid : Int} (hp : (s.sys.table p).phase = .live)
    (haim : Aimed s (.kill p pid)) :
    Marked ⟨kill s.sys p pid, fun q => s.targeted q || decide (((s.sys.table q).pid : Int) = pid)⟩ := by
  have hquiet : Quiet s.sys (kill s.sys p pid) := quiet_kill hp
  have hmark (q : Fin nproc) : ((kill s.sys p pid).table q).killed = (s.sys.table q).killed ∨
      ((s.sys.table q).pid : Int) = pid := by
    unfold kill
    split
    next => exact .inl rfl
    next r hr =>
      by_cases hq : q = r
      · subst hq
        exact .inr (pidSlot_eq_some hr)
      · left
        simp [State.goto, State.setSlot, hq]
  constructor
  · intro q hph
    replace hph : (s.sys.table q).phase = .free ∨ (s.sys.table q).phase = .embryo := by rwa [← hquiet.phase]
    rcases hmark q with hk | hpid
    · exact hk.trans (h.unborn q hph)
    · rw [haim q hpid] at hph
      simp at hph
  · intro q hph hk'
    replace hph : (s.sys.table q).phase = .live ∨ (s.sys.table q).phase = .zombie := by rwa [← hquiet.phase]
    simp only [Bool.or_eq_true, decide_eq_true_eq]
    exact (hmark q).imp (fun hk => h.born q hph (hk.symm.trans hk')) id

theorem quiet_fault {v : Proc.State} (p : Fin nproc) : Quiet v (v.setSlot p { v.table p with killed := true }) := by
  apply quiet_setSlot
  · rfl
  · rfl
  · rfl

theorem marked_fault (h : Marked s) {p : Fin nproc} (hp : (s.sys.table p).phase = .live) :
    Marked ⟨s.sys.setSlot p { s.sys.table p with killed := true }, update s.targeted p true⟩ := by
  have hph (q : Fin nproc) : ((s.sys.setSlot p { s.sys.table p with killed := true }).table q).phase =
      (s.sys.table q).phase := (quiet_fault p).phase q
  have hother {q : Fin nproc} (hq : q ≠ p) :
      ((s.sys.setSlot p { s.sys.table p with killed := true }).table q).killed = (s.sys.table q).killed := by
    simp [State.setSlot, hq]
  constructor
  · intro q hfree
    rw [hph] at hfree
    have hq : q ≠ p := by
      rintro rfl
      rw [hp] at hfree
      simp at hfree
    rw [hother hq]
    exact h.unborn q hfree
  · intro q hborn hk
    rw [hph] at hborn
    by_cases hq : q = p
    · subst hq
      exact update_self ..
    · rw [hother hq] at hk
      exact (update_of_ne hq ..).trans (h.born q hborn hk)

theorem marked_step {a : Act} (hf : Family s.sys) (h : Marked s) (haim : Aimed s a) (hst : step s a = some t) :
    Family t.sys ∧ Marked t := by
  cases a with
  | kill p pid =>
      simp only [step, Option.ite_none_right_eq_some, Option.some.injEq] at hst
      obtain ⟨⟨hr, -⟩, rfl⟩ := hst
      have hp := running_live hr
      exact ⟨(quiet_kill hp).family hf, marked_kill h hp haim⟩
  | fault p =>
      simp only [step, Option.ite_none_right_eq_some, Option.some.injEq] at hst
      obtain ⟨⟨hr, -⟩, rfl⟩ := hst
      exact ⟨(quiet_fault p).family hf, marked_fault h (running_live hr)⟩
  | sys a =>
      cases a with
      | kill p pid => cases hst
      | fork p =>
          obtain ⟨u, hu, rfl⟩ := Option.map_eq_some_iff.mp hst
          have hst := step_cases hu
          exact ⟨family_step hf hst, marked_of_ages h (ages_step hf hst nofun) fun q => born_eq⟩
      | wakeup p =>
          replace hst : (Proc.step s.sys (.wakeup p)).map (State.mk · s.targeted) = some t := hst
          obtain ⟨u, hu, rfl⟩ := Option.map_eq_some_iff.mp hst
          have hst := step_cases hu
          exact ⟨family_step hf hst, marked_of_ages h (ages_step hf hst nofun) fun q _ => rfl⟩
      | _ =>
          obtain ⟨u, hu, rfl⟩ := Option.map_eq_some_iff.mp hst
          have hst := step_cases hu
          exact ⟨family_step hf hst, marked_of_ages h (ages_step hf hst nofun) fun q _ => rfl⟩

theorem marked_start : Marked start := by
  have hk (q : Fin nproc) : (start.sys.table q).killed = false := by
    simp only [start, Proc.start]
    split <;> rfl
  constructor
  · exact fun q _ => hk q
  · intro q _ hq
    rw [hk] at hq
    cases hq

/-- In every run in which `kill` is only called with pids of live processes: a process is marked only if it has
been targeted since it was created, a new process starts unmarked, and `kill` returns 0 only if there is a live
process with that pid. -/
theorem only_targeted_killed {as : List Act} (haim : Lib.Runs.Along step Aimed start as)
    (hrun : Lib.Runs.run step start as = some s) :
    (∀ q, (s.sys.table q).phase ≠ .free → (s.sys.table q).killed = true → s.targeted q = true) ∧
    (∀ p np t, s.sys.pc p = .forked np → step s (.sys (.forkReturn p)) = some t → (t.sys.table np).killed = false) ∧
    ∀ p pid t, Aimed s (.kill p pid) → step s (.kill p pid) = some t → t.sys.pc p = .user 0 →
      ∃ q, ((s.sys.table q).pid : Int) = pid ∧ (s.sys.table q).phase = .live := by
  have hinv : Family s.sys ∧ Marked s :=
    Lib.Runs.run_invariant (fun s => Family s.sys ∧ Marked s) (fun s a t h ha hst => marked_step h.1 h.2 ha hst)
      ⟨family_start, marked_start⟩ haim hrun
  obtain ⟨hf, hm⟩ := hinv
  refine ⟨?_, ?_, ?_⟩
  · intro q hq hk
    cases hph : (s.sys.table q).phase with
    | free => exact absurd hph hq
    | embryo =>
        rw [hm.unborn q (.inr hph)] at hk
        cases hk
    | live => exact hm.born q (.inl hph) hk
    | zombie => exact hm.born q (.inr hph) hk
  · intro p np t hpc hst
    obtain ⟨u, hu, rfl⟩ := Option.map_eq_some_iff.mp hst
    have hk := hm.unborn np (.inr (hf.forked p np hpc).1)
    simp only [Proc.step, hpc, Option.ite_none_right_eq_some, Option.some.injEq] at hu
    rw [← hu.2]
    simpa [forkReturn, State.goto, State.setSlot] using hk
  · intro p pid t ha hst hres
    simp only [step, Option.ite_none_right_eq_some, Option.some.injEq] at hst
    obtain ⟨-, rfl⟩ := hst
    simp only [kill] at hres
    split at hres
    next => simp [State.goto] at hres
    next q hq => exact ⟨q, pidSlot_eq_some hq, ha q (pidSlot_eq_some hq)⟩

theorem only_targeted_killed_sibling :
    let as : List Act := [.sys (.dispatch 0), .sys (.fork 0), .sys (.forkParent 0), .sys (.forkReturn 0), .kill 0 2,
      .sys (.fork 0), .sys (.forkParent 0)]
    ∃ s t, Lib.Runs.run step start as = some s ∧ (s.sys.table 1).killed = true ∧ s.targeted 1 = true ∧
      step s (.sys (.forkReturn 0)) = some t ∧ (t.sys.table 2).killed = false := by
  intro as
  have haim : Lib.Runs.Along step Aimed start as :=
    Lib.Runs.along_of_alongB (fun s a => decide (Aimed s a)) (fun _ _ h => of_decide_eq_true h) (by decide +kernel)
  have h : (Lib.Runs.run step start as).any (fun s => (s.sys.table 1).killed && decide
    ((s.sys.table 1).phase ≠ .free) &&
      decide (s.sys.pc 0 = .forked 2) && (step s (.sys (.forkReturn 0))).isSome) = true := by
    decide +kernel
  obtain ⟨s, hs, hp⟩ := Option.any_eq_true _ _ |>.mp h
  simp only [Bool.and_eq_true, decide_eq_true_eq] at hp
  obtain ⟨⟨⟨hk, hph⟩, hpc⟩, hsome⟩ := hp
  obtain ⟨t, ht⟩ := Option.isSome_iff_exists.mp hsome
  obtain ⟨hmarked, hnew, -⟩ := only_targeted_killed haim hs
  exact ⟨s, t, hs, hk, hmarked 1 hph hk, ht, hnew 0 2 t hpc ht⟩

/-- `kill(0)` marks a free slot and returns 0; the next process is marked from the start. -/
theorem kill_zero_marks_newborn :
    let as : List Act := [.sys (.dispatch 0), .kill 0 0, .sys (.fork 0), .sys (.forkParent 0), .sys (.forkReturn 0)]
    ∃ s t, Lib.Runs.run step start (as.take 2) = some s ∧ s.sys.pc 0 = .user 0 ∧
      (∀ q, (s.sys.table q).pid = 0 → (s.sys.table q).phase = .free) ∧ Lib.Runs.run step start as = some t ∧
      (t.sys.table 1).phase = .live ∧ (t.sys.table 1).killed = true ∧ t.targeted 1 = false := by
  intro as
  have h : (Lib.Runs.run step start (as.take 2)).any (fun s => decide (s.sys.pc 0 = .user 0) &&
      decide (∀ q, (s.sys.table q).pid = 0 → (s.sys.table q).phase = .free)) = true := by decide +kernel
  have h' : (Lib.Runs.run step start as).any (fun t => decide ((t.sys.table 1).phase = .live) &&
      (t.sys.table 1).killed && !t.targeted 1) = true := by decide +kernel
  obtain ⟨s, hs, hp⟩ := Option.any_eq_true _ _ |>.mp h
  obtain ⟨t, ht, hp'⟩ := Option.any_eq_true _ _ |>.mp h'
  simp only [Bool.and_eq_true, decide_eq_true_eq, Bool.not_eq_true'] at hp hp'
  exact ⟨s, t, hs, hp.1, hp.2, ht, hp'.1.1, hp'.1.2, hp'.2⟩

end Kill

end Xv6.Proc
