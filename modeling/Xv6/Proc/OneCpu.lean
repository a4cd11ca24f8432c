import Xv6.Proc.Switch

namespace Xv6.Proc.Switch

open Kernel (ProcState)
open Function (update_apply)

variable {P C : Type} [DecidableEq P] [DecidableEq C] {s t : State P C} {c d : C} {p q : P}

def live : ProcState → Bool
  | .unused | .embryo => false
  | _ => true

structure Cpus (s : State P C) : Prop where
  sched : ∀ c, s.stack c = none → (s.spc c).holds = true → s.lock = some c
  proc : ∀ c p, s.stack c = some p → (s.pc p).holds = true → s.lock = some c
  away : ∀ c p, s.stack c = some p → s.spc c = .away
  current : ∀ c p, s.stack c = some p → s.proc c = some p
  table : ∀ c p, s.cr3 c = some p → s.proc c = some p
  kvm : ∀ c, s.spc c = .kvm → s.cr3 c = none
  free : ∀ c, s.spc c = .idle ∨ s.spc c = .scan → s.proc c = none
  chosen : ∀ c p, s.spc c = .chosen p ∨ s.spc c = .uvm p → s.proc c = some p ∧ s.state p = .runnable
  ready : ∀ c p, s.spc c = .ready p → s.proc c = some p ∧ s.state p = .running
  single : ∀ c d p, s.proc c = some p → s.proc d = some p → c = d
  window : ∀ c p, s.proc c = some p → s.state p ≠ .running → s.lock = some c
  running : ∀ c p, s.stack c = some p → (s.state p = .running ↔ (s.pc p).stage = .here)
  live : ∀ c p, s.proc c = some p → live (s.state p) = true
  back : ∀ c p, s.spc c = .returned ∨ s.spc c = .kvm → s.proc c = some p → s.state p ≠ .running

structure Forks (s : State P C) : Prop where
  embryo : ∀ p n k, (s.pc p).fork = some (n, k) → s.state n = .embryo
  single : ∀ p q n k l, (s.pc p).fork = some (n, k) → (s.pc q).fork = some (n, l) → p = q
  stack : ∀ p n k, (s.pc p).fork = some (n, k + 1) → s.kstack n = true ∧ s.saved n = true ∧ (s.pc n).suspended =
    true
  table : ∀ p n k, (s.pc p).fork = some (n, k + 2) → s.pgdir n = true
  alive : ∀ p n k, (s.pc p).fork = some (n, k) → s.state p = .running ∨ s.state p = .runnable ∨
    s.state p = .sleeping

structure Contexts (s : State P C) : Prop where
  saved : ∀ p, s.state p = .runnable ∨ s.state p = .sleeping ∨ s.state p = .running → (∀ c, s.stack c ≠ some p) →
    s.saved p = true ∧ (s.pc p).suspended = true
  loading : ∀ c p, s.stack c = some p → (s.pc p).stage = .loading → s.saved p = true
  cpu : ∀ p, s.state p = .running → ∃ c, s.proc c = some p
  memory : ∀ p, live (s.state p) = true → s.kstack p = true ∧ s.pgdir p = true

omit [DecidableEq P] [DecidableEq C] in
theorem Pc.stage_of_suspended {pc : Pc P} (h : pc.suspended = true) : pc.stage = .here ∧ pc.holds = true := by
  cases pc <;> first | exact ⟨rfl, rfl⟩ | cases h

attribute [local grind =] update_apply
attribute [local grind] SchedPc.holds Rouses live
attribute [local grind →] Pc.At.holds Pc.At.stage Pc.At.fork

theorem sched_step (h : Cpus s) (hch : Change s t) (hs : t.stack c = none) (hc : (t.spc c).holds = true) :
    t.lock = some c := by
  have h1 := h.sched
  have h2 := h.proc
  cases hch
  all_goals simp only [update_apply] at hs hc ⊢
  all_goals first | exact h1 _ hs hc | grind -ring -linarith

theorem proc_step (h : Cpus s) (hf : Forks s) (hch : Change s t) (hs : t.stack c = some p)
    (hc : (t.pc p).holds = true) :
    t.lock = some c := by
  have h1 := h.sched
  have h2 := h.proc
  have h3 := h.single
  have h4 := h.current
  have h5 := h.ready
  have h6 := h.live
  have h7 := hf.embryo
  cases hch
  all_goals simp only [update_apply] at hs hc ⊢
  all_goals first | exact h2 _ _ hs hc | grind -ring -linarith

theorem away_step (h : Cpus s) (hch : Change s t) (hs : t.stack c = some p) : t.spc c = .away := by
  have h1 := h.away
  cases hch
  all_goals simp only [update_apply] at hs ⊢
  all_goals first | exact h1 _ _ hs | grind -ring -linarith

theorem current_step (h : Cpus s) (hch : Change s t) (hs : t.stack c = some p) : t.proc c = some p := by
  have h1 := h.current
  have h2 := h.ready
  cases hch
  all_goals simp only [update_apply] at hs ⊢
  all_goals first | exact h1 _ _ hs | grind -ring -linarith

theorem cr3_step (h : Cpus s) (hch : Change s t) (hs : t.cr3 c = some p) : t.proc c = some p := by
  have h1 := h.table
  have h2 := h.chosen
  have h3 := h.free
  have h4 := h.kvm
  cases hch
  all_goals simp only [update_apply] at hs ⊢
  all_goals first | exact h1 _ _ hs | grind -ring -linarith

theorem kvm_step (h : Cpus s) (hch : Change s t) (hs : t.spc c = .kvm) : t.cr3 c = none := by
  have h1 := h.kvm
  cases hch
  all_goals simp only [update_apply] at hs ⊢
  all_goals first | exact h1 _ hs | grind -ring -linarith

theorem free_step (h : Cpus s) (hch : Change s t) (hs : t.spc c = .idle ∨ t.spc c = .scan) : t.proc c = none := by
  have h1 := h.free
  cases hch
  all_goals simp only [update_apply] at hs ⊢
  all_goals first | exact h1 _ hs | grind -ring -linarith

theorem chosen_step (h : Cpus s) (hf : Forks s) (hch : Change s t) (hs : t.spc c = .chosen p ∨ t.spc c = .uvm p) :
    t.proc c = some p ∧ t.state p = .runnable := by
  have h1 := h.chosen
  have h2 := h.single
  have h3 := h.current
  have h4 := h.away
  have h5 := hf.embryo
  cases hch
  all_goals simp only [update_apply] at hs ⊢
  all_goals first | exact h1 _ _ hs | grind -ring -linarith

theorem ready_step (h : Cpus s) (hf : Forks s) (hch : Change s t) (hs : t.spc c = .ready p) :
    t.proc c = some p ∧ t.state p = .running := by
  have h1 := h.ready
  have h2 := h.chosen
  have h3 := h.single
  have h4 := h.current
  have h5 := h.away
  have h6 := hf.embryo
  cases hch
  all_goals simp only [update_apply] at hs ⊢
  all_goals first | exact h1 _ _ hs | grind -ring -linarith

theorem single_step (h : Cpus s) (hch : Change s t) (hc : t.proc c = some p) (hd : t.proc d = some p) : c = d := by
  have h1 := h.single
  have h2 := h.window
  have h3 := h.sched
  cases hch
  all_goals simp only [update_apply] at hc hd
  all_goals first | exact h1 _ _ _ hc hd | grind -ring -linarith

theorem window_step (h : Cpus s) (hf : Forks s) (hch : Change s t) (hc : t.proc c = some p)
    (hp : t.state p ≠ .running) :
    t.lock = some c := by
  have h1 := h.window
  have h2 := h.sched
  have h3 := h.proc
  have h4 := h.single
  have h5 := h.current
  have h6 := h.live
  have h7 := h.free
  have h8 := h.running
  have h9 := hf.embryo
  cases hch
  all_goals simp only [update_apply] at hc hp ⊢
  all_goals first | exact h1 _ _ hc hp | grind -ring -linarith

omit [DecidableEq P] [DecidableEq C] in
theorem Cpus.offStack (h : Cpus s) (hs : s.stack c = none) (hc : s.proc c = some p) : ∀ d, s.stack d ≠ some p := by
  intro d hd
  rw [h.single c d p hc (h.current d p hd), hd] at hs
  cases hs

theorem running_step (h : Cpus s) (hf : Forks s) (hx : Contexts s) (hch : Change s t) (hs : t.stack c = some p) :
    t.state p = .running ↔ (t.pc p).stage = .here := by
  have h1 := h.running
  have h2 := h.single
  have h3 := h.current
  have h4 := h.chosen
  have h5 := h.live
  have h6 := hf.embryo
  cases hch
  case ready c' p' hs' hc' =>
    obtain ⟨hproc, hstate⟩ := h.ready c' p' hc'
    have := Pc.stage_of_suspended (hx.saved p' (.inr (.inr hstate)) (h.offStack hs' hproc)).2
    simp only [update_apply] at hs ⊢
    grind -ring -linarith
  all_goals simp only [update_apply] at hs ⊢
  all_goals first | exact h1 _ _ hs | grind -ring -linarith

theorem live_step (h : Cpus s) (hf : Forks s) (hch : Change s t) (hc : t.proc c = some p) :
    live (t.state p) = true := by
  have h1 := h.live
  have h2 := h.window
  have h3 := h.proc
  have h4 := h.current
  have h5 := h.running
  have h6 := hf.embryo
  cases hch
  all_goals simp only [update_apply] at hc ⊢
  all_goals first | exact h1 _ _ hc | grind -ring -linarith

theorem back_step (h : Cpus s) (hch : Change s t) (hc : t.spc c = .returned ∨ t.spc c = .kvm)
    (hp : t.proc c = some p) : t.state p ≠ .running := by
  have h1 := h.back
  have h2 := h.running
  have h3 := h.current
  have h4 := h.single
  have h5 := h.chosen
  cases hch
  all_goals simp only [update_apply] at hc hp ⊢
  all_goals first | exact h1 _ _ hc hp | grind -ring -linarith

theorem cpus_step (h : Cpus s) (hf : Forks s) (hx : Contexts s) (hch : Change s t) : Cpus t where
  sched _ := sched_step h hch
  proc _ _ := proc_step h hf hch
  away _ _ := away_step h hch
  current _ _ := current_step h hch
  table _ _ := cr3_step h hch
  kvm _ := kvm_step h hch
  free _ := free_step h hch
  chosen _ _ := chosen_step h hf hch
  ready _ _ := ready_step h hf hch
  single _ _ _ := single_step h hch
  window _ _ := window_step h hf hch
  running _ _ := running_step h hf hx hch
  live _ _ := live_step h hf hch
  back _ _ := back_step h hch

section Forks

variable {n : P} {k l : Nat}

theorem embryo_step (h : Cpus s) (hf : Forks s) (hch : Change s t) (hp : (t.pc p).fork = some (n, k)) :
    t.state n = .embryo := by
  have h1 := hf.embryo
  have h2 := hf.single
  have h3 := hf.alive
  have h4 := h.chosen
  have h5 := h.current
  have h6 := h.live
  cases hch
  all_goals simp only [update_apply] at hp ⊢
  all_goals first | exact h1 _ _ _ hp | grind -ring -linarith

theorem fork_single_step (hf : Forks s) (hch : Change s t) (hp : (t.pc p).fork = some (n, k))
    (hq : (t.pc q).fork = some (n, l)) : p = q := by
  have h1 := hf.single
  have h2 := hf.embryo
  cases hch
  all_goals simp only [update_apply] at hp hq
  all_goals first | exact h1 _ _ _ _ _ hp hq | grind -ring -linarith

theorem fork_stack_step (h : Cpus s) (hf : Forks s) (hch : Change s t) (hp : (t.pc p).fork = some (n, k + 1)) :
    t.kstack n = true ∧ t.saved n = true ∧ (t.pc n).suspended = true := by
  have h1 := hf.stack
  have h2 := hf.single
  have h3 := hf.embryo
  have h4 := h.ready
  have h5 := h.current
  have h6 := h.live
  cases hch
  all_goals simp only [update_apply] at hp ⊢
  all_goals first | exact h1 _ _ _ hp | grind -ring -linarith

theorem fork_table_step (hf : Forks s) (hch : Change s t) (hp : (t.pc p).fork = some (n, k + 2)) :
    t.pgdir n = true := by
  have h1 := hf.table
  have h2 := hf.single
  have h3 := hf.embryo
  cases hch
  all_goals simp only [update_apply] at hp ⊢
  all_goals first | exact h1 _ _ _ hp | grind -ring -linarith

theorem fork_alive_step (h : Cpus s) (hf : Forks s) (hch : Change s t) (hp : (t.pc p).fork = some (n, k)) :
    t.state p = .running ∨ t.state p = .runnable ∨ t.state p = .sleeping := by
  have h1 := hf.alive
  have h2 := hf.embryo
  have h3 := h.running
  cases hch
  all_goals simp only [update_apply] at hp ⊢
  all_goals first | exact h1 _ _ _ hp | grind -ring -linarith

theorem forks_step (h : Cpus s) (hf : Forks s) (hch : Change s t) : Forks t where
  embryo _ _ _ := embryo_step h hf hch
  single _ _ _ _ _ := fork_single_step hf hch
  stack _ _ _ := fork_stack_step h hf hch
  table _ _ _ := fork_table_step hf hch
  alive _ _ _ := fork_alive_step h hf hch

end Forks

section Contexts

theorem saved_step (h : Cpus s) (hf : Forks s) (hx : Contexts s) (hch : Change s t)
    (hp : t.state p = .runnable ∨ t.state p = .sleeping ∨ t.state p = .running) (hoff : ∀ c, t.stack c ≠ some p) :
    t.saved p = true ∧ (t.pc p).suspended = true := by
  have h1 := hx.loading
  have h2 := hf.stack
  have h3 := h.chosen
  have h4 := hf.embryo
  by_cases hon : ∃ c, s.stack c = some p
  · obtain ⟨c, hc⟩ := hon
    have := hoff c
    cases hch
    all_goals simp only [update_apply] at hp this ⊢
    all_goals grind -ring -linarith
  · rw [not_exists] at hon
    have h5 (hp) := hx.saved p hp hon
    cases hch
    all_goals simp only [update_apply] at hp hoff ⊢
    all_goals grind -ring -linarith

theorem loading_step (h : Cpus s) (hf : Forks s) (hx : Contexts s) (hch : Change s t) {c : C}
    (hs : t.stack c = some p)
    (hp : (t.pc p).stage = .loading) : t.saved p = true := by
  have h1 := hx.loading
  have h2 := h.current
  have h3 := h.live
  have h4 := hf.embryo
  cases hch
  case ready c' p' hs' hc' =>
    obtain ⟨hproc, hstate⟩ := h.ready c' p' hc'
    have := Pc.stage_of_suspended (hx.saved p' (.inr (.inr hstate)) (h.offStack hs' hproc)).2
    simp only [update_apply] at hs hp ⊢
    grind -ring -linarith
  all_goals simp only [update_apply] at hs hp ⊢
  all_goals first | exact h1 _ _ hs hp | grind -ring -linarith

theorem cpu_step (h : Cpus s) (hx : Contexts s) (hch : Change s t) (hp : t.state p = .running) :
    ∃ c, t.proc c = some p := by
  have h1 := h.chosen
  have h2 := h.back
  have h3 := h.sched
  have h4 := h.window
  have h5 := h.free
  by_cases hrun : s.state p = .running
  · obtain ⟨c, hc⟩ := hx.cpu p hrun
    refine ⟨c, ?_⟩
    cases hch
    all_goals simp only [update_apply] at hp ⊢
    all_goals grind -ring -linarith
  · cases hch
    case uvm c p' hs hc =>
      refine ⟨c, ?_⟩
      simp only [update_apply] at hp
      grind -ring -linarith
    all_goals simp only [update_apply] at hp
    all_goals grind -ring -linarith

theorem memory_step (h : Cpus s) (hf : Forks s) (hx : Contexts s) (hch : Change s t)
    (hp : live (t.state p) = true) :
    t.kstack p = true ∧ t.pgdir p = true := by
  have h1 := hx.memory
  have h2 := hf.stack
  have h3 := hf.table
  have h4 := hf.embryo
  have h5 := h.chosen
  have h6 := h.current
  have h7 := h.live
  cases hch
  all_goals simp only [update_apply] at hp ⊢
  all_goals first | exact h1 _ hp | grind -ring -linarith

theorem contexts_step (h : Cpus s) (hf : Forks s) (hx : Contexts s) (hch : Change s t) : Contexts t where
  saved _ := saved_step h hf hx hch
  loading _ _ := loading_step h hf hx hch
  cpu _ := cpu_step h hx hch
  memory _ := memory_step h hf hx hch

end Contexts

omit [DecidableEq C] in
theorem inv_start (initproc : P) : Cpus (start initproc : State P C) ∧ Forks (start initproc : State P C) ∧
    Contexts (start initproc : State P C) := by
  refine ⟨⟨?_, ?_, ?_, ?_, ?_, ?_, ?_, ?_, ?_, ?_, ?_, ?_, ?_, ?_⟩, ⟨?_, ?_, ?_, ?_, ?_⟩, ⟨?_, ?_, ?_, ?_⟩⟩
  all_goals simp only [start]
  all_goals grind -ring -linarith [Pc.holds, Pc.stage, Pc.fork, Back.fork, Pc.suspended]

theorem resume_cases (hch : Change s t) (hs : s.stack c ≠ some p) (ht : t.stack c = some p) :
    s.stack c = none ∧ s.spc c = .ready p := by
  cases hch
  all_goals simp only [update_apply] at ht
  all_goals grind -ring -linarith

variable [Fintype P] {initproc : P}

theorem inv_step {a : Act P C} (h : Cpus s ∧ Forks s ∧ Contexts s) (hst : step initproc s a = some t) :
    Cpus t ∧ Forks t ∧ Contexts t := by
  obtain ⟨h, hf, hx⟩ := h
  have hch := step_change hst
  exact ⟨cpus_step h hf hx hch, forks_step h hf hch, contexts_step h hf hx hch⟩

/-- In every state that is reached, a process is current on at most one CPU, and on one if it is `RUNNING`; a
CPU resumes a process only when the context of the process is complete and no CPU is on its kernel stack; and no
CPU uses a kernel stack or a page table that has been freed. -/
theorem one_cpu {as : List (Act P C)} (hrun : Lib.Runs.run (step initproc) (start initproc) as = some s) :
    (∀ c d p, s.proc c = some p → s.proc d = some p → c = d) ∧
      (∀ p, s.state p = .running → ∃! c, s.proc c = some p) ∧
      (∀ a t c p, step initproc s a = some t → s.stack c ≠ some p → t.stack c = some p →
        s.saved p = true ∧ ∀ d, s.stack d ≠ some p) ∧
      ∀ c p, (s.stack c = some p → s.kstack p = true) ∧ (s.cr3 c = some p → s.pgdir p = true) := by
  obtain ⟨h, hf, hx⟩ : Cpus s ∧ Forks s ∧ Contexts s := by
    exact Lib.Runs.run_invariant (fun s => Cpus s ∧ Forks s ∧ Contexts s) (fun _ _ _ h _ hst => inv_step h hst)
      (inv_start initproc) (Lib.Runs.along_true _ _) hrun
  refine ⟨h.single, fun p hp => ?_, fun a t c p hst hs ht => ?_, fun c p => ⟨fun hs => ?_, fun hs => ?_⟩⟩
  · obtain ⟨c, hc⟩ := hx.cpu p hp
    exact ⟨c, hc, fun d hd => h.single d c p hd hc⟩
  · obtain ⟨hnone, hready⟩ := resume_cases (step_change hst) hs ht
    obtain ⟨hproc, hstate⟩ := h.ready c p hready
    have hoff := h.offStack hnone hproc
    exact ⟨(hx.saved p (.inr (.inr hstate)) hoff).1, hoff⟩
  · exact (hx.memory p (h.live c p (h.current c p hs))).1
  · exact (hx.memory p (h.live c p (h.table c p hs))).2

/-- On two CPUs, `initproc` forks; the child exits on the other CPU and is reaped. -/
theorem one_cpu_fork :
    let as : List (Act (Fin 3) (Fin 2)) :=
      [.run 0, .pick 0 0, .run 0, .run 0, .run 0, .run 0, .run 0, .call 0 .fork, .run 0, .alloc 0 1, .run 0,
        .child 0 true,
        .child 0 true, .run 0, .run 0, .run 1, .pick 1 1, .run 1, .run 1, .run 1, .run 1, .run 1, .call 1 .exit,
          .run 1, .run 1, .run 1, .run 1, .run 1, .run 1, .run 1, .rest 1, .call 0 .wait, .run 0, .reap 0 1, .run 0]
    ∃ s, Lib.Runs.run (step 0) (start 0) as = some s ∧ s.state 1 = .unused ∧ s.state 0 = .running ∧
      ∃! c, s.proc c = some 0 := by
  intro as
  have hrun : (Lib.Runs.run (step 0) (start 0) as).any
      (fun s => decide (s.state 1 = .unused) && decide (s.state 0 = .running)) = true := by decide +kernel
  obtain ⟨s, hs, hp⟩ := (Option.any_eq_true _ _).mp hrun
  simp only [Bool.and_eq_true, decide_eq_true_eq] at hp
  exact ⟨s, hs, hp.1, hp.2, (one_cpu hs).2.1 0 hp.2⟩

end Xv6.Proc.Switch
