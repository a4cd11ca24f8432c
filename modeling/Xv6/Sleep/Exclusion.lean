import Xv6.Sleep.Model

namespace Xv6.Sleep

open Function (update_apply)

variable {P C L : Type} [DecidableEq P] [DecidableEq C] [DecidableEq L] {s t : State P C L} {a : Act P C L}

/-- The process is at a place where `ptable.lock` is held, one to which the scheduler has switched included. -/
def Tables (s : State P C L) (p : P) : Prop :=
  (s.pc p).tables = true ∨ (s.pc p).suspended = true ∧ s.state p = .running

/-- The spin locks exclude, and a process that is not running is inside `sched`. -/
structure Locks (s : State P C L) : Prop where
  spin : ∀ p l, (s.pc p).spins = some l → s.spin l = some p
  table : ∀ p, Tables s p → s.ptable = some (.inl p)
  running : ∀ c p, s.proc c = some p → s.state p = .running
  single : ∀ c d p, s.proc c = some p → s.proc d = some p → c = d
  suspended : ∀ p, (s.pc p).suspended = false → s.state p = .running

omit [DecidableEq P] [DecidableEq C] [DecidableEq L] in
theorem Locks.spin_unique (h : Locks s) {p q : P} {l : L} (hp : (s.pc p).spins = some l)
    (hq : (s.pc q).spins = some l) : p = q :=
  Option.some.inj ((h.spin p l hp).symm.trans (h.spin q l hq))

omit [DecidableEq P] [DecidableEq C] [DecidableEq L] in
theorem Locks.table_unique (h : Locks s) {p q : P} (hp : Tables s p) (hq : Tables s q) : p = q :=
  Sum.inl.inj (Option.some.inj ((h.table p hp).symm.trans (h.table q hq)))

theorem spin_step (h : Locks s) (hst : Step s a t) (q : P) (m : L) (hq : (t.pc q).spins = some m) :
    t.spin m = some q := by
  have hspin := h.spin
  cases hst
  all_goals simp only [State.goto, State.setSpin, State.setLk, State.setChan, State.setState, State.sched,
    State.wakeup1, update_apply] at hq ⊢
  case call c p k hc hpc hk => cases k <;> grind -ring -linarith [Pc.spins, Call.entry]
  case wakeAll c p chan lk hc hpc => cases lk <;> grind -ring -linarith [Pc.spins]
  all_goals grind -ring -linarith [Pc.spins]

theorem table_step (h : Locks s) (hst : Step s a t) (q : P) (hq : Tables t q) : t.ptable = some (.inl q) := by
  have htable := h.table
  have hrunning := h.running
  have hsuspended := h.suspended
  unfold Tables at hq htable
  cases hst
  all_goals simp only [State.goto, State.setSpin, State.setLk, State.setChan, State.setState, State.sched,
    State.wakeup1, update_apply] at hq ⊢
  case call c p k hc hpc hk => cases k <;> grind -ring -linarith [Pc.tables, Pc.suspended, Call.entry]
  case wakeAll c p chan lk hc hpc => cases lk <;> grind -ring -linarith [Pc.tables, Pc.suspended]
  all_goals grind -ring -linarith [Pc.tables, Pc.suspended]

theorem running_step (h : Locks s) (hst : Step s a t) (d : C) (q : P) (hq : t.proc d = some q) :
    t.state q = .running := by
  have hrunning := h.running
  have hsingle := h.single
  cases hst
  all_goals simp only [State.goto, State.setSpin, State.setLk, State.setChan, State.setState, State.sched,
    State.wakeup1, update_apply] at hq ⊢
  all_goals grind -ring -linarith

theorem single_step (h : Locks s) (hst : Step s a t) (d e : C) (q : P) (hd : t.proc d = some q)
    (he : t.proc e = some q) : d = e := by
  have hrunning := h.running
  have hsingle := h.single
  cases hst
  all_goals simp only [State.goto, State.setSpin, State.setLk, State.setChan, State.setState, State.sched,
    State.wakeup1, update_apply] at hd he
  all_goals grind -ring -linarith

theorem suspended_step (h : Locks s) (hst : Step s a t) (q : P) (hq : (t.pc q).suspended = false) :
    t.state q = .running := by
  have hrunning := h.running
  have hsuspended := h.suspended
  cases hst
  all_goals simp only [State.goto, State.setSpin, State.setLk, State.setChan, State.setState, State.sched,
    State.wakeup1, update_apply] at hq ⊢
  all_goals grind -ring -linarith [Pc.suspended]

theorem locks_step (h : Locks s) (hst : Step s a t) : Locks t :=
  ⟨spin_step h hst, table_step h hst, running_step h hst, single_step h hst, suspended_step h hst⟩

/-- A lock that a process has is marked as locked, no other process has it, and only its owner is inside
`releasesleep` before the mark is taken away. -/
structure Owners (s : State P C L) : Prop where
  locked : ∀ p l, s.owns p l = true → (s.lk l).locked = true
  unique : ∀ p q l, s.owns p l = true → s.owns q l = true → p = q
  releasing : ∀ p l, s.pc p = .releaseAcquire l ∨ s.pc p = .clear l → s.owns p l = true

theorem locked_step (h : Owners s) (hst : Step s a t) (q : P) (m : L) (hq : t.owns q m = true) :
    (t.lk m).locked = true := by
  have hlocked := h.locked
  have hunique := h.unique
  have hreleasing := h.releasing
  cases hst
  all_goals simp only [State.goto, State.setSpin, State.setLk, State.setChan, State.setState, State.sched,
    State.wakeup1, update_apply] at hq ⊢
  all_goals grind -ring -linarith

theorem unique_step (h : Owners s) (hst : Step s a t) (q r : P) (m : L) (hq : t.owns q m = true)
    (hr : t.owns r m = true) : q = r := by
  have hlocked := h.locked
  have hunique := h.unique
  cases hst
  all_goals simp only [State.goto, State.setSpin, State.setLk, State.setChan, State.setState, State.sched,
    State.wakeup1, update_apply] at hq hr
  all_goals grind -ring -linarith

theorem releasing_step (h : Owners s) (hst : Step s a t) (q : P) (m : L)
    (hq : t.pc q = .releaseAcquire m ∨ t.pc q = .clear m) : t.owns q m = true := by
  have hreleasing := h.releasing
  cases hst
  all_goals simp only [State.goto, State.setSpin, State.setLk, State.setChan, State.setState, State.sched,
    State.wakeup1, update_apply] at hq ⊢
  case call c p k hc hpc hk => cases k <;> grind -ring -linarith [Call.entry, Call.Allowed]
  case wakeAll c p chan lk hc hpc => cases lk <;> grind -ring -linarith
  all_goals grind -ring -linarith

theorem owners_step (h : Owners s) (hst : Step s a t) : Owners t :=
  ⟨locked_step h hst, unique_step h hst, releasing_step h hst⟩

end Xv6.Sleep
