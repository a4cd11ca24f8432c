import Xv6.Sleep.Exclusion

namespace Xv6.Sleep

open Lib

variable {P C L : Type} [DecidableEq P] [DecidableEq C] [DecidableEq L] {s t : State P C L} {a : Act P C L}

/-- The process sleeps on the lock, or is in `sleep` and has already released the lock's spin lock. -/
def Sleeper (s : State P C L) (p : P) (l : L) : Prop :=
  s.state p = .sleeping ∧ s.chan p = some (.lock l) ∨ s.pc p = .sleepSched l

def Waking (s : State P C L) (l : L) : Prop :=
  ∃ q, s.pc q = .wakeAcquire (.lock l) (some l) ∨ s.pc q = .wakeAll (.lock l) (some l)

structure Awaited (s : State P C L) : Prop where
  falling : ∀ p l, s.pc p = .sleepAcquire l ∨ s.pc p = .sleepRelease l → (s.lk l).locked = true
  sleeping : ∀ p l, Sleeper s p l → (s.lk l).locked = true ∨ Waking s l

theorem falling_step (hl : Locks s) (h : Awaited s) (hst : Step s a t) (q : P) (m : L)
    (hq : t.pc q = .sleepAcquire m ∨ t.pc q = .sleepRelease m) : (t.lk m).locked = true := by
  have hfalling := h.falling
  cases hst
  all_goals simp only [State.goto, State.setSpin, State.setLk, State.setChan, State.setState, State.sched,
    State.wakeup1, Function.update_apply] at hq ⊢
  case call c p k hc hpc hk => cases k <;> grind -ring -linarith [Call.entry]
  case wakeAll c p chan lk hc hpc => cases lk <;> grind -ring -linarith
  case clear c p l hc hpc =>
    have hne : m = l → q = p := by
      rintro rfl
      refine hl.spin_unique ?_ (by rw [hpc]; rfl)
      split at hq
      · grind -ring -linarith
      · rcases hq with hq | hq <;> rw [hq] <;> rfl
    grind -ring -linarith
  all_goals grind -ring -linarith

theorem sleeper_step (h : Awaited s) (hst : Step s a t) {q : P} {m : L} (hq : Sleeper t q m) :
    Sleeper s q m ∨ (t.lk m).locked = true := by
  have hfalling := h.falling
  unfold Sleeper at hq ⊢
  cases hst
  all_goals simp only [State.goto, State.setSpin, State.setLk, State.setChan, State.setState, State.sched,
    State.wakeup1, Function.update_apply] at hq ⊢
  case call c p k hc hpc hk => cases k <;> grind -ring -linarith [Call.entry]
  case wakeAll c p chan lk hc hpc => cases lk <;> grind -ring -linarith
  all_goals grind -ring -linarith

theorem locked_or_waking (hst : Step s a t) {m : L} (hm : (s.lk m).locked = true) :
    (t.lk m).locked = true ∨ Waking t m := by
  cases hst
  case clear c p l hc hpc =>
    by_cases hml : m = l
    · exact .inr ⟨p, .inl (by simp [State.goto, hml])⟩
    · exact .inl (by simpa [State.goto, State.setLk, hml] using hm)
  all_goals simp only [State.goto, State.setSpin, State.setLk, State.setChan, State.setState, State.sched,
    State.wakeup1, Function.update_apply]
  all_goals grind -ring -linarith

theorem waking_step (hl : Locks s) (hst : Step s a t) {q : P} {m : L} (hm : Waking s m) (hq : Sleeper t q m) :
    Waking t m := by
  obtain ⟨r, hr⟩ := hm
  have keep (h : t.pc r = s.pc r) : Waking t m := ⟨r, by rwa [h]⟩
  cases hst
  case wakeAcquire c p chan lk hc hpc ht =>
    by_cases hrp : r = p
    · subst hrp
      have heq : chan = .lock m ∧ lk = some m := by grind -ring -linarith
      exact ⟨r, .inr (by simp [State.goto, heq])⟩
    · exact keep (by simp [State.goto, hrp])
  case wakeAll c p chan lk hc hpc =>
    by_cases hrp : r = p
    · subst hrp
      have heq : chan = .lock m ∧ lk = some m := by grind -ring -linarith
      have htab : Tables s r := .inl (by rw [hpc]; rfl)
      rcases hq with ⟨hst, hch⟩ | hq
      · simp only [State.goto, State.wakeup1, heq] at hst hch
        grind -ring -linarith
      · -- the other process would be in `sleep` with `ptable.lock` held as well
        by_cases hqr : q = r
        · simp [State.goto, hqr, heq] at hq
        · have hq : s.pc q = .sleepSched m := by simpa [State.goto, State.wakeup1, hqr] using hq
          exact absurd (hl.table_unique (.inl (by rw [hq]; rfl)) htab) hqr
    · exact keep (by simp [State.goto, State.wakeup1, hrp])
  all_goals
    refine keep ?_
    simp only [State.goto, State.setSpin, State.setLk, State.setChan, State.setState, State.sched,
      Function.update_apply]
  all_goals grind -ring -linarith

theorem awaited_step (hl : Locks s) (h : Awaited s) (hst : Step s a t) : Awaited t where
  falling := falling_step hl h hst
  sleeping q m hq := by
    rcases sleeper_step h hst hq with hs | hm
    · rcases h.sleeping q m hs with hm | hw
      · exact locked_or_waking hst hm
      · exact .inr (waking_step hl hst hw hq)
    · exact .inl hm

omit [DecidableEq P] [DecidableEq C] [DecidableEq L] in
theorem locks_start (pid : P → Nat) : Locks (start pid : State P C L) := by
  refine ⟨fun p l h => (nomatch h), fun p h => ?_, fun c p h => (nomatch h), fun c d p h => (nomatch h),
    fun p h => (nomatch h)⟩
  rcases h with h | ⟨-, h⟩ <;> cases h

/-- In every run of the processes on any CPUs: no two processes have a sleep lock at once, and while neither the
lock's spin lock nor `ptable.lock` is held, a process sleeps on the lock only if it is locked. -/
theorem sleeplock_safe {pid : P → Nat} {as : List (Act P C L)} (hrun : Runs.run step (start pid) as = some s)
    (l : L) :
    (∀ p q, s.owns p l = true → s.owns q l = true → p = q) ∧
      (s.spin l = none → s.ptable = none → ∀ p, s.state p = .sleeping → s.chan p = some (.lock l) →
        (s.lk l).locked = true) := by
  have hinv : Locks s ∧ Owners s ∧ Awaited s := by
    refine Runs.run_invariant (fun s => Locks s ∧ Owners s ∧ Awaited s) (fun s a t h _ hst => ?_)
      ⟨locks_start pid, ?_, ?_⟩ (Runs.along_true _ _) hrun
    · have hst := step_cases hst
      exact ⟨locks_step h.1 hst, owners_step h.2.1 hst, awaited_step h.1 h.2.2 hst⟩
    · refine ⟨fun p l h => (nomatch h), fun p q l h => (nomatch h), fun p l h => ?_⟩
      rcases h with h | h <;> cases h
    · refine ⟨fun p l h => ?_, fun p l h => ?_⟩
      · rcases h with h | h <;> cases h
      · rcases h with ⟨h, -⟩ | h <;> cases h
  obtain ⟨hl, ho, ha⟩ := hinv
  refine ⟨fun p q => ho.unique p q l, fun hspin _ p hp hch => ?_⟩
  refine (ha.sleeping p l (.inl ⟨hp, hch⟩)).resolve_right fun ⟨q, hq⟩ => ?_
  have hq : s.spin l = some q := hl.spin q l (by rcases hq with hq | hq <;> rw [hq] <;> rfl)
  rw [hspin] at hq
  cases hq

/-- One process has the lock and a second one on another CPU sleeps on it. -/
theorem sleeplock_safe_contended :
    let as : List (Act Bool Bool Unit) :=
      [.schedule true, .dispatch true true, .run true, .call true (.acquiresleep ()),
      .run true, .run true, .schedule false, .dispatch false false, .run false, .call false (.acquiresleep ()),
      .run false, .run false, .run false, .run false, .run false, .rest false]
    ∃ s, Runs.run step (start fun _ => 0) as = some s ∧ s.state false = .sleeping ∧ s.chan false = some (.lock ()) ∧
      (s.lk ()).locked = true := by
  intro as
  have h : (Runs.run step (start fun _ => 0) as).any (fun s => decide (s.state false = .sleeping) &&
      decide (s.chan false = some (.lock ())) && s.ptable.isNone && (s.spin ()).isNone) = true := by decide +kernel
  obtain ⟨s, hs, h⟩ := (Option.any_eq_true _ _).mp h
  simp only [Bool.and_eq_true, decide_eq_true_eq, Option.isNone_iff_eq_none] at h
  obtain ⟨⟨⟨hst, hch⟩, ht⟩, hl⟩ := h
  exact ⟨s, hs, hst, hch, (sleeplock_safe hs ()).2 hl ht false hst hch⟩

end Xv6.Sleep
