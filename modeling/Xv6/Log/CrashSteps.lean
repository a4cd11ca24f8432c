import Xv6.Log.Crash

namespace Xv6.Log

open Lib.BlockWrites Lib.Runs

variable {P : Type} {g : Region} {d : Disk} {s t : State P} {a : Act P}

theorem Recorded.of_eq (h : Recorded g s) (hlh : t.lh = s.lh) (hh : t.hist = s.hist) : Recorded g t := by
  obtain ⟨h1, h2, h3, h4⟩ := h
  exact ⟨hlh ▸ h1, hlh ▸ h2, by rwa [hlh, hh], hlh ▸ h4⟩

theorem Settled.of_eq (h : Settled g d s) (hd : t.disk = s.disk) (hh : t.hist = s.hist) : Settled g d t := by
  obtain ⟨h1, h2⟩ := h
  refine ⟨hd ▸ h1, ?_⟩
  unfold State.old at h2 ⊢
  rwa [hd, hh]

theorem AtStage.of_eq {st : Stage} (h : AtStage g d s st) (hd : t.disk = s.disk) (hlh : t.lh = s.lh)
    (hh : t.hist = s.hist) : AtStage g d t st := by
  have hcopied (n : Nat) (hc : Copied g d s n) : Copied g d t n := by
    unfold Copied State.new at hc ⊢
    simpa only [hd, hlh, hh] using hc
  have hcommitted (n : Nat) (hc : Committed g d s n) : Committed g d t n := by
    refine ⟨?_, ?_, ?_, ?_⟩
    · rw [hd, hlh]; exact hc.header
    · rw [hlh]; exact hcopied _ hc.copied
    · unfold State.new; rw [hd, hlh, hh]; exact hc.home
    · unfold State.old; rw [hd, hlh, hh]; exact hc.rest
  cases st with
  | writeLog tail => exact ⟨hh ▸ h.1, h.2.1.of_eq hd hh, hcopied _ h.2.2⟩
  | writeHead => exact ⟨hh ▸ h.1, h.2.1.of_eq hd hh, hlh ▸ hcopied _ h.2.2⟩
  | install tail => exact ⟨hh ▸ h.1, hcommitted _ h.2⟩
  | clearHead => exact ⟨hh ▸ h.1, hlh ▸ hcommitted _ h.2⟩
  | release => exact ⟨hh ▸ h.1, h.2.of_eq hd hh⟩

theorem Epochs.of_eq (h : Epochs s) (hh : t.hist = s.hist)
    (hop : ∀ p op, (t.pc p).op? = some op → ∃ q op', (s.pc q).op? = some op' ∧ op'.no = op.no) : Epochs t := by
  refine ⟨hh ▸ h.le, hh ▸ h.logged, ?_⟩
  intro p op hp
  obtain ⟨q, op', hq, hno⟩ := hop p op hp
  rw [hh, ← hno]
  exact h.current q op' hq

theorem Cached.of_eq (h : Cached g d s) (hd : t.disk = s.disk) (hc : t.cache = s.cache)
    (hdirty : t.dirty = s.dirty) (hheld : ∀ q, (t.pc q).held? = (s.pc q).held?)
    (htr : t.hist.trace = s.hist.trace) : Cached g d t := by
  have hHeld : ∀ b, Held t b ↔ Held s b := fun b => by simp only [Held, hheld]
  refine ⟨?_, ?_, ?_, ?_, ?_⟩
  · intro p b; rw [hheld]; exact h.held p b
  · intro p q b; rw [hheld, hheld]; exact h.unique p q b
  · intro b hb hn
    rw [hc, State.new, htr]
    exact h.data b hb (fun hs => hn ((hHeld b).mpr hs))
  · rw [hdirty]; exact h.dirty
  · intro b hn hdb
    rw [hc, hd]
    exact h.clean b (fun hs => hn ((hHeld b).mpr hs)) (hdirty ▸ hdb)

theorem Cached.wakeup (h : Cached g d s) : Cached g d s.wakeup := by
  refine Cached.of_eq (t := s.wakeup) h rfl rfl rfl ?_ rfl
  intro q
  show (s.pc q).woken.held? = (s.pc q).held?
  cases s.pc q <;> rfl

theorem Cached.bwrite (h : Cached g d s) (x : Nat) (v : Block) (hv : g.Home x → v = s.new d x) :
    Cached g d (s.bwrite x v) := by
  refine ⟨h.held, h.unique, ?_, ?_, ?_⟩
  · intro b hb hn
    by_cases hx : b = x
    · subst hx
      simpa [State.bwrite, State.new] using hv hb
    · simpa [State.bwrite, State.new, hx] using h.data b hb hn
  · intro b hb
    by_cases hx : b = x
    · subst hx; simp [State.bwrite] at hb
    · exact h.dirty b (by simpa [State.bwrite, hx] using hb)
  · intro b hn hb
    by_cases hx : b = x
    · subst hx; simp [State.bwrite]
    · simpa [State.bwrite, hx] using h.clean b hn (by simpa [State.bwrite, hx] using hb)

variable [DecidableEq P]

theorem Epochs.goto (h : Epochs s) (p : P) (pc : Pc) (hh : t.hist = s.hist)
    (hop : ∀ op, pc.op? = some op → ∃ op', (s.pc p).op? = some op' ∧ op'.no = op.no)
    (ht : t.pc = (s.goto p pc).pc ∨ t.pc = (s.goto p pc).wakeup.pc) : Epochs t := by
  have hgoto : ∀ q op, ((s.goto p pc).pc q).op? = some op → ∃ r op', (s.pc r).op? = some op' ∧ op'.no = op.no := by
    refine State.forall_goto (fun _ c => ∀ op, c.op? = some op →
      ∃ r op', (s.pc r).op? = some op' ∧ op'.no = op.no) ?_ ?_
    · intro op hpc
      exact ⟨p, hop op hpc⟩
    · intro q op hq
      exact ⟨q, op, hq, rfl⟩
  apply h.of_eq hh
  intro q op hq
  rcases ht with ht | ht
  · exact hgoto q op (ht ▸ hq)
  · apply hgoto q op
    rw [ht] at hq
    have hw : ((s.goto p pc).pc q).woken.op? = ((s.goto p pc).pc q).op? := by
      cases (s.goto p pc).pc q <;> rfl
    exact hw.symm.trans hq

theorem Cached.goto (h : Cached g d s) (p : P) (pc : Pc) (hpc : pc.held? = (s.pc p).held?) :
    Cached g d (s.goto p pc) := by
  refine Cached.of_eq (t := s.goto p pc) h rfl rfl rfl ?_ rfl
  intro q
  by_cases hq : q = p
  · subst hq; simp [State.goto, hpc]
  · simp [State.goto, hq]

theorem cached_modify (h : Cached g d s) (p : P) (op : Op) (b : Nat) (v : Block)
    (hpc : s.pc p = .running op) (hfree : ¬ Held s b) (hb : g.Home b ∧ b < 2 ^ 32) :
    Cached g d (modify s p op b v) := by
  have hkeep : ∀ x, ¬ Held (modify s p op b v) x → x ≠ b ∧ ¬ Held s x := by
    intro x hn
    constructor
    · rintro rfl
      exact hn ⟨p, by simp [modify, State.goto, Pc.held?]⟩
    · rintro ⟨q, hq⟩
      apply hn
      have hqp : q ≠ p := by
        rintro rfl
        simp [hpc, Pc.held?] at hq
      exact ⟨q, by simpa [modify, State.goto, hqp] using hq⟩
  refine ⟨?_, ?_, ?_, h.dirty, ?_⟩
  · refine State.forall_goto (fun _ pc => ∀ x, pc.held? = some x → g.Home x ∧ x < 2 ^ 32) ?_ h.held
    intro x hx
    cases hx
    exact hb
  · have hother : ∀ q x, q ≠ p → ((modify s p op b v).pc q).held? = some x → (s.pc q).held? = some x ∧ x ≠ b := by
      intro q x hqp hq
      have hq' : (s.pc q).held? = some x := by simpa [modify, State.goto, hqp] using hq
      exact ⟨hq', fun hxb => hfree ⟨q, hxb ▸ hq'⟩⟩
    have hself : ∀ x, ((modify s p op b v).pc p).held? = some x → x = b := by
      intro x hx
      simpa [modify, State.goto, Pc.held?, eq_comm] using hx
    intro q r x hq hr
    by_cases hqp : q = p <;> by_cases hrp : r = p
    · rw [hqp, hrp]
    · subst hqp
      exact absurd (hself x hq) (hother r x hrp hr).2
    · subst hrp
      exact absurd (hself x hr) (hother q x hqp hq).2
    · exact h.unique q r x (hother q x hqp hq).1 (hother r x hrp hr).1
  · intro x hx hn
    obtain ⟨hxb, hs⟩ := hkeep x hn
    simpa [modify, State.goto, State.new, hxb] using h.data x hx hs
  · intro x hn hdx
    obtain ⟨hxb, hs⟩ := hkeep x hn
    simpa [modify, State.goto, hxb] using h.clean x hs hdx

theorem cached_append (h : Cached g d s) (p : P) (op : Op) (b : Nat) (hpc : s.pc p = .tested op b) :
    Cached g d (logWriteAppend s p op b) := by
  have hp : (s.pc p).held? = some b := by rw [hpc]; rfl
  have hkeep : ∀ x, x ≠ b → ¬ Held (logWriteAppend s p op b) x → ¬ Held s x := by
    rintro x hxb hn ⟨q, hq⟩
    apply hn
    have hqp : q ≠ p := by
      rintro rfl
      rw [hp] at hq
      exact hxb (Option.some.inj hq).symm
    exact ⟨q, by simpa [logWriteAppend, State.goto, hqp] using hq⟩
  have hback : ∀ q x, ((logWriteAppend s p op b).pc q).held? = some x → (s.pc q).held? = some x :=
    State.forall_goto (fun q pc => ∀ x, pc.held? = some x → (s.pc q).held? = some x) (by simp [Pc.held?])
      (fun _ _ hq => hq)
  refine ⟨fun q x hq => h.held q x (hback q x hq),
    fun q r x hq hr => h.unique q r x (hback q x hq) (hback r x hr), ?_, ?_, ?_⟩
  · intro x hx hn
    rw [State.new]
    simp only [logWriteAppend, State.goto, replay_append]
    by_cases hxb : x = b
    · subst hxb; simp
    · rw [Function.update_of_ne hxb]
      exact h.data x hx (hkeep x hxb hn)
  · intro x hx
    by_cases hxb : x = b
    · exact hxb ▸ (h.held p b hp).1
    · exact h.dirty x (by simpa [logWriteAppend, State.goto, hxb] using hx)
  · intro x hn hx
    by_cases hxb : x = b
    · subst hxb; simp [logWriteAppend, State.goto] at hx
    · exact h.clean x (hkeep x hxb hn) (by simpa [logWriteAppend, State.goto, hxb] using hx)

end Xv6.Log
