import Xv6.Proc.Family

namespace Xv6.Proc

open Kernel (ProcState)
open Function (update update_apply update_of_ne update_self)

variable {s t : State} {a : Act}

theorem wakeup_sleeping {x : Slot} {c : Option Chan} (h : (x.wakeup c).state = .sleeping) :
    x.state = .sleeping ∧ x.chan ≠ c := by
  unfold Slot.wakeup at h
  split at h
  next => cases h
  next hno => exact ⟨h, fun hc => hno ⟨h, hc⟩⟩

theorem wakeup_chan (x : Slot) (c : Option Chan) : (x.wakeup c).chan = x.chan := by
  unfold Slot.wakeup
  split <;> rfl

theorem adopt_state (x : Slot) (p i : Fin nproc) : (x.adopt p i).state = x.state := by
  unfold Slot.adopt
  split <;> rfl

theorem adopt_chan (x : Slot) (p i : Fin nproc) : (x.adopt p i).chan = x.chan := by
  unfold Slot.adopt
  split <;> rfl

theorem exitSlot_chan (tb : Fin nproc → Slot) (i p q : Fin nproc) : (exitSlot tb i p q).chan = (tb q).chan := by
  unfold exitSlot
  split <;> split <;> simp [wakeup_chan, adopt_chan]

theorem exitSlot_sleeping {tb : Fin nproc → Slot} {i p q : Fin nproc} (h : (exitSlot tb i p q).state = .sleeping) :
    q ≠ p ∧ (tb q).state = .sleeping ∧ (tb q).chan ≠ (tb p).parent.map .proc ∧
      ∀ r, (tb r).parent = some p → (tb r).state = .zombie → (tb q).chan ≠ some (.proc i) := by
  by_cases hq : q = p
  · rw [exitSlot, if_pos hq] at h
    cases h
  · rw [exitSlot, if_neg hq] at h
    split at h
    next hz =>
      obtain ⟨h, hne⟩ := wakeup_sleeping h
      rw [adopt_chan, wakeup_chan] at hne
      rw [adopt_state] at h
      obtain ⟨h, hpar⟩ := wakeup_sleeping h
      exact ⟨hq, h, hpar, fun r _ _ => hne⟩
    next hz =>
      rw [adopt_state] at h
      obtain ⟨h, hpar⟩ := wakeup_sleeping h
      refine ⟨hq, h, hpar, fun r hr hrz => ?_⟩
      rw [Option.not_isSome_iff_eq_none] at hz
      exact absurd hrz (zombieChild_eq_none hz r hr)

def Attended (s : State) : Prop :=
  ∀ p, s.pc p = .waiting → (s.table p).state = .sleeping →
    (s.table p).chan = some (.proc p) ∧ ∀ q, (s.table q).parent = some p → (s.table q).state ≠ .zombie

theorem attended_exit (hf : Family s) (h : Attended s) (p : Fin nproc) : Attended (exit s p) := by
  intro r hpc hr
  obtain ⟨hrp, hst, hpar, hzom⟩ := exitSlot_sleeping hr
  obtain ⟨hch, hno⟩ := h r hpc hst
  refine ⟨(exitSlot_chan ..).trans hch, fun q hq hz => ?_⟩
  have hz := phase_eq_zombie.mpr hz
  simp only [exit, exitSlot_parent] at hq
  simp only [exit, exitSlot_phase] at hz
  split at hq
  next hchild =>
    -- an abandoned child: it was a zombie already, and the first process has been woken
    cases hq
    split at hz
    next hqp => exact hf.other p (hqp ▸ hchild)
    next => exact hzom q hchild (phase_eq_zombie.mp hz) hch
  next =>
    split at hz
    next hqp =>
      rw [← hqp, hq] at hpar
      exact hpar hch
    next => exact hno q hq (phase_eq_zombie.mp hz)

theorem attended_step (hf : Family s) (h : Attended s) (hst : Step s a t) : Attended t := by
  cases hst
  case exit p hr hpc hp => exact attended_exit hf h p
  all_goals
    unfold Attended at *
    simp only [State.goto, State.setSlot, forkReturn, update_apply, apply_ite Slot.state,
      apply_ite Slot.chan, apply_ite Slot.parent]
  all_goals grind -ring -linarith [Slot.reap, Slot.kill, Slot.wakeup, Pc.isUser, Running]

def Active (s : State) (q : Fin nproc) : Prop := (s.table q).phase = .live ∨ (s.table q).phase = .zombie

def Entitled (b : Birth) (parent : Nat) (exited : List Nat) : Prop :=
  b.creator = some parent ∨ parent = 0 ∧ ∃ c ∈ exited, b.creator = some c

/-- The history of a run agrees with the table: what has exited is a zombie or has been reaped, and never both. -/
structure Ledger (s : State) : Prop where
  init : s.serial s.initproc = 0
  birth : ∀ q, Active s q → ∃ b, s.births[s.serial q]? = some b ∧ b.pid = (s.table q).pid ∧
    ∀ r, (s.table q).parent = some r → Entitled b (s.serial r) s.exited
  serial : ∀ p q, Active s p → Active s q → s.serial p = s.serial q → p = q
  live : ∀ q, (s.table q).phase = .live → s.serial q ∉ s.exited
  zombie : ∀ q, (s.table q).phase = .zombie → s.serial q ∈ s.exited ∧ s.serial q ∉ s.reaped.map Reaping.child
  exited : ∀ n ∈ s.exited, n ∈ s.reaped.map Reaping.child ∨ ∃ q, (s.table q).phase = .zombie ∧ s.serial q = n
  reaped : ∀ n ∈ s.reaped.map Reaping.child, n ∈ s.exited
  born : ∀ n ∈ s.exited, n < s.births.length
  once : s.exited.Nodup ∧ (s.reaped.map Reaping.child).Nodup
  entitled : ∀ x ∈ s.reaped, ∃ b, s.births[x.child]? = some b ∧ b.pid = x.pid ∧ Entitled b x.parent s.exited

theorem Entitled.mono {b : Birth} {n : Nat} {l l' : List Nat} (h : Entitled b n l) (hl : ∀ c ∈ l, c ∈ l') :
    Entitled b n l' :=
  h.imp_right fun ⟨hn, c, hc, hb⟩ => ⟨hn, c, hl c hc, hb⟩

theorem Ledger.congr (h : Ledger s) (hq : ∀ q, Active t q → (t.table q).phase = (s.table q).phase ∧
      (t.table q).parent = (s.table q).parent ∧ (t.table q).pid = (s.table q).pid)
    (hz : ∀ q, (s.table q).phase = .zombie → (t.table q).phase = .zombie) (hi : t.initproc = s.initproc)
    (hs : t.serial = s.serial) (hb : t.births = s.births) (he : t.exited = s.exited) (hr : t.reaped = s.reaped) :
    Ledger t := by
  have hact (q : Fin nproc) (h : Active t q) : Active s q := by rwa [Active, (hq q h).1] at h
  constructor
  · rw [hs, hi]; exact h.init
  · intro q h'
    rw [hs, hb, he, (hq q h').2.1, (hq q h').2.2]
    exact h.birth q (hact q h')
  · intro p q hp hq
    rw [hs]
    exact h.serial p q (hact p hp) (hact q hq)
  · intro q h'
    rw [hs, he]
    exact h.live q ((hq q (.inl h')).1 ▸ h')
  · intro q h'
    rw [hs, he, hr]
    exact h.zombie q ((hq q (.inr h')).1 ▸ h')
  · rw [he, hr, hs]
    exact fun n hn => (h.exited n hn).imp_right fun ⟨q, hq, hn⟩ => ⟨q, hz q hq, hn⟩
  · rw [he, hr]; exact h.reaped
  · rw [he, hb]; exact h.born
  · rw [he, hr]; exact h.once
  · rw [he, hr, hb]; exact h.entitled

theorem Quiet.ledger (hq : Quiet s t) (h : Ledger s) : Ledger t :=
  h.congr (fun q _ => ⟨hq.phase q, hq.parent q, hq.pid q⟩) (fun q hz => (hq.phase q).trans hz) hq.initproc hq.serial
    hq.births hq.exited hq.reaped

theorem Ledger.setSlot (h : Ledger s) (np : Fin nproc) {x : Slot} (hnp : ¬ Active s np)
    (hx : x.phase = .free ∨ x.phase = .embryo) (htb : t.table = update s.table np x)
    (hi : t.initproc = s.initproc) (hs : t.serial = s.serial) (hb : t.births = s.births) (he : t.exited = s.exited)
    (hr : t.reaped = s.reaped) : Ledger t := by
  refine h.congr (fun q hq => ?_) (fun q hz => ?_) hi hs hb he hr
  · have hqn : q ≠ np := by
      rintro rfl
      rw [Active, htb, update_self] at hq
      rcases hx with hx | hx <;> simp [hx] at hq
    rw [htb, update_of_ne hqn]
    exact ⟨rfl, rfl, rfl⟩
  · have hqn : q ≠ np := fun e => hnp (e ▸ .inr hz)
    rwa [htb, update_of_ne hqn]

theorem Ledger.serial_lt (h : Ledger s) {q : Fin nproc} (hq : Active s q) : s.serial q < s.births.length := by
  obtain ⟨b, hb, -⟩ := h.birth q hq
  exact (List.getElem?_eq_some_iff.mp hb).1

theorem ledger_forkReturn (hf : Family s) (h : Ledger s) {p np : Fin nproc} (hpc : s.pc p = .forked np) :
    Ledger (forkReturn s p np) := by
  obtain ⟨hemb, hpar⟩ := hf.forked p np hpc
  have hlive : (s.table p).phase = .live := hf.busy p (by rw [hpc]; rfl)
  have hpn : p ≠ np := by
    rintro rfl
    rw [hemb] at hlive
    cases hlive
  have hne {q : Fin nproc} (hq : Active s q) : q ≠ np := by
    rintro rfl
    simp [Active, hemb] at hq
  have hold {q : Fin nproc} (hq : Active (forkReturn s p np) q) (hqn : q ≠ np) : Active s q := by
    simpa [Active, forkReturn, State.goto, State.setSlot, hqn] using hq
  have hser {q : Fin nproc} (hqn : q ≠ np) : (forkReturn s p np).serial q = s.serial q := by
    simp [forkReturn, State.goto, hqn]
  have hnew : (forkReturn s p np).serial np = s.births.length := by simp [forkReturn, State.goto]
  have htab {q : Fin nproc} (hqn : q ≠ np) : (forkReturn s p np).table q = s.table q := by
    simp [forkReturn, State.goto, State.setSlot, hqn]
  have hgrow {n : Nat} {b : Birth} (hb : s.births[n]? = some b) : (forkReturn s p np).births[n]? = some b := by
    have hlt := (List.getElem?_eq_some_iff.mp hb).1
    show (s.births ++ [_])[n]? = some b
    rwa [List.getElem?_append_left hlt]
  have hinit : s.initproc ≠ np := hne (.inl hf.init.1)
  constructor
  · exact (hser hinit).trans h.init
  · intro q hq
    by_cases hqn : q = np
    · subst hqn
      refine ⟨⟨some (s.serial p), (s.table q).pid⟩, ?_, ?_, fun r hr => ?_⟩
      · rw [hnew]
        exact List.getElem?_concat_length
      · simp [forkReturn, State.goto, State.setSlot]
      · have : r = p := by
          have : (s.table q).parent = some r := by simpa [forkReturn, State.goto, State.setSlot] using hr
          exact Option.some.inj (this.symm.trans hpar)
        subst this
        exact .inl (by rw [hser hpn])
    · obtain ⟨b, hb, hpid, hent⟩ := h.birth q (hold hq hqn)
      refine ⟨b, hser hqn ▸ hgrow hb, htab hqn ▸ hpid, fun r hr => ?_⟩
      rw [htab hqn] at hr
      have hrn : r ≠ np := hne (.inl (hf.parent q r hr))
      rw [hser hrn]
      exact hent r hr
  · intro q r hq hr heq
    by_cases hqn : q = np <;> by_cases hrn : r = np
    · exact hqn.trans hrn.symm
    · rw [hqn, hnew, hser hrn] at heq
      exact absurd heq (h.serial_lt (hold hr hrn)).ne'
    · rw [hrn, hnew, hser hqn] at heq
      exact absurd heq (h.serial_lt (hold hq hqn)).ne
    · rw [hser hqn, hser hrn] at heq
      exact h.serial q r (hold hq hqn) (hold hr hrn) heq
  · intro q hq hex
    by_cases hqn : q = np
    · rw [hqn, hnew] at hex
      exact absurd (h.born _ hex) (lt_irrefl _)
    · rw [hser hqn] at hex
      exact h.live q (htab hqn ▸ hq) hex
  · intro q hq
    have hqn : q ≠ np := by
      rintro rfl
      simp [forkReturn, State.goto, State.setSlot, phase_runnable] at hq
    rw [hser hqn]
    exact h.zombie q (htab hqn ▸ hq)
  · refine fun n hn => (h.exited n hn).imp_right ?_
    rintro ⟨q, hq, hn⟩
    refine ⟨q, ?_, ?_⟩
    · rwa [htab (hne (.inr hq))]
    · rwa [hser (hne (.inr hq))]
  · exact h.reaped
  · exact fun n hn => (h.born n hn).trans_le (by simp [forkReturn, State.goto])
  · exact h.once
  · intro x hx
    obtain ⟨b, hb, hpid, hent⟩ := h.entitled x hx
    exact ⟨b, hgrow hb, hpid, hent⟩

theorem ledger_exit (h : Ledger s) {p : Fin nproc} (hr : (s.table p).phase = .live) : Ledger (exit s p) := by
  have hgrow : ∀ c ∈ s.exited, c ∈ (exit s p).exited := fun c hc => List.mem_append_left _ hc
  have hself : s.serial p ∈ (exit s p).exited := List.mem_append_right _ (List.mem_singleton_self _)
  have hph (q : Fin nproc) : ((exit s p).table q).phase = if q = p then .zombie else (s.table q).phase :=
    exitSlot_phase ..
  have hold {q : Fin nproc} (hq : Active (exit s p) q) : Active s q := by
    by_cases hqp : q = p
    · exact .inl (hqp ▸ hr)
    · rwa [Active, hph, if_neg hqp] at hq
  have hnot : s.serial p ∉ s.exited := h.live p hr
  constructor
  · exact h.init
  · intro q hq
    obtain ⟨b, hb, hpid, hent⟩ := h.birth q (hold hq)
    refine ⟨b, hb, hpid.trans (exitSlot_pid ..).symm, fun r hrq => ?_⟩
    rw [exit, exitSlot_parent] at hrq
    split at hrq
    next hchild =>
      -- an abandoned child: its creator was the process that exits, or had exited before
      cases hrq
      rcases hent p hchild with hc | ⟨-, hc⟩
      · exact .inr ⟨h.init, s.serial p, hself, hc⟩
      · obtain ⟨c, hc, hb⟩ := hc
        exact .inr ⟨h.init, c, hgrow c hc, hb⟩
    next => exact (hent r hrq).mono hgrow
  · exact fun q r hq hr' => h.serial q r (hold hq) (hold hr')
  · intro q hq hex
    rw [hph] at hq
    split at hq
    next => cases hq
    next hqp =>
      rcases List.mem_append.mp hex with hex | hex
      · exact h.live q hq hex
      · exact hqp (h.serial q p (.inl hq) (.inl hr) (List.mem_singleton.mp hex))
  · intro q hq
    rw [hph] at hq
    split at hq
    next hqp =>
      subst hqp
      exact ⟨hself, fun hre => hnot (h.reaped _ hre)⟩
    next => exact ⟨hgrow _ (h.zombie q hq).1, (h.zombie q hq).2⟩
  · intro n hn
    rcases List.mem_append.mp hn with hn | hn
    · refine (h.exited n hn).imp_right ?_
      rintro ⟨q, hq, hn⟩
      refine ⟨q, ?_, hn⟩
      rw [hph]
      split
      next => rfl
      next => exact hq
    · exact .inr ⟨p, by rw [hph, if_pos rfl], (List.mem_singleton.mp hn).symm⟩
  · exact fun n hn => hgrow n (h.reaped n hn)
  · intro n hn
    rcases List.mem_append.mp hn with hn | hn
    · exact h.born n hn
    · rw [List.mem_singleton.mp hn]
      exact h.serial_lt (.inl hr)
  · exact ⟨List.nodup_append.mpr ⟨h.once.1, List.nodup_singleton _, fun c hc d hd =>
      fun e => hnot (List.mem_singleton.mp hd ▸ e ▸ hc)⟩, h.once.2⟩
  · intro x hx
    obtain ⟨b, hb, hpid, hent⟩ := h.entitled x hx
    exact ⟨b, hb, hpid, hent.mono hgrow⟩

theorem ledger_reap (h : Ledger s) {p q : Fin nproc} (hq : (s.table q).parent = some p)
    (hz : (s.table q).phase = .zombie) :
    Ledger { (s.setSlot q (s.table q).reap).goto p (.user (s.table q).pid) with
      reaped := s.reaped ++ [⟨s.serial q, s.serial p, (s.table q).pid⟩] } := by
  set u : State := { (s.setSlot q (s.table q).reap).goto p (.user (s.table q).pid) with
    reaped := s.reaped ++ [⟨s.serial q, s.serial p, (s.table q).pid⟩] } with hu
  have htab {r : Fin nproc} (hrq : r ≠ q) : u.table r = s.table r := by simp [hu, State.goto, State.setSlot, hrq]
  have hne {r : Fin nproc} (hr : Active u r) : r ≠ q := by
    rintro rfl
    simp [hu, Active, State.goto, State.setSlot, phase_reap] at hr
  have hold {r : Fin nproc} (hr : Active u r) : Active s r := by
    have := hne hr
    rwa [Active, htab this] at hr
  obtain ⟨hex, hre⟩ := h.zombie q hz
  have hchild : u.reaped.map Reaping.child = s.reaped.map Reaping.child ++ [s.serial q] := by simp [hu]
  constructor
  · exact h.init
  · intro r hr
    rw [htab (hne hr)]
    exact h.birth r (hold hr)
  · exact fun r r' hr hr' => h.serial r r' (hold hr) (hold hr')
  · exact fun r hr => h.live r (htab (hne (.inl hr)) ▸ hr)
  · intro r hr
    have hrq := hne (.inr hr)
    rw [htab hrq] at hr
    refine ⟨(h.zombie r hr).1, fun hmem => ?_⟩
    rw [hchild, List.mem_append, List.mem_singleton] at hmem
    rcases hmem with hmem | hmem
    · exact (h.zombie r hr).2 hmem
    · exact hrq (h.serial r q (.inr hr) (.inr hz) hmem)
  · intro n hn
    rw [hchild]
    rcases h.exited n hn with hmem | ⟨r, hr, hn⟩
    · exact .inl (List.mem_append_left _ hmem)
    · by_cases hrq : r = q
      · exact .inl (List.mem_append_right _ (List.mem_singleton.mpr (hrq ▸ hn.symm)))
      · exact .inr ⟨r, by rwa [htab hrq], hn⟩
  · intro n hn
    rw [hchild, List.mem_append, List.mem_singleton] at hn
    rcases hn with hn | rfl
    · exact h.reaped n hn
    · exact hex
  · exact h.born
  · refine ⟨h.once.1, ?_⟩
    rw [hchild]
    exact List.nodup_append.mpr ⟨h.once.2, List.nodup_singleton _, fun c hc d hd =>
      fun e => hre (List.mem_singleton.mp hd ▸ e ▸ hc)⟩
  · intro x hx
    rcases List.mem_append.mp hx with hx | hx
    · exact h.entitled x hx
    · rw [List.mem_singleton.mp hx]
      obtain ⟨b, hb, hpid, hent⟩ := h.birth q (.inr hz)
      exact ⟨b, hb, hpid, hent p hq⟩

theorem ledger_step (hf : Family s) (h : Ledger s) (hst : Step s a t) : Ledger t := by
  have hmove := move_of_step hst
  cases hmove with
  | quiet _ hq => exact hq.ledger h
  | fork p np hr hpc hnp =>
      exact h.setSlot np (by simp [Active, hnp]) (.inr (phase_embryo _ _)) rfl rfl rfl rfl rfl rfl
  | forkFail p np hpc =>
      have hemb := (hf.forking p np hpc).1
      exact h.setSlot np (by simp [Active, hemb]) (.inl (phase_unused _)) rfl rfl rfl rfl rfl rfl
  | forkParent p np hpc =>
      have hemb := (hf.forking p np hpc).1
      exact h.setSlot np (by simp [Active, hemb]) (.inr ((phase_setParent _ _).trans hemb)) rfl rfl rfl rfl rfl rfl
  | forkReturn p np hpc => exact ledger_forkReturn hf h hpc
  | exit p hr hpc hp => exact ledger_exit h hr
  | reap p q hr hq hz => exact ledger_reap h hq hz

theorem family_start : Family start := by
  constructor <;> simp only [start] <;> grind -ring -linarith [Slot.phase, Pc.isUser, Pc.target]

theorem attended_start : Attended start := fun _ hp => nomatch hp

theorem ledger_start : Ledger start := by
  have hact (q : Fin nproc) (hq : Active start q) : q = 0 := by
    by_contra hne
    simp [Active, start, hne, Slot.phase] at hq
  constructor
  · rfl
  · intro q hq
    rw [hact q hq]
    exact ⟨⟨none, 1⟩, rfl, rfl, fun r hr => (by cases hr)⟩
  · exact fun p q hp hq _ => (hact p hp).trans (hact q hq).symm
  · exact fun q _ => List.not_mem_nil
  · intro q hq
    rw [hact q (.inr hq)] at hq
    cases hq
  · exact fun n hn => (by cases hn)
  · exact fun n hn => (by cases hn)
  · exact fun n hn => (by cases hn)
  · exact ⟨List.nodup_nil, List.nodup_nil⟩
  · exact fun x hx => (by cases hx)

/-- What one round of `wait` comes to: the pid of a child that has exited, if there is one; -1 if the caller has no
child or has been killed; else sleep. -/
theorem scan_result {p : Fin nproc} (hst : step s (.scan p) = some t) :
    ((∃ q, (s.table q).parent = some p ∧ (s.table q).state = .zombie) →
      ∃ q, (s.table q).parent = some p ∧ (s.table q).state = .zombie ∧ t.pc p = .user (s.table q).pid ∧
        t.reaped = s.reaped ++ [⟨s.serial q, s.serial p, (s.table q).pid⟩]) ∧
      (t.pc p = .user (-1) → (∀ q, (s.table q).parent ≠ some p) ∨ (s.table p).killed = true) := by
  simp only [step, Option.ite_none_right_eq_some, Option.some.injEq] at hst
  obtain ⟨⟨-, hpc⟩, rfl⟩ := hst
  unfold scan
  split
  next q hq =>
    obtain ⟨hpar, hz⟩ := zombieChild_eq_some hq
    refine ⟨fun _ => ⟨q, hpar, hz, by simp [State.goto], rfl⟩, fun h => ?_⟩
    simp only [State.goto, update_self, Pc.user.injEq] at h
    omega
  next hno =>
    refine ⟨(by rintro ⟨q, hq, hz⟩; exact absurd hz (zombieChild_eq_none hno q hq)), fun h => ?_⟩
    split at h
    next hk => exact hk
    next =>
      rw [State.setSlot, hpc] at h
      cases h

/-- In every run: a process that has exited is a zombie or has been returned by `wait`, once, to its creator or,
after the creator's exit, to the first process; a zombie has a live parent of that kind. One that calls `wait`
with a zombie child gets one, `wait` returns -1 only to a process without children or one that has been killed,
and a process that sleeps in `wait` has no zombie child. -/
theorem exit_wait {as : List Act} (hrun : Lib.Runs.run step start as = some s) :
    (s.exited.Nodup ∧ (s.reaped.map Reaping.child).Nodup ∧
      ∀ n, n ∈ s.exited ↔
        n ∈ s.reaped.map Reaping.child ∨ ∃ q, (s.table q).state = .zombie ∧ s.serial q = n) ∧
    (∀ q, (s.table q).state = .zombie → s.serial q ∉ s.reaped.map Reaping.child ∧
      ∃ r b, (s.table q).parent = some r ∧ (s.table r).phase = .live ∧ s.births[s.serial q]? = some b ∧
        Entitled b (s.serial r) s.exited) ∧
    (∀ x ∈ s.reaped, ∃ b, s.births[x.child]? = some b ∧ b.pid = x.pid ∧ Entitled b x.parent s.exited) ∧
    (∀ p t, step s (.scan p) = some t →
      ((∃ q, (s.table q).parent = some p ∧ (s.table q).state = .zombie) →
        ∃ q, (s.table q).parent = some p ∧ (s.table q).state = .zombie ∧ t.pc p = .user (s.table q).pid ∧
          t.reaped = s.reaped ++ [⟨s.serial q, s.serial p, (s.table q).pid⟩]) ∧
      (t.pc p = .user (-1) → (∀ q, (s.table q).parent ≠ some p) ∨ (s.table p).killed = true)) ∧
    (∀ p, s.pc p = .waiting → (s.table p).state = .sleeping →
      ∀ q, (s.table q).parent = some p → (s.table q).state ≠ .zombie) := by
  have hinv : Family s ∧ Attended s ∧ Ledger s := by
    refine Lib.Runs.run_invariant (fun s => Family s ∧ Attended s ∧ Ledger s) (fun s a t h _ hst => ?_)
      ⟨family_start, attended_start, ledger_start⟩ (Lib.Runs.along_true _ _) hrun
    have hst := step_cases hst
    exact ⟨family_step h.1 hst, attended_step h.1 h.2.1 hst, ledger_step h.1 h.2.2 hst⟩
  obtain ⟨hf, ha, hl⟩ := hinv
  refine ⟨⟨hl.once.1, hl.once.2, fun n => ⟨fun hn => ?_, fun hn => ?_⟩⟩, fun q hq => ⟨?_, ?_⟩, hl.entitled,
    fun p t hst => scan_result hst, fun p hpc hst => (ha p hpc hst).2⟩
  · exact (hl.exited n hn).imp_right fun ⟨q, hq, hn⟩ => ⟨q, phase_eq_zombie.mp hq, hn⟩
  · rcases hn with hn | ⟨q, hq, rfl⟩
    · exact hl.reaped n hn
    · exact (hl.zombie q (phase_eq_zombie.mpr hq)).1
  · exact (hl.zombie q (phase_eq_zombie.mpr hq)).2
  · have hz := phase_eq_zombie.mpr hq
    obtain ⟨b, hb, -, hent⟩ := hl.birth q (.inr hz)
    cases hpar : (s.table q).parent with
    | none =>
        rcases hf.orphan q hpar with h | h | h
        · rw [hz] at h; cases h
        · rw [hz] at h; cases h
        · rw [h, hf.init.1] at hz; cases hz
    | some r => exact ⟨r, b, rfl, hf.parent q r hpar, hb, hent r hpar⟩

/-- The first process forks, its child forks and exits, and the first process reaps both. -/
theorem exit_wait_orphan :
    let as : List Act := [.dispatch 0, .fork 0, .forkParent 0, .forkReturn 0, .dispatch 1, .fork 1, .forkParent 1,
      .forkReturn 1, .wait 0, .scan 0, .exit 1, .dispatch 2, .exit 2, .dispatch 0, .scan 0, .wait 0, .scan 0]
    ∃ s, Lib.Runs.run step start as = some s ∧ s.reaped = [⟨1, 0, 2⟩, ⟨2, 0, 3⟩] ∧
      (s.reaped.map Reaping.child).Nodup := by
  intro as
  have h : (Lib.Runs.run step start as).any (fun s => decide (s.reaped = [⟨1, 0, 2⟩, ⟨2, 0, 3⟩])) = true := by
    decide +kernel
  obtain ⟨s, hs, h⟩ := (Option.any_eq_true _ _).mp h
  exact ⟨s, hs, of_decide_eq_true h, (exit_wait hs).1.2.1⟩

end Xv6.Proc
