import Xv6.Ide.Queue

namespace Xv6.Ide

open Lib
open Function (update update_of_ne update_self)

variable {P : Type} {s t : State P} {l : List BufId} {p : P} {b : BufId} {x : Buf} {havedisk1 : Bool}

def Mem.Pc.of (view : BufId → Buf) : Option BufId → Mem.Pc
  | none => .idle
  | some b => if (view b).synced then .done b else .called b

def State.abs (s : State P) : Mem.State P where
  memdisk := s.disk true
  buf := s.view
  holder := s.holder
  pc p := .of s.view (s.pc p).on

theorem Silent.abs_eq (h : Silent s t) : t.abs = s.abs := by
  have hview : t.view = s.view := funext h.view
  simp only [State.abs, h.disk, hview, h.holder, h.on]

theorem abs_idle (hp : s.pc p = .idle) : s.abs.pc p = .idle := by
  show Mem.Pc.of s.view (s.pc p).on = .idle
  rw [hp]
  rfl

theorem perform_refines (h : Good s l) (hl : l.head? = some b) (hctrl : s.ctrl = .busy ((s.buf b).cmd b)) :
    Mem.iderw fssize (s.disk true) (s.view b) =
      some ((s.perform ((s.buf b).cmd b) false).disk true, (s.perform ((s.buf b).cmd b) false).view b) := by
  obtain ⟨hs, p, hp⟩ := h.waiting (List.mem_of_head? hl)
  obtain ⟨hdev, hblock⟩ := h.block p b hp
  obtain ⟨hsector, hdisk1⟩ := Regs.of_spec hblock
  have hview : s.view b = s.buf b := by rw [State.view, hctrl]
  rw [hview, Mem.iderw, hs, if_neg Bool.false_ne_true, if_neg (not_not.mpr hdev), if_neg (by omega)]
  cases hd : (s.buf b).dirty with
  | true => simp [State.perform, State.view, Buf.cmd, Buf.finish, hd, hdev, hsector, hdisk1]
  | false => simp [State.perform, State.view, Buf.cmd, Buf.finish, hd, hdev, hsector, hdisk1]

variable [DecidableEq P]

theorem abs_goto (s : State P) (p : P) (pc : Pc) : (s.goto p pc).abs = s.abs.goto p (.of s.view pc.on) := by
  have hpc : (fun q => Mem.Pc.of s.view ((s.goto p pc).pc q).on) = update s.abs.pc p
    (.of s.view pc.on) := by
    funext q
    by_cases hq : q = p
    · subst hq
      rw [goto_self, update_self]
    · rw [goto_of_ne _ _ hq, update_of_ne hq]
      rfl
  exact congrArg (fun f => ({ s.abs with pc := f } : Mem.State P)) hpc

omit [DecidableEq P] in
theorem abs_fill (h : Good s l) (hb : ∀ q, (s.pc q).on ≠ some b) (x : Buf) :
    (s.setBuf b x).abs = s.abs.setBuf b x := by
  have hhead : l.head? ≠ some b := fun hl => h.notMem hb (List.mem_of_head? hl)
  have hview : (s.setBuf b x).view = update s.view b x := by
    funext c
    by_cases hc : c = b
    · subst hc
      rw [(good_fill h hb).view_eq hhead, update_self]
      exact update_self ..
    · rw [update_of_ne hc]
      simp only [State.view, show (s.setBuf b x).buf c = s.buf c from update_of_ne hc ..]
      rfl
  have hpc : (fun q => Mem.Pc.of (update s.view b x) (s.pc q).on) = s.abs.pc := by
    funext q
    show _ = Mem.Pc.of s.view (s.pc q).on
    cases hq : (s.pc q).on with
    | none => rfl
    | some c =>
        have hc : c ≠ b := fun he => hb q (he ▸ hq)
        simp only [Mem.Pc.of, update_of_ne hc]
  show Mem.State.mk _ (s.setBuf b x).view _ (fun q => Mem.Pc.of (s.setBuf b x).view (s.pc q).on) = _
  rw [hview, hpc]
  rfl

theorem sim_event {e : Event P} (h : Good s l) (hf : Fine s (.event e))
    (hst : step havedisk1 s (.event e) = some t) :
    Good t l ∧ Mem.step fssize s.abs (.event e) = some t.abs := by
  cases e with
  | acquiresleep p b =>
      simp only [step, Option.ite_none_right_eq_some] at hst
      obtain ⟨⟨hp, hb⟩, ht⟩ := hst
      have hoff (q : P) : (s.pc q).on ≠ some b := fun hq => by
        cases hb.symm.trans (h.holder q b hq)
      rw [← Option.some.inj ht]
      exact ⟨good_setHolder h hoff, if_pos ⟨abs_idle hp, hb⟩⟩
  | releasesleep p b =>
      simp only [step, Option.ite_none_right_eq_some] at hst
      obtain ⟨⟨hp, hb⟩, ht⟩ := hst
      rw [← Option.some.inj ht]
      exact ⟨good_setHolder h (h.off hb hp), if_pos ⟨abs_idle hp, hb⟩⟩
  | fill p b x =>
      simp only [step, Option.ite_none_right_eq_some] at hst
      obtain ⟨⟨hp, hb⟩, ht⟩ := hst
      rw [← Option.some.inj ht, abs_fill h (h.off hb hp)]
      exact ⟨good_fill h (h.off hb hp), if_pos ⟨abs_idle hp, hb⟩⟩
  | iderw p b =>
      simp only [step, Option.ite_none_right_eq_some, Option.ite_none_left_eq_some, not_not,
        Bool.not_eq_true] at hst
      obtain ⟨hp, hb, hs, -, ht⟩ := hst
      have hview := h.view_of_notMem (h.notMem (h.off hb hp))
      rw [← Option.some.inj ht]
      refine ⟨good_iderw h hp hb hs hf.1 hf.2, (if_pos (abs_idle hp)).trans (congrArg some ?_)⟩
      have hcalled : Mem.Pc.of s.view (some b) = .called b :=
        by rw [Mem.Pc.of, hview, hs, if_neg Bool.false_ne_true]
      rw [← hcalled]
      exact (abs_goto s p (.entered b)).symm
  | ret p x =>
      simp only [step] at hst
      split at hst
      next b hpc =>
        rw [Option.ite_none_right_eq_some] at hst
        have hok := h.pc p
        rw [hpc] at hok
        have hview := h.view_of_notMem hok.1
        have hdone : s.abs.pc p = .done b := by
          show Mem.Pc.of s.view (s.pc p).on = _
          rw [hpc, Pc.on, Mem.Pc.of, hview, hok.2, if_pos rfl]
        rw [← Option.some.inj hst.2, abs_goto]
        refine ⟨good_ret h hpc, ?_⟩
        simp only [Mem.step, hdone]
        exact if_pos (hview.trans hst.1)
      next => cases hst

theorem sim_perform (h : Good s l) {cmd : Cmd} (hctrl : s.ctrl = .busy cmd) :
    Good (s.perform cmd false) l ∧ ∃ p, Mem.step fssize s.abs (.commit p) = some (s.perform cmd false).abs := by
  obtain ⟨b, hl, rfl⟩ := h.busy hctrl
  obtain ⟨hs, p, hp⟩ := h.waiting (List.mem_of_head? hl)
  have hview : s.view b = s.buf b := by rw [State.view, hctrl]
  have hcalled : s.abs.pc p = .called b := by
    show Mem.Pc.of s.view (s.pc p).on = _
    rw [hp, Mem.Pc.of, hview, hs, if_neg Bool.false_ne_true]
  have hholder : s.abs.holder b = some p := h.holder p b hp
  refine ⟨good_perform h hl hctrl, p, ?_⟩
  simp only [Mem.step, hcalled]
  rw [if_pos hholder, show Mem.iderw fssize s.abs.memdisk (s.abs.buf b) = _ from perform_refines h hl hctrl,
    Option.map_some]
  set u := s.perform ((s.buf b).cmd b) false with hu
  have hother {c : BufId} (hc : c ≠ b) : u.view c = s.view c := by
    simp [hu, State.perform, State.view, Buf.cmd, hctrl, Ne.symm hc]
  have hbuf : update s.view b (u.view b) = u.view := by
    funext c
    by_cases hc : c = b
    · subst hc
      rw [update_self]
    · rw [update_of_ne hc, hother hc]
  have hpc : update s.abs.pc p (.done b) = fun q => Mem.Pc.of u.view (u.pc q).on := by
    funext q
    show _ = Mem.Pc.of u.view (s.pc q).on
    by_cases hq : q = p
    · subst hq
      rw [update_self, hp, Mem.Pc.of, if_pos]
      simp [hu, State.perform, State.view, Buf.cmd, finish_synced]
    · rw [update_of_ne hq]
      show Mem.Pc.of s.view (s.pc q).on = _
      cases hon : (s.pc q).on with
      | none => rfl
      | some c =>
          have hc : c ≠ b := by
            rintro rfl
            exact hq (Option.some.inj ((h.holder q c hon).symm.trans (h.holder p c hp)))
          rw [Mem.Pc.of, Mem.Pc.of, hother hc]
  show some (Mem.State.mk (u.disk true) (update s.view b (u.view b)) s.holder
    (update s.abs.pc p (.done b))) = _
  rw [hbuf, hpc]
  rfl

theorem silent_goto {pc : Pc} (h : pc.on = (s.pc p).on) : Silent s (s.goto p pc) :=
  ⟨rfl, fun _ => rfl, rfl, goto_on h⟩

theorem sim_step {a : Act P} (h : ∃ l, Good s l) (hf : Fine s a) (hst : step havedisk1 s a = some t) :
    (∃ l, Good t l) ∧ ∃ bs, Runs.run (Mem.step fssize) s.abs bs = some t.abs ∧ bs.filterMap Mem.Act.event? =
      a.event?.toList := by
  obtain ⟨l, h⟩ := h
  have hsilent {l' : List BufId} (hg : Good t l') (ht : Silent s t) (hvis : a.event? = none) : (∃ l, Good t l) ∧
      ∃ bs, Runs.run (Mem.step fssize) s.abs bs = some t.abs ∧ bs.filterMap Mem.Act.event? = a.event?.toList :=
    ⟨⟨l', hg⟩, [], by rw [ht.abs_eq]; rfl, by rw [hvis]; rfl⟩
  cases a with
  | event e =>
      obtain ⟨hg, hm⟩ := sim_event h hf hst
      exact ⟨⟨l, hg⟩, [.event e], by simp [Runs.run, hm], rfl⟩
  | enqueue p =>
      cases hpc : s.pc p with
      | entered b =>
          obtain ⟨u, hu, hg, hs⟩ := enqueue_spec havedisk1 h hpc
          cases hu.symm.trans hst
          exact hsilent hg hs rfl
      | _ =>
          simp only [step, hpc] at hst
          cases hst
  | recheck p =>
      simp only [step] at hst
      split at hst
      next b hpc =>
        cases hst
        refine hsilent (good_recheck h hpc) (silent_goto ?_) rfl
        rw [hpc]
        split <;> rfl
      next => cases hst
  | kill p =>
      simp only [step] at hst
      split at hst
      next b hpc =>
        cases hst
        refine hsilent (good_kill h hpc) (silent_goto ?_) rfl
        rw [hpc]
        rfl
      next => cases hst
  | perform err =>
      obtain rfl : err = false := hf
      simp only [step] at hst
      split at hst
      next cmd hctrl =>
        cases hst
        obtain ⟨hg, p, hm⟩ := sim_perform h hctrl
        exact ⟨⟨l, hg⟩, [.commit p], by simp [Runs.run, hm], rfl⟩
      next => cases hst
  | ideintr =>
      cases hctrl : s.ctrl with
      | pending cmd data err =>
          obtain ⟨u, l', hu, hg, hs⟩ := ideintr_spec havedisk1 h hctrl
          cases hu.symm.trans hst
          exact hsilent hg hs rfl
      | _ =>
          simp only [step, hctrl] at hst
          cases hst

omit [DecidableEq P] in
theorem good_start (disk : Bool → Disk) (buf : BufId → Buf) : Good (start disk buf : State P) [] where
  arrived := rfl
  started := rfl
  chain := rfl
  nodup := .nil
  ctrl := rfl
  holder _ _ h := nomatch h
  block _ _ h := nomatch h
  pc _ := trivial
  mem _ h := nomatch h
  transfers _ _ h := nomatch h

def Ctrl.active : Ctrl → Option BufId
  | .ready => none
  | .busy c | .pending c _ _ => some c.buf

omit [DecidableEq P] in
theorem Good.active (h : Good s l) : s.ctrl.active = l.head? := by
  have hc := h.ctrl
  cases hl : l.head? with
  | none =>
      rw [hl] at hc
      rw [show s.ctrl = .ready from hc]
      rfl
  | some b =>
      rw [hl] at hc
      rcases hc with hc | ⟨data, hc⟩ <;> exact hc ▸ rfl

omit [DecidableEq P] in
theorem Good.mem_iff (h : Good s l) : b ∈ l ↔ (s.buf b).synced = false ∧ ∃ p, (s.pc p).waits = some b := by
  constructor
  · exact fun hb => ⟨(h.waiting hb).1, h.mem b hb⟩
  · rintro ⟨hs, p, hp⟩
    have hok := h.pc p
    cases hpc : s.pc p with
    | sleeping c | woken c =>
        rw [hpc] at hok hp
        obtain rfl : c = b := Option.some.inj hp
        exact hok.mpr hs
    | _ =>
        rw [hpc] at hp
        cases hp

/-- Every run of the driver, with calls for blocks of disk 1 and a controller that reports no error, is a run of
the memory disk with the same calls and returns, in which each `iderw` is one step. A call returns when its
buffer has been transferred once; requests are started in the order of their arrival, one at a time; the queue
is a list of the unfinished requests, the active one first, and neither a call nor the interrupt handler gets
stuck at it. -/
theorem ide_refines_memide {disk : Bool → Disk} {buf : BufId → Buf} {as : List (Act P)}
    (hfine : Runs.Along (step havedisk1) Fine (start disk buf) as)
    (hrun : Runs.run (step havedisk1) (start disk buf) as = some s) :
    (∃ bs m, Runs.run (Mem.step fssize) (Mem.start (disk true) buf) bs = some m ∧
        bs.filterMap Mem.Act.event? = as.filterMap Act.event? ∧ m.memdisk = s.disk true ∧
        ∀ b, (∀ p, (s.pc p).waits ≠ some b) → m.buf b = s.buf b) ∧
      (∀ p b, s.pc p = .returning b → s.transfers b = 1) ∧
      (s.finished <+: s.started ∧ s.started <+: s.arrived ∧ s.started.length ≤ s.finished.length + 1) ∧
      (∃ l, Chain s.qnext s.idequeue l ∧ l.Nodup ∧ l.head? = s.ctrl.active ∧
        ∀ b, b ∈ l ↔ (s.buf b).synced = false ∧ ∃ p, (s.pc p).waits = some b) ∧
      (∀ p b, s.pc p = .entered b → (step havedisk1 s (.enqueue p)).isSome) ∧
      ∀ cmd data err, s.ctrl = .pending cmd data err → (step havedisk1 s .ideintr).isSome := by
  have hstart : ∃ l, Good (start disk buf : State P) l := ⟨[], good_start disk buf⟩
  obtain ⟨l, h⟩ := Runs.run_invariant (fun s => ∃ l, Good s l) (fun _ _ _ h ha hst => (sim_step h ha hst).1)
    hstart hfine hrun
  obtain ⟨bs, hbs, hvis⟩ := Runs.run_simulates State.abs Act.event? Mem.Act.event? (fun s => ∃ l, Good s l)
    (fun _ _ _ h ha hst => (sim_step h ha hst).1) (fun _ _ _ h ha hst => (sim_step h ha hst).2) hstart hfine hrun
  refine ⟨⟨bs, s.abs, hbs, hvis, rfl, fun b hb => ?_⟩, fun p b hpc => ?_, ⟨?_, ?_, ?_⟩,
    ⟨l, h.chain, h.nodup, h.active.symm, fun b => h.mem_iff⟩, fun p b hpc => ?_, fun cmd data err hctrl => ?_⟩
  · apply h.view_of_notMem
    intro hmem
    obtain ⟨p, hp⟩ := h.mem b hmem
    exact hb p hp
  · have hok := h.pc p
    rw [hpc] at hok
    rw [h.transfers p b (by rw [hpc]; rfl), h.view_of_notMem hok.1, hok.2]
    rfl
  · rw [h.started]
    exact List.prefix_append ..
  · rw [h.started, h.arrived]
    exact List.prefix_append_right_inj _ |>.mpr (List.take_prefix 1 l)
  · rw [h.started, List.length_append]
    exact Nat.add_le_add_left (List.length_take_le 1 l) _
  · obtain ⟨t, ht, -⟩ := enqueue_spec havedisk1 h hpc
    rw [ht]
    rfl
  · obtain ⟨t, _, ht, -⟩ := ideintr_spec havedisk1 h hctrl
    rw [ht]
    rfl

instance (s : State P) (a : Act P) : Decidable (Fine s a) :=
  match a with
  | .event (.iderw _ _) => inferInstanceAs (Decidable (_ ∧ _))
  | .perform _ => inferInstanceAs (Decidable (_ = _))
  | .event (.acquiresleep _ _) | .event (.releasesleep _ _) | .event (.fill _ _ _) | .event (.ret _ _) | .enqueue _
  | .recheck _ | .kill _ | .ideintr => .isTrue trivial

/-- One process writes block 3 and another reads block 7; the second request waits for the first. -/
theorem ide_refines_memide_two :
    let x : Buf := ⟨false, true, 1, 3, fun _ => 7⟩
    let y : Buf := ⟨false, false, 1, 7, fun _ => 9⟩
    let as : List (Act (Fin 2)) :=
      [.event (.acquiresleep 0 4), .event (.fill 0 4 x), .event (.iderw 0 4), .event (.acquiresleep 1 2),
        .event (.fill 1 2 y),
        .event (.iderw 1 2), .enqueue 0, .enqueue 1, .perform false, .ideintr, .recheck 0, .perform false,
          .ideintr, .recheck 1,
        .event (.ret 1 ⟨true, false, 1, 7, fun _ => 0⟩), .event (.ret 0 ⟨true, false, 1, 3, fun _ => 7⟩)]
    ∃ (s : State (Fin 2)) (bs : List (Mem.Act (Fin 2))) (m : Mem.State (Fin 2)),
      Runs.run (step true) (start (fun _ _ _ => 0) fun _ => x) as = some s ∧
      Runs.run (Mem.step fssize) (Mem.start (fun _ _ => 0) fun _ => x) bs = some m ∧
      bs.filterMap Mem.Act.event? = as.filterMap Act.event? ∧ m.memdisk = s.disk true := by
  intro x y as
  obtain ⟨s, hs⟩ : ∃ s, Runs.run (step true) (start (fun _ _ _ => 0) fun _ => x) as = some s :=
    Option.isSome_iff_exists.mp (by decide +kernel)
  have hfine : Runs.Along (step true) Fine (start (fun _ _ _ => 0) fun _ => x) as :=
    Runs.along_of_alongB (fun s a => decide (Fine s a)) (fun _ _ h => of_decide_eq_true h) (by decide +kernel)
  obtain ⟨⟨bs, m, hbs, hvis, hdisk, -⟩, -⟩ := ide_refines_memide hfine hs
  exact ⟨s, bs, m, hs, hbs, hvis, hdisk⟩

end Xv6.Ide
