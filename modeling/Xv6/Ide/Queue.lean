import Xv6.Ide.Model

namespace Xv6.Ide

open Lib
open Function (update update_of_ne update_self)

variable {P : Type} {s t : State P} {l : List BufId} {p q : P} {b c : BufId} {x : Buf}

def Pc.on : Pc → Option BufId
  | .idle => none
  | .entered b | .sleeping b | .woken b | .returning b => some b

def Pc.waits : Pc → Option BufId
  | .sleeping b | .woken b => some b
  | _ => none

theorem Pc.on_of_waits {pc : Pc} (h : pc.waits = some b) : pc.on = some b := by
  cases pc <;> first | exact h | cases h

def Buf.cmd (x : Buf) (b : BufId) : Cmd := ⟨b, .of x.dev x.blockno, if x.dirty then some x.data else none⟩

/-- The buffer as the interrupt will leave it, once the controller has carried out the command. -/
def State.view (s : State P) (b : BufId) : Buf :=
  match s.ctrl with
  | .pending c data err => if c.buf = b then (s.buf b).finish data err else s.buf b
  | _ => s.buf b

def Ctrl.Serves (buf : BufId → Buf) (ctrl : Ctrl) : Option BufId → Prop
  | none => ctrl = .ready
  | some b => ctrl = .busy ((buf b).cmd b) ∨ ∃ data, ctrl = .pending ((buf b).cmd b) data false

def Pc.Ok (buf : BufId → Buf) (l : List BufId) : Pc → Prop
  | .idle => True
  | .entered b => b ∉ l ∧ (buf b).synced = false
  | .sleeping b | .woken b => b ∈ l ↔ (buf b).synced = false
  | .returning b => b ∉ l ∧ (buf b).synced = true

/-- The state of the driver when the unfinished requests are those of `l`, in this order. -/
structure Good (s : State P) (l : List BufId) : Prop where
  arrived : s.arrived = s.finished ++ l
  started : s.started = s.finished ++ l.take 1
  chain : Chain s.qnext s.idequeue l
  nodup : l.Nodup
  ctrl : s.ctrl.Serves s.buf l.head?
  holder : ∀ p b, (s.pc p).on = some b → s.holder b = some p
  block : ∀ p b, (s.pc p).on = some b → (s.buf b).dev = 1 ∧ (s.buf b).blockno.toNat < fssize
  pc : ∀ p, (s.pc p).Ok s.buf l
  mem : ∀ b ∈ l, ∃ p, (s.pc p).waits = some b
  transfers : ∀ p b, (s.pc p).on = some b → s.transfers b = if (s.view b).synced then 1 else 0

namespace Good

theorem off (h : Good s l) (hb : s.holder b = some p) (hp : s.pc p = .idle) (q : P) : (s.pc q).on ≠ some b := by
  intro hq
  have hpq := (h.holder q b hq).symm.trans hb
  rw [Option.some.inj hpq, hp] at hq
  cases hq

theorem notMem (h : Good s l) (hb : ∀ q, (s.pc q).on ≠ some b) : b ∉ l := by
  intro hmem
  obtain ⟨q, hq⟩ := h.mem b hmem
  exact hb q (Pc.on_of_waits hq)

theorem view_eq (h : Good s l) (hb : l.head? ≠ some b) : s.view b = s.buf b := by
  have hc := h.ctrl
  unfold State.view
  cases hl : l.head? with
  | none =>
      rw [hl] at hc
      rw [show s.ctrl = .ready from hc]
  | some c =>
      rw [hl] at hc hb
      rcases hc with hc | ⟨data, hc⟩
      · rw [hc]
      · rw [hc]
        exact if_neg fun he => hb (congrArg some he)

theorem view_of_notMem (h : Good s l) (hb : b ∉ l) : s.view b = s.buf b :=
  h.view_eq fun hl => hb (List.mem_of_head? hl)

end Good

theorem finish_synced (x : Buf) (data : Block) (err : Bool) : (x.finish data err).synced = true := rfl

variable [DecidableEq P]

@[simp] theorem goto_self (s : State P) (p : P) (pc : Pc) : (s.goto p pc).pc p = pc := update_self ..

@[simp] theorem goto_of_ne (s : State P) (pc : Pc) (h : q ≠ p) : (s.goto p pc).pc q = s.pc q :=
  update_of_ne h ..

theorem goto_ok {pc : Pc} {buf : BufId → Buf} (h : ∀ q, (s.pc q).Ok buf l) (hok : pc.Ok buf l) (q : P) :
    ((s.goto p pc).pc q).Ok buf l := by
  by_cases hq : q = p
  · subst hq
    simpa using hok
  · simpa [hq] using h q

theorem goto_on {pc : Pc} (h : pc.on = (s.pc p).on) (q : P) : ((s.goto p pc).pc q).on = (s.pc q).on := by
  by_cases hq : q = p
  · subst hq
    simpa using h
  · simp [hq]

theorem Good.goto {pc : Pc} (h : Good s l) (hon : pc.on = (s.pc p).on) (hok : pc.Ok s.buf l)
    (hmem : ∀ b ∈ l, (s.pc p).waits = some b → pc.waits = some b) : Good (s.goto p pc) l where
  arrived := h.arrived
  started := h.started
  chain := h.chain
  nodup := h.nodup
  ctrl := h.ctrl
  holder q b hq := h.holder q b ((goto_on hon q).symm.trans hq)
  block q b hq := h.block q b ((goto_on hon q).symm.trans hq)
  pc := goto_ok h.pc hok
  mem b hb := by
    obtain ⟨q, hq⟩ := h.mem b hb
    refine ⟨q, ?_⟩
    by_cases hqp : q = p
    · subst hqp
      simpa using hmem b hb hq
    · simpa [hqp] using hq
  transfers q b hq := h.transfers q b ((goto_on hon q).symm.trans hq)

theorem good_recheck (h : Good s l) (hpc : s.pc p = .woken b) : Good (s.await p b) l := by
  have hok := h.pc p
  rw [hpc] at hok
  apply h.goto
  · rw [hpc]
    split <;> rfl
  · split
    next hs => exact ⟨fun hb => by simp [hok.mp hb] at hs, hs⟩
    next => exact hok
  · intro c hc hw
    rw [hpc] at hw
    obtain rfl : b = c := Option.some.inj hw
    rw [hok.mp hc]
    rfl

theorem good_kill (h : Good s l) (hpc : s.pc p = .sleeping b) : Good (s.goto p (.woken b)) l := by
  apply h.goto
  · rw [hpc]
    rfl
  · have hok := h.pc p
    rwa [hpc] at hok
  · intro c _ hw
    rwa [hpc] at hw

omit [DecidableEq P] in
theorem good_setHolder (h : Good s l) {o : Option P} (hb : ∀ q, (s.pc q).on ≠ some b) :
    Good (s.setHolder b o) l where
  arrived := h.arrived
  started := h.started
  chain := h.chain
  nodup := h.nodup
  ctrl := h.ctrl
  holder q c hq := by
    have hne : c ≠ b := by
      rintro rfl
      exact hb q hq
    exact (update_of_ne hne ..).trans (h.holder q c hq)
  block := h.block
  pc := h.pc
  mem := h.mem
  transfers := h.transfers

omit [DecidableEq P] in
theorem good_fill (h : Good s l) (hb : ∀ q, (s.pc q).on ≠ some b) : Good (s.setBuf b x) l := by
  have hnot := h.notMem hb
  have hbuf {c : BufId} (hc : c ≠ b) : (s.setBuf b x).buf c = s.buf c := update_of_ne hc ..
  have hne {q : P} {c : BufId} (hq : (s.pc q).on = some c) : c ≠ b := by
    rintro rfl
    exact hb q hq
  refine ⟨h.arrived, h.started, h.chain, h.nodup, ?_, h.holder, fun q c hq => ?_, fun q => ?_, h.mem,
    fun q c hq => ?_⟩
  · have hc := h.ctrl
    cases hl : l.head? with
    | none =>
        rw [hl] at hc
        exact hc
    | some c =>
        rw [hl] at hc
        have hcb : c ≠ b := by
          rintro rfl
          exact hnot (List.mem_of_head? hl)
        show Ctrl.Serves _ s.ctrl (some c)
        simpa only [Ctrl.Serves, hbuf hcb] using hc
  · rw [hbuf (hne hq)]
    exact h.block q c hq
  · have hok := h.pc q
    show (s.pc q).Ok _ l
    cases hpc : s.pc q with
    | idle => trivial
    | entered c | sleeping c | woken c | returning c =>
        rw [hpc] at hok
        have := hne (q := q) (c := c) (by rw [hpc]; rfl)
        simpa only [Pc.Ok, hbuf this] using hok
  · have : (s.setBuf b x).view c = s.view c := by
      simp only [State.view, hbuf (hne hq)]
      rfl
    rw [this]
    exact h.transfers q c hq

theorem good_iderw (h : Good s l) (hp : s.pc p = .idle) (hb : s.holder b = some p) (hs : (s.buf b).synced = false)
    (hdev : (s.buf b).dev = 1) (hblock : (s.buf b).blockno.toNat < fssize) :
    Good { s.goto p (.entered b) with transfers := update s.transfers b 0 } l := by
  have hoff := h.off hb hp
  have hnot := h.notMem hoff
  have hon (q : P) (c : BufId) (hq : ((s.goto p (.entered b)).pc q).on = some c) :
      (q = p ∧ c = b) ∨ (c ≠ b ∧ (s.pc q).on = some c) := by
    by_cases hqp : q = p
    · subst hqp
      rw [goto_self] at hq
      exact .inl ⟨rfl, (Option.some.inj hq).symm⟩
    · rw [goto_of_ne _ _ hqp] at hq
      refine .inr ⟨?_, hq⟩
      rintro rfl
      exact hoff q hq
  refine ⟨h.arrived, h.started, h.chain, h.nodup, h.ctrl, fun q c hq => ?_, fun q c hq => ?_, fun q => ?_,
    fun c hc => ?_, fun q c hq => ?_⟩
  · rcases hon q c hq with ⟨rfl, rfl⟩ | ⟨-, hq⟩
    · exact hb
    · exact h.holder q c hq
  · rcases hon q c hq with ⟨rfl, rfl⟩ | ⟨-, hq⟩
    · exact ⟨hdev, hblock⟩
    · exact h.block q c hq
  · have hok : (Pc.entered b).Ok s.buf l := ⟨hnot, hs⟩
    exact goto_ok h.pc hok q
  · obtain ⟨q, hq⟩ := h.mem c hc
    have hqp : q ≠ p := by
      rintro rfl
      rw [hp] at hq
      cases hq
    exact ⟨q, by simpa [hqp] using hq⟩
  · rcases hon q c hq with ⟨rfl, rfl⟩ | ⟨hne, hq⟩
    · show update s.transfers c 0 c = if (s.view c).synced then 1 else 0
      rw [update_self, h.view_of_notMem hnot, hs]
      rfl
    · show update s.transfers b 0 c = if (s.view c).synced then 1 else 0
      rw [update_of_ne hne]
      exact h.transfers q c hq

theorem good_ret (h : Good s l) (hpc : s.pc p = .returning b) : Good (s.goto p .idle) l := by
  have hon (q : P) (c : BufId) (hq : ((s.goto p .idle).pc q).on = some c) : (s.pc q).on = some c := by
    by_cases hqp : q = p
    · subst hqp
      rw [goto_self] at hq
      cases hq
    · rwa [goto_of_ne _ _ hqp] at hq
  refine ⟨h.arrived, h.started, h.chain, h.nodup, h.ctrl, fun q c hq => h.holder q c (hon q c hq),
    fun q c hq => h.block q c (hon q c hq), fun q => ?_, fun c hc => ?_, fun q c hq => h.transfers q c (hon q c hq)⟩
  · have hok : Pc.idle.Ok s.buf l := trivial
    exact goto_ok h.pc hok q
  · obtain ⟨q, hq⟩ := h.mem c hc
    have hqp : q ≠ p := by
      rintro rfl
      rw [hpc] at hq
      cases hq
    exact ⟨q, by simpa [hqp] using hq⟩

structure Silent (s t : State P) : Prop where
  disk : t.disk = s.disk
  view : ∀ c, t.view c = s.view c
  holder : t.holder = s.holder
  on : ∀ q, (t.pc q).on = (s.pc q).on

omit [DecidableEq P] in
theorem append_spec (h : Good s l) (hb : b ∉ l) :
    ∃ qnext,
      s.append b =
        some { s with qnext, idequeue := some ((l ++ [b]).head (by simp)), arrived := s.arrived ++ [b] } ∧
      Chain qnext (some ((l ++ [b]).head (by simp))) (l ++ [b]) := by
  have hq := h.chain.head_eq
  unfold State.append
  cases l with
  | nil =>
      rw [show s.idequeue = none from hq]
      exact ⟨_, rfl, rfl, update_self ..⟩
  | cons c l =>
      have hchain := (h.chain.update hb none)
      rw [show s.idequeue = some c from hq] at hchain ⊢
      have hlen : l.length < nbuf := by
        have := h.nodup.length_le_card
        rw [Fintype.card_fin] at this
        exact this
      have hlast := hchain.lastNode_eq hlen
      obtain ⟨d, hd⟩ : ∃ d, (c :: l).getLast? = some d := ⟨_, List.getLast?_eq_some_getLast (List.cons_ne_nil c l)⟩
      simp only [hlast, hd]
      refine ⟨_, rfl, hchain.append h.nodup hd hb (update_self ..)⟩

theorem Pc.Ok.append {pc : Pc} {buf : BufId → Buf} (h : pc.Ok buf l) (hb : pc.on ≠ some b) :
    pc.Ok buf (l ++ [b]) := by
  have hmem {c : BufId} (hc : some c ≠ some b) : c ∈ l ++ [b] ↔ c ∈ l := by
    rw [List.mem_append, List.mem_singleton, or_iff_left fun he => hc (congrArg some he)]
  cases pc with
  | idle => trivial
  | entered c | returning c => exact ⟨(not_congr (hmem hb)).mpr h.1, h.2⟩
  | sleeping c | woken c => exact (hmem hb).trans h

omit [DecidableEq P] in
theorem start_spec (h : Good s l) (hb : b ∉ l) (hblock : (s.buf b).blockno.toNat < fssize)
    (qnext : BufId → Option BufId) (arrived : List BufId) :
    let u : State P := { s with qnext, idequeue := some ((l ++ [b]).head (by simp)), arrived }
    ∃ ctrl started, u.startIfFirst b = some { u with ctrl, started } ∧
      ctrl.Serves s.buf (l ++ [b]).head? ∧ started = s.finished ++ (l ++ [b]).take 1 ∧
      ∀ c, ({ u with ctrl, started } : State P).view c = s.view c := by
  intro u
  have hc := h.ctrl
  cases l with
  | nil =>
      have hready : s.ctrl = .ready := hc
      refine ⟨.busy ((s.buf b).cmd b), s.started ++ [b], ?_, .inl rfl, ?_, fun c => ?_⟩
      · simp only [State.startIfFirst, State.idestart, u, List.nil_append, List.head_cons, if_pos, hready]
        rw [if_neg (by omega)]
        rfl
      · rw [h.started]
        simp
      · simp only [State.view, hready, u]
  | cons d l =>
      have hdb : ¬ (some d = some b) := fun he => hb (Option.some.inj he ▸ List.mem_cons_self)
      refine ⟨s.ctrl, s.started, (if_neg hdb :), hc, ?_, fun c => rfl⟩
      rw [h.started]
      rfl

theorem enqueue_spec (havedisk1 : Bool) (h : Good s l) (hpc : s.pc p = .entered b) :
    ∃ t, step havedisk1 s (.enqueue p) = some t ∧ Good t (l ++ [b]) ∧ Silent s t := by
  have hon : (s.pc p).on = some b := by rw [hpc]; rfl
  have hok := h.pc p
  rw [hpc] at hok
  obtain ⟨hb, hs⟩ := hok
  obtain ⟨qnext, happend, hchain⟩ := append_spec h hb
  obtain ⟨ctrl, started, hstart, hserves, hstarted, hview⟩ :=
    start_spec h hb (h.block p b hon).2 qnext (s.arrived ++ [b])
  let u : State P :=
    { s with
      qnext, ctrl, started
      idequeue := some ((l ++ [b]).head (by simp))
      arrived := s.arrived ++ [b] }
  have hstep : step havedisk1 s (.enqueue p) = some (u.goto p (.sleeping b)) := by
    simp only [step, hpc, happend, Option.bind_some, hstart, Option.map_some, State.await, hs]
    rfl
  have hon' (q : P) : ((u.goto p (.sleeping b)).pc q).on = (s.pc q).on := goto_on (s := u) (by rw [hon]; rfl) q
  have hother {q : P} (hq : q ≠ p) : (s.pc q).on ≠ some b := fun he =>
    hq (Option.some.inj ((h.holder q b he).symm.trans (h.holder p b hon)))
  refine ⟨_, hstep, ⟨?_, hstarted, ?_, ?_, ?_, fun q c hq => ?_, fun q c hq => ?_, fun q => ?_, fun c hc => ?_,
    fun q c hq => ?_⟩, ⟨rfl, hview, rfl, hon'⟩⟩
  · show s.arrived ++ [b] = s.finished ++ (l ++ [b])
    rw [h.arrived, List.append_assoc]
  · exact hchain
  · exact List.nodup_append.mpr ⟨h.nodup, List.nodup_singleton b, fun c hc d hd => by
      obtain rfl := List.mem_singleton.mp hd
      exact fun he => hb (he ▸ hc)⟩
  · exact hserves
  · exact h.holder q c ((hon' q).symm.trans hq)
  · exact h.block q c ((hon' q).symm.trans hq)
  · by_cases hq : q = p
    · subst hq
      rw [goto_self]
      exact iff_of_true (by simp) hs
    · rw [goto_of_ne _ _ hq]
      exact (h.pc q).append (hother hq)
  · rcases List.mem_append.mp hc with hc | hc
    · obtain ⟨q, hq⟩ := h.mem c hc
      have hqp : q ≠ p := by
        rintro rfl
        rw [hpc] at hq
        cases hq
      exact ⟨q, by rw [goto_of_ne _ _ hqp]; exact hq⟩
    · obtain rfl := List.mem_singleton.mp hc
      exact ⟨p, by rw [goto_self]; rfl⟩
  · have := h.transfers q c ((hon' q).symm.trans hq)
    rw [← hview c] at this
    exact this

omit [DecidableEq P] in
theorem Good.waiting (h : Good s l) (hb : b ∈ l) : (s.buf b).synced = false ∧ ∃ p, (s.pc p).on = some b := by
  obtain ⟨p, hp⟩ := h.mem b hb
  refine ⟨?_, p, Pc.on_of_waits hp⟩
  have hok := h.pc p
  cases hpc : s.pc p with
  | sleeping c | woken c =>
      rw [hpc] at hok hp
      obtain rfl : c = b := Option.some.inj hp
      exact hok.mp hb
  | _ =>
      rw [hpc] at hp
      cases hp

omit [DecidableEq P] in
theorem Good.busy {cmd : Cmd} (h : Good s l) (hctrl : s.ctrl = .busy cmd) :
    ∃ b, l.head? = some b ∧ cmd = (s.buf b).cmd b := by
  have hc := h.ctrl
  cases hl : l.head? with
  | none =>
      rw [hl] at hc
      cases hctrl.symm.trans hc
  | some b =>
      rw [hl] at hc
      rcases hc with hc | ⟨data, hc⟩
      · exact ⟨b, rfl, Ctrl.busy.inj (hctrl.symm.trans hc)⟩
      · cases hctrl.symm.trans hc

omit [DecidableEq P] in
theorem good_perform (h : Good s l) (hl : l.head? = some b) (hctrl : s.ctrl = .busy ((s.buf b).cmd b)) :
    Good (s.perform ((s.buf b).cmd b) false) l := by
  obtain ⟨hs, -⟩ := h.waiting (List.mem_of_head? hl)
  refine ⟨h.arrived, h.started, h.chain, h.nodup, ?_, h.holder, h.block, h.pc, h.mem, fun q c hq => ?_⟩
  · rw [hl]
    exact .inr ⟨_, rfl⟩
  · have htr := h.transfers q c hq
    by_cases hc : c = b
    · subst hc
      simp only [State.view, hctrl, hs] at htr
      simp [State.perform, State.view, Buf.cmd, finish_synced, htr]
    · rw [h.view_eq (by rw [hl]; exact fun he => hc (Option.some.inj he).symm)] at htr
      simpa [State.perform, State.view, Buf.cmd, hc, Ne.symm hc] using htr

omit [DecidableEq P] in
theorem Good.interrupt {cmd : Cmd} {data : Block} {err : Bool} (h : Good s l)
    (hctrl : s.ctrl = .pending cmd data err) :
    ∃ b l', l = b :: l' ∧ cmd = (s.buf b).cmd b ∧ err = false := by
  have hc := h.ctrl
  cases l with
  | nil => cases hctrl.symm.trans hc
  | cons b l =>
      rcases hc with hc | ⟨data', hc⟩
      · cases hctrl.symm.trans hc
      · cases hctrl.symm.trans hc
        exact ⟨b, l, rfl, rfl, rfl⟩

omit [DecidableEq P] in
theorem wakeup_on (s : State P) (b : BufId) (q : P) : ((s.wakeup b).pc q).on = (s.pc q).on := by
  simp only [State.wakeup]
  split
  next h =>
    rw [h]
    rfl
  next => rfl

omit [DecidableEq P] in
theorem wakeup_waits (s : State P) (b : BufId) (q : P) : ((s.wakeup b).pc q).waits = (s.pc q).waits := by
  simp only [State.wakeup]
  split
  next h =>
    rw [h]
    rfl
  next => rfl

theorem Pc.Ok.tail {pc : Pc} {buf : BufId → Buf} (h : pc.Ok buf (b :: l)) (hb : b ∉ l) (hx : x.synced = true) :
    pc.Ok (update buf b x) l := by
  have hmem {c : BufId} (hc : c ≠ b) : c ∈ b :: l ↔ c ∈ l := by
    rw [List.mem_cons, or_iff_right hc]
  cases pc with
  | idle => trivial
  | entered c | returning c =>
      have hc : c ≠ b := fun he => h.1 (he ▸ List.mem_cons_self)
      refine ⟨(not_congr (hmem hc)).mp h.1, ?_⟩
      rw [update_of_ne hc]
      exact h.2
  | sleeping c | woken c =>
      by_cases hc : c = b
      · subst hc
        refine iff_of_false hb ?_
        rw [update_self, hx]
        exact Bool.noConfusion
      · rw [Pc.Ok, update_of_ne hc, ← hmem hc]
        exact h

omit [DecidableEq P] in
theorem startNext_spec (hready : s.ctrl = .ready) (hhead : s.idequeue = l.head?)
    (hblock : ∀ c ∈ l, (s.buf c).blockno.toNat < fssize) :
    ∃ ctrl, s.startNext = some { s with ctrl, started := s.started ++ l.take 1 } ∧
      ctrl.Serves s.buf l.head? ∧ ∀ c, ({ s with ctrl, started := s.started ++ l.take 1 } : State P).view c =
        s.buf c := by
  unfold State.startNext
  cases l with
  | nil =>
      refine ⟨.ready, ?_, rfl, fun c => rfl⟩
      split
      next => rw [← hready, List.take_nil, List.append_nil]
      next hc => cases hc.symm.trans hhead
  | cons c l =>
      refine ⟨.busy ((s.buf c).cmd c), ?_, .inl rfl, fun c => rfl⟩
      split
      next hc => cases hc.symm.trans hhead
      next hc =>
        cases hc.symm.trans hhead
        have := hblock c List.mem_cons_self
        simp only [State.idestart, hready]
        rw [if_neg (by omega)]
        rfl

theorem ideintr_spec (havedisk1 : Bool) {cmd : Cmd} {data : Block} {err : Bool} (h : Good s l)
    (hctrl : s.ctrl = .pending cmd data err) :
    ∃ t l', step havedisk1 s .ideintr = some t ∧ Good t l' ∧ Silent s t := by
  obtain ⟨b, l, rfl, rfl, rfl⟩ := h.interrupt hctrl
  obtain ⟨hb, hnodup⟩ := List.nodup_cons.mp h.nodup
  let x := (s.buf b).finish data false
  let u : State P := State.wakeup
    { s.setBuf b x with ctrl := .ready, idequeue := s.qnext b, finished := s.finished ++ [b] } b
  have hchain : Chain s.qnext (s.qnext b) l := h.chain.2
  have hbuf {c : BufId} (hc : c ≠ b) : u.buf c = s.buf c := update_of_ne hc ..
  have hne {c : BufId} (hc : c ∈ l) : c ≠ b := fun he => hb (he ▸ hc)
  have hblock (c) (hc : c ∈ l) : (u.buf c).blockno.toNat < fssize := by
    obtain ⟨-, q, hq⟩ := h.waiting (List.mem_cons_of_mem b hc)
    rw [hbuf (hne hc)]
    exact (h.block q c hq).2
  obtain ⟨ctrl, hnext, hserves, hview⟩ := startNext_spec (s := u) rfl hchain.head_eq hblock
  let t : State P := { u with ctrl, started := u.started ++ l.take 1 }
  have hstep : step havedisk1 s .ideintr = some t := by
    simp only [step, hctrl, ideintr, show s.idequeue = some b from h.chain.1]
    exact hnext
  have hon (q : P) : (t.pc q).on = (s.pc q).on := wakeup_on ..
  have hsame (c : BufId) : t.view c = s.view c := by
    rw [hview c, State.view, hctrl]
    by_cases hc : c = b
    · subst hc
      exact (update_self ..).trans (if_pos rfl).symm
    · exact (hbuf hc).trans (if_neg fun he => hc he.symm).symm
  refine ⟨t, l, hstep, ⟨?_, ?_, hchain, hnodup, hserves, fun q c hq => ?_, fun q c hq => ?_, fun q => ?_,
    fun c hc => ?_, fun q c hq => ?_⟩, ⟨rfl, hsame, rfl, hon⟩⟩
  · show s.arrived = s.finished ++ [b] ++ l
    rw [h.arrived, List.append_assoc]
    rfl
  · show s.started ++ l.take 1 = s.finished ++ [b] ++ l.take 1
    rw [h.started]
    rfl
  · exact h.holder q c ((hon q).symm.trans hq)
  · have := h.block q c ((hon q).symm.trans hq)
    by_cases hc : c = b
    · subst hc
      rw [show t.buf c = x from update_self ..]
      exact this
    · rw [show t.buf c = s.buf c from hbuf hc]
      exact this
  · have hok := (h.pc q).tail hb (finish_synced (s.buf b) data false)
    show (if s.pc q = .sleeping b then Pc.woken b else s.pc q).Ok _ l
    split
    next hpc =>
      rw [hpc] at hok
      exact hok
    next => exact hok
  · obtain ⟨q, hq⟩ := h.mem c (List.mem_cons_of_mem b hc)
    exact ⟨q, (wakeup_waits ..).trans hq⟩
  · rw [hsame]
    exact h.transfers q c ((hon q).symm.trans hq)

end Xv6.Ide
