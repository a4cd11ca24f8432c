import Xv6.Spin.Model

namespace Xv6.Spin

open Xv6.Lib.Runs
open Function (update update_apply update_eq_self)

variable {C L T : Type}

/-! ### Where a thread is -/

namespace Pc

@[simp] def extra : Pc L T → Nat
  | .check _ | .checkCpu _ | .xchg _ | .record _ | .held _ | .heldCpu _ | .clear _ | .store _ | .test | .decr => 1
  | _ => 0

@[simp] def quiet : Pc L T → Bool
  | .idle | .readeflags _ | .cli _ _ => true
  | _ => false

@[simp] def wants : Pc L T → Option L
  | .readeflags k | .cli k _ | .save k _ | .incr k => k
  | .check lk | .checkCpu lk | .xchg lk => some lk
  | _ => none

/-- The lock between `xchg` and the end of `acquire`, or between the start of `release` and its store. -/
@[simp] def inside : Pc L T → Option L
  | .record lk | .held lk | .heldCpu lk | .clear lk | .store lk => some lk
  | _ => none

@[simp] def recorded : Pc L T → Option L
  | .held lk | .heldCpu lk | .clear lk => some lk
  | _ => none

@[simp] def switching : Pc L T → Bool
  | .own _ | .ownCpu _ | .swtch _ => true
  | _ => false

/-- Where `cpu->intena` has been saved and will be asked for. -/
@[simp] def armed : Pc L T → Bool
  | .incr _ | .enable => true
  | pc => pc.extra == 1

@[simp] def eflags : Pc L T → Option Bool
  | .cli _ e | .save _ e => some e
  | _ => none

/-- A step inside a call that leaves the variables of the CPU alone. -/
@[simp] def Follows (pc next : Pc L T) : Prop :=
  next.extra = pc.extra ∧ pc.quiet = false ∧ next.quiet = false ∧ (∀ lk, next.wants = some lk →
    pc.wants = some lk) ∧
    (next.switching = true → pc.switching = true) ∧ (next.armed = true → pc.armed = true) ∧ next.eflags = none ∧
    ∀ m, next ≠ .panic m

end Pc

namespace Frame

/-- The locks that the thread has, from the `xchg` that takes a lock to the store that gives it back. -/
@[simp] def inside (f : Frame L T) : List L := f.pc.inside.toList ++ f.locks

@[simp] def recorded (f : Frame L T) : List L := f.pc.recorded.toList ++ f.locks

@[simp] def depth (f : Frame L T) : Nat := f.locks.length + f.pushed + f.pc.extra

/-- Interrupts are as the code has set them. -/
@[simp] def Open (f : Frame L T) : Prop := f.locks = [] ∧ f.pushed = 0 ∧ f.pc.quiet = true

@[simp] def Armed (f : Frame L T) : Prop := f.locks ≠ [] ∨ f.pushed ≠ 0 ∨ f.pc.armed = true

/-- A step that is none of those that read or set the interrupt flag or `cpu->intena`. -/
structure Moves (f f' : Frame L T) : Prop where
  before : f'.before = f.before
  kept : f'.kept = f.kept
  opened : f'.Open ↔ f.Open
  armed : f'.Armed → f.Armed
  eflags : f'.pc.eflags = none
  sound : ∀ m, f'.pc ≠ .panic m

end Frame

/-- An interrupted frame has no locks, and the interrupt flag was set. -/
structure Suspended (f : Frame L T) : Prop where
  opened : f.Open
  before : f.kept = true → f.before = true
  eflags : ∀ e, f.pc.eflags = some e → f.kept = true ∧ e = f.before

/-- The variables of a CPU agree with what the code on it has done. -/
structure CpuOk (ptable : L) (u : Cpu L T) : Prop where
  count : u.ncli = u.top.depth
  off : ¬ u.top.Open → u.eflags = false
  flag : u.top.kept = true → u.top.Open → u.eflags = u.top.before
  eflags : ∀ e, u.top.pc.eflags = some e → u.top.locks = [] → u.top.pushed = 0 →
    u.top.kept = true ∧ e = u.top.before
  intena : u.top.kept = true → u.top.Armed → u.intena = u.top.before
  wants : ∀ lk, u.top.pc.wants = some lk → lk ∉ u.top.locks
  switching : u.top.pc.switching = true → u.top.locks = [ptable] ∧ u.top.pushed = 0 ∧ u.running = false
  sound : ∀ m, u.top.pc ≠ .panic m
  below : ∀ f ∈ u.below, Suspended f

structure Locks (s : State C L T) : Prop where
  locked_iff : ∀ lk, s.locked lk = true ↔ ∃ c, lk ∈ (s.cpu c).top.inside
  one : ∀ lk c d, lk ∈ (s.cpu c).top.inside → lk ∈ (s.cpu d).top.inside → c = d
  nodup : ∀ c, (s.cpu c).top.inside.Nodup
  owner_iff : ∀ lk c, s.owner lk = some c ↔ lk ∈ (s.cpu c).top.recorded

/-- A thread that waits to be switched to has `ptable.lock`, in its own eyes, and nothing else. -/
structure ParkedOk (ptable : L) (p : Parked L T) : Prop where
  pc : p.top.pc = .idle
  locks : p.top.locks = [ptable]
  pushed : p.top.pushed = 0
  intena : ∀ b, p.intena = some b → p.top.kept = true → b = p.top.before
  below : ∀ f ∈ p.below, Suspended f

structure Good (ptable : L) (s : State C L T) : Prop where
  cpu : ∀ c, CpuOk ptable (s.cpu c)
  locks : Locks s
  parked : ∀ x p, s.parked x = some p → ParkedOk ptable p

variable {ptable lk : L} {u : Cpu L T}

/-! ### One CPU -/

theorem Frame.not_open {f : Frame L T} (hq : f.pc.quiet = false) : ¬ f.Open := fun ho => by
  have := ho.2.2
  rw [hq] at this
  cases this

theorem Frame.Open.extra {f : Frame L T} (h : f.Open) : f.pc.extra = 0 := by
  have hq := h.2.2
  cases hpc : f.pc <;> simp_all

namespace CpuOk

theorem zero_iff (h : CpuOk ptable u) (hx : u.top.pc.extra = 0) :
    u.ncli = 0 ↔ u.top.locks = [] ∧ u.top.pushed = 0 := by
  rw [h.count, Frame.depth, hx, ← List.length_eq_zero_iff]
  omega

theorem moves {f : Frame L T} {ncli : Int} (h : CpuOk ptable u) (hm : u.top.Moves f) (hc : ncli = f.depth)
    (hw : ∀ lk, f.pc.wants = some lk → lk ∉ f.locks)
    (hs : f.pc.switching = true → f.locks = [ptable] ∧ f.pushed = 0 ∧ u.running = false) :
    CpuOk ptable { u with top := f, ncli := ncli } where
  count := hc
  off := fun ho => h.off (hm.opened.not.mp ho)
  flag := fun hk ho => (h.flag (hm.kept ▸ hk) (hm.opened.mp ho)).trans hm.before.symm
  eflags := fun e he => by
    have he : f.pc.eflags = some e := he
    rw [hm.eflags] at he
    cases he
  intena := fun hk ha => (h.intena (hm.kept ▸ hk) (hm.armed ha)).trans hm.before.symm
  wants := hw
  switching := hs
  sound := hm.sound
  below := h.below

theorem goto {pc : Pc L T} (h : CpuOk ptable u) (hnext : u.top.pc.Follows pc) : CpuOk ptable (u.goto pc) := by
  obtain ⟨hx, hq, hq', hw, hs, ha, he, hpanic⟩ := hnext
  refine h.moves (f := { u.top with pc := pc }) ⟨rfl, rfl, ?_, ?_, he, hpanic⟩ ?_ (fun lk hlk =>
    h.wants lk (hw lk hlk))
    fun hsw => h.switching (hs hsw)
  · exact iff_of_false (Frame.not_open hq') (Frame.not_open hq)
  · exact Or.imp_right (Or.imp_right ha)
  · rw [h.count, Frame.depth, Frame.depth, hx]

theorem readeflags {k : Option L} (h : CpuOk ptable u) (hpc : u.top.pc = .readeflags k) :
    CpuOk ptable { u with top := { u.top.enter u.eflags with pc := .cli k u.eflags } } := by
  have hcount : u.ncli = u.top.locks.length + u.top.pushed := by simpa [hpc] using h.count
  have hw := h.wants
  rw [hpc] at hw
  by_cases hfree : u.top.locks = [] ∧ u.top.pushed = 0
  · rw [Frame.enter, if_pos (by simpa using hfree)]
    refine ⟨by simpa using hcount, fun ho => ?_, fun _ _ => rfl, fun e he _ _ => ⟨rfl, ?_⟩, fun _ ha => ?_, hw,
      ?_, ?_, h.below⟩
    · exact absurd ⟨hfree.1, hfree.2, rfl⟩ ho
    · exact (Option.some.inj he).symm
    · simp [hfree] at ha
    · simp
    · simp
  · rw [Frame.enter, if_neg (by simpa using hfree)]
    have hclosed : ¬ u.top.Open := fun ho => hfree ⟨ho.1, ho.2.1⟩
    refine ⟨by simpa using hcount, fun _ => h.off hclosed, fun _ ho => absurd ⟨ho.1, ho.2.1⟩ hfree,
      fun e _ hl hp => absurd ⟨hl, hp⟩ hfree, fun hk _ => h.intena hk ?_, hw, ?_, ?_, h.below⟩
    · rw [Frame.Armed, ← or_assoc]
      exact .inl (not_and_or.mp hfree)
    · simp
    · simp

theorem cli {k : Option L} {e : Bool} (h : CpuOk ptable u) (hpc : u.top.pc = .cli k e) :
    CpuOk ptable { u.goto (.save k e) with eflags := false } := by
  have hw := h.wants
  have he := h.eflags
  rw [hpc] at hw he
  refine ⟨by simpa [hpc] using h.count, fun _ => rfl, fun _ ho => by simp at ho, he, fun hk ha =>
    h.intena hk ?_, hw, ?_, ?_, h.below⟩
  · simpa [hpc] using ha
  · simp
  · simp

theorem save {k : Option L} {e : Bool} (h : CpuOk ptable u) (hpc : u.top.pc = .save k e) :
    CpuOk ptable { u.goto (.incr k) with intena := if u.ncli = 0 then e else u.intena } := by
  have hw := h.wants
  have he := h.eflags
  rw [hpc] at hw he
  have hz := h.zero_iff (by simp [hpc])
  refine ⟨by simpa [hpc] using h.count, fun _ => h.off (Frame.not_open (by simp [hpc])), fun _ ho => by simp at ho,
    fun e he => by simp at he, fun hk _ => ?_, hw, ?_, ?_, h.below⟩
  · show (if u.ncli = 0 then e else u.intena) = u.top.before
    split
    next h0 => exact (he e rfl (hz.mp h0).1 (hz.mp h0).2).2
    next h0 =>
      refine h.intena hk ?_
      rw [Frame.Armed, ← or_assoc]
      exact .inl (not_and_or.mp (hz.not.mp h0))
  · simp
  · simp

theorem enable (h : CpuOk ptable u) (hpc : u.top.pc = .enable) :
    CpuOk ptable { u.goto .idle with eflags := if u.ncli = 0 ∧ u.intena then true else u.eflags } := by
  have hoff := h.off (Frame.not_open (by simp [hpc]))
  have hz := h.zero_iff (by simp [hpc])
  have harmed : u.top.Armed := by simp [hpc]
  refine ⟨by simpa [hpc] using h.count, fun ho => ?_, fun hk ho => ?_, fun e he => by simp at he,
    fun hk _ => h.intena hk harmed, by simp, by simp, by simp, h.below⟩
  · show (if u.ncli = 0 ∧ u.intena then true else u.eflags) = false
    rw [if_neg fun hc => ho ⟨(hz.mp hc.1).1, (hz.mp hc.1).2, rfl⟩, hoff]
  · show (if u.ncli = 0 ∧ u.intena then true else u.eflags) = u.top.before
    rw [h.intena hk harmed, hz.mpr ⟨ho.1, ho.2.1⟩, hoff]
    cases u.top.before <;> rfl

theorem setFlag {b : Bool} (h : CpuOk ptable u) (hpc : u.top.pc = .idle)
    (hl : u.top.locks = [] ∧ u.top.pushed = 0) :
    CpuOk ptable { u with eflags := b, top := { u.top with before := b, kept := true } } := by
  refine ⟨h.count, fun ho => ?_, fun _ _ => rfl, ?_, fun _ ha => ?_, h.wants, h.switching, h.sound, h.below⟩
  · exact absurd ⟨hl.1, hl.2, by simp [hpc]⟩ ho
  · simp [hpc]
  · simp [hpc, hl] at ha

theorem stop (h : CpuOk ptable u) : CpuOk ptable { u with running := false } :=
  ⟨h.count, h.off, h.flag, h.eflags, h.intena, h.wants, fun hs => ⟨(h.switching hs).1, (h.switching hs).2.1, rfl⟩,
    h.sound, h.below⟩

theorem opened (h : CpuOk ptable u) (he : u.eflags = true) : u.top.Open := by
  by_contra ho
  rw [h.off ho] at he
  cases he

theorem interrupt (h : CpuOk ptable u) (he : u.eflags = true) :
    CpuOk ptable { u with eflags := false, top := ⟨.idle, [], 0, false, true⟩, below := u.top :: u.below } := by
  have ho := h.opened he
  have hs : Suspended u.top :=
    ⟨ho, fun hk => (h.flag hk ho).symm.trans he, fun e hpc => h.eflags e hpc ho.1 ho.2.1⟩
  refine ⟨?_, fun _ => rfl, fun _ _ => rfl, by simp, by simp, by simp, by simp, by simp, ?_⟩
  · show u.ncli = 0
    exact (h.zero_iff ho.extra).mpr ⟨ho.1, ho.2.1⟩
  · exact List.forall_mem_cons.mpr ⟨hs, h.below⟩

theorem iret {f : Frame L T} {below : List (Frame L T)} (h : CpuOk ptable u) (hpc : u.top.pc = .idle)
    (hl : u.top.locks = [] ∧ u.top.pushed = 0) (hb : u.below = f :: below) :
    CpuOk ptable { u with eflags := true, top := f, below := below } := by
  have hall := h.below
  rw [hb] at hall
  obtain ⟨hf, hbelow⟩ := List.forall_mem_cons.mp hall
  obtain ⟨ho, hbefore, he⟩ := hf
  have hz : u.ncli = 0 := (h.zero_iff (by simp [hpc])).mpr hl
  have hq := ho.2.2
  refine ⟨?_, fun hc => absurd ho hc, fun hk _ => (hbefore hk).symm, fun e hpc _ _ => he e hpc, fun _ ha => ?_,
    fun lk _ => ?_, fun hs => ?_, fun m hm => ?_, hbelow⟩
  · show u.ncli = f.depth
    rw [hz, Frame.depth, ho.1, ho.2.1, ho.extra]
    rfl
  · have ha : f.pc.armed = true := by simpa [ho.1, ho.2.1] using ha
    cases hfpc : f.pc <;> simp_all
  · simp [ho.1]
  · cases hfpc : f.pc <;> simp_all
  · have hm : f.pc = .panic m := hm
    simp [hm] at hq

end CpuOk

/-! ### All CPUs -/

theorem Frame.recorded_subset (f : Frame L T) : f.recorded ⊆ f.inside := by
  intro m hm
  rcases List.mem_append.mp hm with hm | hm
  · refine List.mem_append_left _ ?_
    cases hpc : f.pc <;> simp_all
  · exact List.mem_append_right _ hm

theorem Frame.Open.inside {f : Frame L T} (h : f.Open) : f.inside = [] ∧ f.recorded = [] := by
  obtain ⟨hl, -, hq⟩ := h
  unfold Frame.inside Frame.recorded
  rw [hl]
  cases hpc : f.pc <;> simp_all

variable {s t : State C L T} {c d : C}

namespace Locks

theorem unlocked (h : Locks s) (hfree : s.locked lk = false) (d : C) : lk ∉ (s.cpu d).top.inside := by
  intro hd
  exact absurd ((h.locked_iff lk).mpr ⟨d, hd⟩) (by simp [hfree])

theorem locked_of_inside (h : Locks s) (hc : lk ∈ (s.cpu c).top.inside) : s.locked lk = true :=
  (h.locked_iff lk).mpr ⟨c, hc⟩

theorem owned {pc : Pc L T} (h : Locks s) (hpc : (s.cpu c).top.pc = pc) (hlk : pc.inside = some lk) :
    (∀ d, d ≠ c → lk ∉ (s.cpu d).top.inside) ∧ s.locked lk = true ∧ (lk :: (s.cpu c).top.locks).Nodup := by
  have hin : (s.cpu c).top.inside = lk :: (s.cpu c).top.locks := by
    rw [Frame.inside, hpc, hlk]
    rfl
  have hmem : lk ∈ (s.cpu c).top.inside := hin ▸ List.mem_cons_self
  exact ⟨fun d hd hin' => hd (h.one lk d c hin' hmem), h.locked_of_inside hmem, hin ▸ h.nodup c⟩

variable [DecidableEq C]

theorem change {Q : L → Prop} (h : Locks s) (hcpu : t.cpu = update s.cpu c u)
    (hsame : ∀ m, ¬ Q m → t.locked m = s.locked m ∧ t.owner m = s.owner m ∧
      (m ∈ u.top.inside ↔ m ∈ (s.cpu c).top.inside) ∧ (m ∈ u.top.recorded ↔ m ∈ (s.cpu c).top.recorded))
    (hnew : ∀ m, Q m → (∀ d, d ≠ c → m ∉ (s.cpu d).top.inside) ∧ (t.locked m = true ↔ m ∈ u.top.inside) ∧
      ∀ d, t.owner m = some d ↔ d = c ∧ m ∈ u.top.recorded) (hn : u.top.inside.Nodup) : Locks t := by
  have hat : ∀ d, t.cpu d = if d = c then u else s.cpu d := fun d => by rw [hcpu, update_apply]
  refine ⟨fun m => ?_, fun m d e => ?_, fun d => ?_, fun m d => ?_⟩ <;> simp only [hat]
  · by_cases hm : Q m
    · obtain ⟨hother, hb, -⟩ := hnew m hm
      rw [hb]
      constructor
      · exact fun hu => ⟨c, by rwa [if_pos rfl]⟩
      · rintro ⟨d, hd⟩
        split at hd
        · exact hd
        · exact absurd hd (hother d ‹_›)
    · obtain ⟨hb, -, hi, -⟩ := hsame m hm
      rw [hb, h.locked_iff]
      refine exists_congr fun d => ?_
      split
      · rw [hi, ‹d = c›]
      · rfl
  · have h1 := h.one m d e
    by_cases hm : Q m <;> grind
  · split
    · exact hn
    · exact h.nodup d
  · by_cases hm : Q m
    · obtain ⟨hother, -, ho⟩ := hnew m hm
      rw [ho]
      split
      · simp only [‹d = c›, true_and]
      · simp only [‹¬ d = c›, false_and, false_iff]
        exact fun hd => hother d ‹_› (Frame.recorded_subset _ hd)
    · obtain ⟨-, ho, -, hr⟩ := hsame m hm
      rw [ho, h.owner_iff]
      split
      · rw [hr, ‹d = c›]
      · rfl

theorem setCpu (h : Locks s) (hi : ∀ lk, lk ∈ u.top.inside ↔ lk ∈ (s.cpu c).top.inside)
    (hr : ∀ lk, lk ∈ u.top.recorded ↔ lk ∈ (s.cpu c).top.recorded) (hn : u.top.inside.Nodup) :
    Locks (s.setCpu c u) :=
  h.change (Q := fun _ => False) rfl (fun m _ => ⟨rfl, rfl, hi m, hr m⟩) (fun _ => False.elim) hn

section

variable [DecidableEq L]

theorem xchg (h : Locks s) (hpc : (s.cpu c).top.pc = .xchg lk) (hfree : s.locked lk = false) :
    Locks ((s.setLocked lk true).setCpu c ((s.cpu c).goto (.record lk))) := by
  have hno := h.unlocked hfree
  have hlk : lk ∉ (s.cpu c).top.locks := by simpa [hpc] using hno c
  have hn : (s.cpu c).top.locks.Nodup := by simpa [hpc] using h.nodup c
  have howner : ∀ d, s.owner lk ≠ some d := fun d hd => hno d (Frame.recorded_subset _ ((h.owner_iff lk d).mp hd))
  refine h.change (Q := (· = lk)) rfl (fun m hm => ?_) ?_ (by simp [hlk, hn])
  · simp [State.setCpu, State.setLocked, hpc, hm]
  · rintro _ rfl
    exact ⟨fun d _ => hno d,
      by simp [State.setCpu, State.setLocked], fun d => by simp [State.setCpu, State.setLocked, howner, hlk]⟩

theorem record (h : Locks s) (hpc : (s.cpu c).top.pc = .record lk) :
    Locks ((s.setOwner lk (some c)).setCpu c
      ((s.cpu c).call (lk :: (s.cpu c).top.locks) (s.cpu c).top.pushed .idle)) := by
  obtain ⟨hother, hlocked, hn⟩ := h.owned hpc rfl
  refine h.change (Q := (· = lk)) rfl (fun m hm => ?_) ?_ (by simpa using hn)
  · simp [State.setCpu, State.setOwner, hpc, hm]
  · rintro _ rfl
    simpa [State.setCpu, State.setOwner, hlocked, eq_comm] using hother

theorem clear (h : Locks s) (hpc : (s.cpu c).top.pc = .clear lk) :
    Locks ((s.setOwner lk none).setCpu c ((s.cpu c).goto (.store lk))) := by
  obtain ⟨hother, hlocked, hn⟩ := h.owned hpc rfl
  refine h.change (Q := (· = lk)) rfl (fun m hm => ?_) ?_ (by simpa using hn)
  · simp [State.setCpu, State.setOwner, hpc, hm]
  · rintro _ rfl
    simpa [State.setCpu, State.setOwner, hlocked, (List.nodup_cons.mp hn).1] using hother

theorem store (h : Locks s) (hpc : (s.cpu c).top.pc = .store lk) :
    Locks ((s.setLocked lk false).setCpu c ((s.cpu c).goto .test)) := by
  obtain ⟨hother, -, hn⟩ := h.owned hpc rfl
  obtain ⟨hlk, hn⟩ := List.nodup_cons.mp hn
  have howner : ∀ d, s.owner lk ≠ some d := by
    intro d hd
    have hrec := (h.owner_iff lk d).mp hd
    obtain rfl : d = c := not_imp_not.mp (hother d) (Frame.recorded_subset _ hrec)
    simp [hpc, hlk] at hrec
  refine h.change (Q := (· = lk)) rfl (fun m hm => ?_) ?_ (by simpa using hn)
  · simp [State.setCpu, State.setLocked, hpc, hm]
  · rintro _ rfl
    simpa [State.setCpu, State.setLocked, howner, hlk] using hother

end

end Locks

variable [DecidableEq C]

namespace Good

theorem setCpu (h : Good ptable s) (hu : CpuOk ptable u) (hl : Locks t) (hc : t.cpu = update s.cpu c u)
    (hp : t.parked = s.parked) : Good ptable t := by
  refine ⟨fun d => ?_, hl, fun x p hx => h.parked x p (hp ▸ hx)⟩
  rw [hc, update_apply]
  split
  · exact hu
  · exact h.cpu d

theorem keep (h : Good ptable s) (hu : CpuOk ptable u)
    (hk : u.top.inside = (s.cpu c).top.inside ∧ u.top.recorded = (s.cpu c).top.recorded) : Good ptable
    (s.setCpu c u) :=
  h.setCpu hu (h.locks.setCpu (fun _ => by rw [hk.1]) (fun _ => by rw [hk.2]) (hk.1 ▸ h.locks.nodup c)) rfl rfl

theorem goto {pc : Pc L T} (h : Good ptable s) (hnext : (s.cpu c).top.pc.Follows pc)
    (hk : pc.inside = (s.cpu c).top.pc.inside ∧ pc.recorded = (s.cpu c).top.pc.recorded) :
    Good ptable (s.setCpu c ((s.cpu c).goto pc)) :=
  h.keep ((h.cpu c).goto hnext) (by simp only [Frame.inside, Frame.recorded, Cpu.goto, hk, and_self])

variable {dst : T}

/-- What a switch leads to. -/
theorem switched {keep : Bool} {p : Parked L T} (hok : ParkedOk ptable p) (hncli : u.ncli = 1)
    (hoff : u.eflags = false) :
    CpuOk ptable { u with
      thread := dst
      top := { p.top with kept := p.top.kept && p.intena.isSome }
      below := p.below
      intena := p.intena.getD u.intena
      running := !keep } := by
  refine ⟨?_, fun _ => hoff, fun _ ho => ?_, by simp [hok.pc], fun hk _ => ?_, by simp [hok.pc], by simp [hok.pc],
    by simp [hok.pc], hok.below⟩
  · simp [hncli, hok.pc, hok.locks, hok.pushed]
  · simp [hok.locks] at ho
  · obtain ⟨hk, hi⟩ := Bool.and_eq_true_iff.mp hk
    obtain ⟨b, hb⟩ := Option.isSome_iff_exists.mp hi
    show p.intena.getD u.intena = p.top.before
    rw [hb]
    exact hok.intena b hb hk

variable [DecidableEq T]

theorem switch {keep : Bool} (h : Good ptable s)
    (hpc : (s.cpu c).top.pc = .idle ∨ (s.cpu c).top.pc = .swtch dst)
    (hl : (s.cpu c).top.locks = [ptable] ∧ (s.cpu c).top.pushed = 0)
    (ht : s.switch c keep dst = some t) : Good ptable t := by
  obtain ⟨p, hp, rfl⟩ := Option.map_eq_some_iff.mp ht
  have hok := h.parked dst p hp
  have hcpu := h.cpu c
  have hextra : (s.cpu c).top.pc.extra = 0 ∧ (s.cpu c).top.pc.inside = none ∧
      (s.cpu c).top.pc.recorded = none := by
    rcases hpc with hpc | hpc <;> simp [hpc]
  have hncli : (s.cpu c).ncli = 1 := by
    rw [hcpu.count, Frame.depth, hl.1, hl.2, hextra.1]
    rfl
  have hoff : (s.cpu c).eflags = false := hcpu.off fun ho => by simp [hl.1] at ho
  have hlocks := h.locks.setCpu (c := c) (u :=
      { s.cpu c with
        thread := dst
        top := { p.top with kept := p.top.kept && p.intena.isSome }
        below := p.below
        intena := p.intena.getD (s.cpu c).intena
        running := !keep })
    (fun m => by simp only [Frame.inside, hextra.2.1, hl.1, hok.pc, hok.locks]; rfl)
    (fun m => by simp only [Frame.recorded, hextra.2.2, hl.1, hok.pc, hok.locks]; rfl)
    (by simp [hok.pc, hok.locks])
  refine ⟨fun d => ?_, ⟨hlocks.locked_iff, hlocks.one, hlocks.nodup, hlocks.owner_iff⟩, fun x q hx => ?_⟩
  · show CpuOk ptable (update s.cpu c _ d)
    rw [update_apply]
    split
    · exact switched hok hncli hoff
    · exact h.cpu d
  · have hx : update (update s.parked dst none) (s.cpu c).thread _ x = some q := hx
    rw [update_apply, update_apply] at hx
    split at hx
    · obtain rfl := Option.some.inj hx
      refine ⟨rfl, hl.1, hl.2, fun b hb hk => ?_, hcpu.below⟩
      cases keep with
      | true => exact (Option.some.inj hb).symm.trans (hcpu.intena hk (.inl (by simp [hl.1])))
      | false => cases hb
    · split at hx
      · cases hx
      · exact h.parked x q hx

variable [DecidableEq L]

theorem exec (h : Good ptable s) (ht : s.exec ptable c = some t) : Good ptable t := by
  have hcpu := h.cpu c
  unfold State.exec at ht
  cases hpc : (s.cpu c).top.pc <;> simp only [hpc, Option.some.injEq, reduceCtorEq] at ht <;> try subst ht
  case readeflags k =>
    refine h.keep (hcpu.readeflags hpc) ?_
    rw [Frame.enter]
    split <;> simp [hpc]
  case cli k e => exact h.keep (hcpu.cli hpc) (by simp [hpc])
  case save k e => exact h.keep (hcpu.save hpc) (by simp [hpc])
  case incr k =>
    cases k with
    | none =>
        obtain rfl := Option.some.inj ht
        refine h.keep (hcpu.moves ?_ ?_ (by simp) (by simp)) (by simp [hpc])
        · constructor <;> simp [hpc]
        · simp [hcpu.count, hpc]
          omega
    | some lk =>
        obtain rfl := Option.some.inj ht
        refine h.keep (hcpu.moves ?_ ?_ (fun m hm => hcpu.wants m (by simpa [hpc] using hm)) (by simp))
          (by simp [hpc])
        · constructor <;> simp [hpc]
        · simp [hcpu.count, hpc]
  case check lk => split <;> exact h.goto (by simp [hpc]) (by simp [hpc])
  case checkCpu lk =>
    have hno : s.owner lk ≠ some c := by
      intro ho
      have := (h.locks.owner_iff lk c).mp ho
      exact hcpu.wants lk (by simp [hpc]) (by simpa [hpc] using this)
    rw [if_neg hno]
    exact h.goto (by simp [hpc]) (by simp [hpc])
  case xchg lk =>
    cases hlk : s.locked lk with
    | true =>
        have hsame : s.setLocked lk true = s := by rw [State.setLocked, ← hlk, update_eq_self]
        rw [hsame, if_pos rfl]
        exact h.goto (by simp [hpc]) (by simp [hpc])
    | false => exact h.setCpu (hcpu.goto (by simp [hpc])) (h.locks.xchg hpc hlk) rfl rfl
  case record lk =>
    refine h.setCpu (hcpu.moves (f := ⟨.idle, lk :: (s.cpu c).top.locks, _, _, _⟩) ?_ ?_ (by simp) (by simp))
      (h.locks.record hpc) rfl rfl
    · constructor <;> simp [hpc]
    · simp [hcpu.count, hpc]
      omega
  case held lk =>
    rw [h.locks.locked_of_inside (show lk ∈ (s.cpu c).top.inside by simp [hpc])]
    exact h.goto (by simp [hpc]) (by simp [hpc])
  case heldCpu lk =>
    rw [if_pos ((h.locks.owner_iff lk c).mpr (by simp [hpc]))]
    exact h.goto (by simp [hpc]) (by simp [hpc])
  case clear lk => exact h.setCpu (hcpu.goto (by simp [hpc])) (h.locks.clear hpc) rfl rfl
  case store lk => exact h.setCpu (hcpu.goto (by simp [hpc])) (h.locks.store hpc) rfl rfl
  case test =>
    rw [hcpu.off (Frame.not_open (by simp [hpc]))]
    exact h.goto (by simp [hpc]) (by simp [hpc])
  case decr =>
    have hcount : (s.cpu c).ncli = (s.cpu c).top.locks.length + (s.cpu c).top.pushed + 1 := by
      simpa [hpc] using hcpu.count
    rw [if_neg (by omega)]
    refine h.keep (hcpu.moves ?_ ?_ (by simp) (by simp)) (by simp [hpc])
    · constructor <;> simp [hpc]
    · simp [hcount]
  case enable => exact h.keep (hcpu.enable hpc) (by simp [hpc])
  case own dst =>
    have hl := hcpu.switching (by simp [hpc])
    rw [h.locks.locked_of_inside (show ptable ∈ (s.cpu c).top.inside by simp [hl.1])]
    exact h.goto (by simp [hpc]) (by simp [hpc])
  case ownCpu dst =>
    have hl := hcpu.switching (by simp [hpc])
    rw [if_pos ((h.locks.owner_iff ptable c).mpr (by simp [hl.1]))]
    exact h.goto (by simp [hpc]) (by simp [hpc])
  case swtch dst =>
    have hl := hcpu.switching (by simp [hpc])
    have hncli : (s.cpu c).ncli = 1 := by simpa [hpc, hl.1, hl.2.1] using hcpu.count
    rw [hncli, hl.2.2, hcpu.off (Frame.not_open (by simp [hpc]))] at ht
    exact h.switch (.inr hpc) ⟨hl.1, hl.2.1⟩ (by simpa using ht)

theorem idle_of_step {a : Act L T} (ha : a ≠ .run) (ha' : a ≠ .interrupt) (ht : s.step ptable (c, a) = some t) :
    (s.cpu c).top.pc = .idle := by
  cases hpc : (s.cpu c).top.pc with
  | idle => rfl
  | _ => cases a <;> simp_all [State.step]

theorem step {a : C × Act L T} (h : Good ptable s) (hok : s.Allowed ptable a) (ht : s.step ptable a = some t) :
    Good ptable t := by
  obtain ⟨c, a⟩ := a
  have hcpu := h.cpu c
  rcases eq_or_ne a .run with rfl | hrun
  · refine h.exec (c := c) ?_
    cases hpc : (s.cpu c).top.pc <;> simpa [State.step, hpc] using ht
  rcases eq_or_ne a .interrupt with rfl | hint
  · have hflag : (s.cpu c).eflags = true ∧ s.setCpu c { s.cpu c with
        eflags := false, top := ⟨.idle, [], 0, false, true⟩, below := (s.cpu c).top :: (s.cpu c).below } = t := by
      cases hpc : (s.cpu c).top.pc <;> simpa [State.step, hpc] using ht
    obtain ⟨he, rfl⟩ := hflag
    obtain ⟨hin, hrec⟩ := (hcpu.opened he).inside
    exact h.keep (hcpu.interrupt he) ⟨hin.symm, hrec.symm⟩
  have hpc := idle_of_step hrun hint ht
  cases a <;> simp only [State.step, hpc, Option.some.injEq] at ht <;> try subst ht
  case acquire lk =>
    refine h.keep (hcpu.moves ?_ ?_ (fun m hm => Option.some.inj hm ▸ hok) (by simp)) (by simp [hpc])
    · constructor <;> simp [hpc]
    · simp [hcpu.count, hpc]
  case release lk =>
    have hperm : (lk :: (s.cpu c).top.locks.erase lk).Perm (s.cpu c).top.locks := (List.perm_cons_erase hok).symm
    have hn : (s.cpu c).top.locks.Nodup := by simpa [hpc] using h.locks.nodup c
    have hlen := hperm.length_eq
    have hne : (s.cpu c).top.locks ≠ [] := List.ne_nil_of_mem hok
    refine h.setCpu (hcpu.moves (f := ⟨.held lk, (s.cpu c).top.locks.erase lk, _, _, _⟩) ?_ ?_ (by simp) (by simp))
      (h.locks.setCpu (fun m => ?_) (fun m => ?_) ?_) rfl rfl
    · constructor <;> simp [hpc, hne]
    · simp only [List.length_cons] at hlen
      simp [hcpu.count, hpc]
      omega
    · simpa [hpc] using hperm.mem_iff
    · simpa [hpc] using hperm.mem_iff
    · simpa using hperm.nodup_iff.mpr hn
  case pushcli =>
    refine h.keep (hcpu.moves ?_ ?_ (by simp) (by simp)) (by simp [hpc])
    · constructor <;> simp [hpc]
    · simp [hcpu.count, hpc]
  case popcli =>
    have hpos : 0 < (s.cpu c).top.pushed := hok
    refine h.keep (hcpu.moves ?_ ?_ (by simp) (by simp)) (by simp [hpc])
    · constructor <;> simp [hpc, hpos.ne']
    · simp [hcpu.count, hpc]
      omega
  case stop => exact h.keep hcpu.stop (by simp)
  case sched dst =>
    refine h.keep (hcpu.moves ?_ ?_ (by simp) fun _ => hok) (by simp [hpc])
    · constructor <;> simp [hpc, hok.1]
    · simp [hcpu.count, hpc]
  case scheduler dst => exact h.switch (.inl hpc) hok ht
  case setFlag b =>
    have hu := hcpu.setFlag (b := b) hpc ⟨hok.1, hok.2.1⟩
    simp only [hpc] at hu
    exact h.keep hu (by simp [hpc])
  case run => exact absurd rfl hrun
  case interrupt => exact absurd rfl hint
  case iret =>
    cases hb : (s.cpu c).below with
    | nil => simp [hb] at ht
    | cons f below =>
        simp only [hb, Option.some.injEq] at ht
        subst ht
        have hf := hcpu.below f (hb ▸ List.mem_cons_self)
        obtain ⟨hin, hrec⟩ := hf.opened.inside
        obtain ⟨hin', hrec'⟩ := Frame.Open.inside ⟨hok.1, hok.2, by rw [hpc]; rfl⟩
        exact h.keep (hcpu.iret hpc hok hb) ⟨hin.trans hin'.symm, hrec.trans hrec'.symm⟩

end Good

/-! ### Every order of steps -/

def start (ptable : L) (thread : C → T) (flag : C → Bool) (new : T → Bool) : State C L T where
  locked _ := false
  owner _ := none
  cpu c := ⟨thread c, ⟨.idle, [], 0, flag c, true⟩, [], flag c, 0, false, false⟩
  parked x := if new x then some ⟨⟨.idle, [ptable], 0, false, false⟩, [], none⟩ else none

omit [DecidableEq C] in
theorem good_start (thread : C → T) (flag : C → Bool) (new : T → Bool) :
    Good ptable (start ptable thread flag new) := by
  refine ⟨fun c => ?_, ⟨?_, ?_, ?_, ?_⟩, fun x p hx => ?_⟩
  · constructor <;> simp [start]
  · simp [start]
  · simp [start]
  · simp [start]
  · simp [start]
  · simp only [start, Option.ite_none_right_eq_some, Option.some.injEq] at hx
    obtain ⟨-, rfl⟩ := hx
    exact ⟨rfl, rfl, rfl, by simp, by simp⟩

variable [DecidableEq L] [DecidableEq T] {thread : C → T} {flag : C → Bool} {new : T → Bool}
    {acts : List (C × Act L T)}

theorem good_run (hok : Along (State.step ptable) (State.Allowed ptable) (start ptable thread flag new) acts)
    (hrun : run (State.step ptable) (start ptable thread flag new) acts = some s) : Good ptable s :=
  run_invariant (Good ptable) (fun _ _ _ h hok ht => h.step hok ht) (good_start thread flag new) hok hrun

/-- For every order of the CPUs' steps and every interrupt: no lock is had by two CPUs or twice by one, no test
of `acquire`, `release`, `popcli` and `sched` panics, interrupts are off while a CPU has a lock, and a CPU that
waits for a lock waits for another CPU. -/
theorem spinlocks_exclude
    (hok : Along (State.step ptable) (State.Allowed ptable) (start ptable thread flag new) acts)
    (hrun : run (State.step ptable) (start ptable thread flag new) acts = some s) :
    (∀ lk c d, lk ∈ (s.cpu c).top.inside → lk ∈ (s.cpu d).top.inside → c = d) ∧
      (∀ c, (s.cpu c).top.inside.Nodup) ∧ (∀ c m, (s.cpu c).top.pc ≠ .panic m) ∧
      (∀ c, (s.cpu c).top.inside ≠ [] → (s.cpu c).eflags = false) ∧
      ∀ c lk, (s.cpu c).top.pc = .xchg lk → s.locked lk = true → ∃ d, d ≠ c ∧ lk ∈ (s.cpu d).top.inside := by
  have h := good_run hok hrun
  refine ⟨h.locks.one, h.locks.nodup, fun c => (h.cpu c).sound, fun c hc => ?_, fun c lk hpc hlk => ?_⟩
  · exact (h.cpu c).off fun ho => hc ho.inside.1
  · obtain ⟨d, hd⟩ := (h.locks.locked_iff lk).mp hlk
    refine ⟨d, ?_, hd⟩
    rintro rfl
    refine (h.cpu d).wants lk (by simp [hpc]) ?_
    simpa [hpc] using hd

def contention : List (Bool × Act Bool Nat) :=
  (false, .acquire true) :: List.replicate 7 (false, .run) ++ (true, .acquire true) :: List.replicate 7 (true, .run)

theorem contention_allowed : Along (State.step false) (State.Allowed false)
    (start false (fun c => c.toNat) (fun _ => true) fun _ => false) contention :=
  along_of_alongB (fun s a => decide (s.Allowed false a)) (fun _ _ => of_decide_eq_true) (by decide)

theorem spinlocks_exclude_contention : ∃ s : State Bool Bool Nat, run (State.step false)
    (start false (fun c => c.toNat) (fun _ => true) fun _ => false) contention = some s ∧
    ∃ d, d ≠ true ∧ true ∈ (s.cpu d).top.inside := by
  obtain ⟨s, hrun, hpc, hlk⟩ : ∃ s : State Bool Bool Nat, run (State.step false)
      (start false (fun c => c.toNat) (fun _ => true) fun _ => false) contention = some s ∧
      (s.cpu true).top.pc = .xchg true ∧ s.locked true = true := ⟨_, rfl, by decide, by decide⟩
  exact ⟨s, hrun, (spinlocks_exclude contention_allowed hrun).2.2.2.2 true true hpc hlk⟩

/-- Between calls `cpu->ncli` counts the locks and the calls of `pushcli`, code that has none of either runs
with the interrupt flag that it had before, on whatever CPU it goes on, and interrupted code has no lock. The
flag is not that of before for code that a switch has led to and that is not resumed by `sched`, until its next
`pushcli`. -/
theorem interrupts_restored
    (hok : Along (State.step ptable) (State.Allowed ptable) (start ptable thread flag new) acts)
    (hrun : run (State.step ptable) (start ptable thread flag new) acts = some s) (c : C)
    (hpc : (s.cpu c).top.pc = .idle) :
    (s.cpu c).ncli = (s.cpu c).top.locks.length + (s.cpu c).top.pushed ∧
      ((s.cpu c).ncli = 0 → (s.cpu c).top.kept = true → (s.cpu c).eflags = (s.cpu c).top.before) ∧
      (0 < (s.cpu c).ncli → (s.cpu c).eflags = false ∧
        ((s.cpu c).top.kept = true → (s.cpu c).intena = (s.cpu c).top.before)) ∧
      ∀ f ∈ (s.cpu c).below, f.inside = [] := by
  have h := (good_run hok hrun).cpu c
  have hz := h.zero_iff (by rw [hpc]; rfl)
  refine ⟨by simpa [hpc] using h.count, fun h0 hk => ?_, fun hpos => ?_, fun f hf => (h.below f hf).opened.inside.1⟩
  · exact h.flag hk ⟨(hz.mp h0).1, (hz.mp h0).2, by rw [hpc]; rfl⟩
  · have hheld := not_and_or.mp (hz.not.mp hpos.ne')
    refine ⟨h.off fun ho => ?_, fun hk => h.intena hk ?_⟩
    · exact hheld.elim (absurd ho.1) (absurd ho.2.1)
    · exact hheld.elim .inl fun hp => .inr (.inl hp)

/-- A new process gives up the CPU that it has started on and goes on on the other one. -/
def migration : List (Bool × Act Bool Nat) :=
  let lock (c : Bool) : List (Bool × Act Bool Nat) := (c, .acquire false) :: List.replicate 7 (c, .run)
  let unlock (c : Bool) : List (Bool × Act Bool Nat) := (c, .release false) :: List.replicate 7 (c, .run)
  lock false ++ (false, .scheduler 2) :: unlock false ++ lock false ++
    (false, .stop) :: (false, .sched 0) :: List.replicate 3 (false, .run) ++ unlock false ++
    lock true ++ (true, .scheduler 2) :: unlock true

theorem migration_allowed : Along (State.step false) (State.Allowed false)
    (start false (fun c => c.toNat) (fun _ => true) (· == 2)) migration :=
  along_of_alongB (fun s a => decide (s.Allowed false a)) (fun _ _ => of_decide_eq_true) (by decide +kernel)

theorem interrupts_restored_migration : ∃ s : State Bool Bool Nat, run (State.step false)
    (start false (fun c => c.toNat) (fun _ => true) (· == 2)) migration = some s ∧
    (s.cpu true).thread = 2 ∧ (s.cpu true).ncli = 0 ∧ (s.cpu true).eflags = true := by
  have hany : (run (State.step false) (start false (fun c => c.toNat) (fun _ => true) (· == 2)) migration).any
      fun s => decide ((s.cpu true).thread = 2 ∧ (s.cpu true).ncli = 0 ∧ (s.cpu true).top.pc = .idle ∧
        (s.cpu true).top.kept = true ∧ (s.cpu true).top.before = true) := by decide +kernel
  obtain ⟨s, hrun, hs⟩ := (Option.any_eq_true _ _).mp hany
  obtain ⟨hthread, hncli, hpc, hkept, hbefore⟩ := of_decide_eq_true hs
  have hflag := (interrupts_restored migration_allowed hrun true hpc).2.1 hncli hkept
  exact ⟨s, hrun, hthread, hncli, hflag.trans hbefore⟩

end Xv6.Spin
