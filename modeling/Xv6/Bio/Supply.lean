import Xv6.Bio.Transparent
import Mathlib

namespace Xv6.Bio

open Lib Ide Finset
open Function (update update_apply update_of_ne update_self)

variable {P : Type} [DecidableEq P] {g : Log.Region} {disksize : Nat} {s t : State P} {a : Act P} {p q : P}
  {b : BufId} {dev blockno : UInt32}

def Op.marks : Op P → Bool
  | .mark .. => true
  | _ => false

namespace Cache

variable {c d : Cache P} {o : Op P}

def DirtyLe (d c : Cache P) : Prop :=
  ∀ b, (d.buf b).dirty = true → (c.buf b).dirty = true ∧ (d.buf b).blockno = (c.buf b).blockno

omit [DecidableEq P] in
theorem DirtyLe.of_eq (h : d.buf = c.buf) : DirtyLe d c := by
  intro b hb
  rw [h] at hb ⊢
  exact ⟨hb, rfl⟩

omit [DecidableEq P] in
theorem DirtyLe.of_update {x : Ide.Buf} (h : d.buf = update c.buf b x)
    (hx : x.dirty = true → (c.buf b).dirty = true ∧ x.blockno = (c.buf b).blockno) : DirtyLe d c := by
  intro b' hb'
  rw [h] at hb' ⊢
  by_cases hbb : b' = b
  · subst hbb
    rw [update_self] at hb' ⊢
    exact hx hb'
  · rw [update_of_ne hbb] at hb' ⊢
    exact ⟨hb', rfl⟩

theorem iderw_clean {m : Disk} {x : Ide.Buf} {r : Disk × Ide.Buf} (hr : Mem.iderw disksize m x = some r) :
    r.2.dirty = false := by
  simp only [Mem.iderw, Option.ite_none_left_eq_some] at hr
  obtain ⟨-, -, -, hr⟩ := hr
  split at hr
  · obtain rfl := Option.some.inj hr
    rfl
  · obtain rfl := Option.some.inj hr
    simpa using ‹¬ x.dirty = true›

theorem step_dirtyLe (hst : c.step disksize o = some d) (ho : o.marks = false) : DirtyLe d c := by
  cases o with
  | bread p dev blockno =>
      obtain ⟨-, hst⟩ := Option.ite_none_right_eq_some.mp hst
      rw [bget] at hst
      split at hst
      · exact .of_eq (Option.some.inj hst ▸ rfl)
      · split at hst
        · obtain rfl := Option.some.inj hst
          exact .of_update rfl fun h => (by cases h)
        · cases hst
  | acquire p =>
      simp only [Cache.step] at hst
      split at hst
      · obtain ⟨-, hd⟩ := Option.ite_none_right_eq_some.mp hst
        exact .of_eq (Option.some.inj hd ▸ rfl)
      · cases hst
  | load p =>
      simp only [Cache.step] at hst
      split at hst
      · obtain ⟨e, he, rfl⟩ := Option.map_eq_some_iff.mp hst
        rw [Cache.fetch] at he
        split at he
        · exact .of_eq (Option.some.inj he ▸ rfl)
        · obtain ⟨r, hr, rfl⟩ := Option.map_eq_some_iff.mp he
          exact .of_update rfl fun h => (by cases h.symm.trans (iderw_clean hr))
      · cases hst
  | modify p b data =>
      obtain ⟨-, hd⟩ := Option.ite_none_right_eq_some.mp hst
      obtain rfl := Option.some.inj hd
      exact .of_update rfl fun h => ⟨h, rfl⟩
  | mark p b => cases ho
  | bwrite p b =>
      obtain ⟨-, hd⟩ := Option.ite_none_right_eq_some.mp hst
      obtain ⟨r, hr, rfl⟩ := Option.map_eq_some_iff.mp hd
      exact .of_update rfl fun h => (by cases h.symm.trans (iderw_clean hr))
  | brelse p b =>
      obtain ⟨-, hd⟩ := Option.ite_none_right_eq_some.mp hst
      exact .of_eq (Option.some.inj hd ▸ rfl)
  | drop p =>
      simp only [Cache.step] at hst
      split at hst
      · exact .of_eq (Option.some.inj hst ▸ rfl)
      · cases hst

end Cache

def Stage.Installs (i : Nat) : Stage → Prop
  | .writeLog _ | .writeHead => True
  | .install tail => tail ≤ i
  | .clear | .release => False

def Pc.inOp : Pc → Bool
  | .call op | .logWrite op _ => op
  | .commit .. => false

def Pc.commits : Pc → Bool
  | .commit .. => true
  | _ => false

/-- A process in `commit` has yet to write the block, which is at position `i` of the log, to its home. -/
def Pc.Due (i : Nat) (blockno : UInt32) : Pc → Prop
  | .commit st todo => st.Installs i ∨ Cmd.bwrite blockno ∈ todo
  | _ => True

theorem Pc.due_of_not_commits {x : Pc} (hx : x.commits = false) (i : Nat) (blockno : UInt32) : x.Due i blockno := by
  cases x with
  | call | logWrite => trivial
  | commit => cases hx

variable [Fintype P]

/-- The blocks of the dirty buffers are in the log, and a commit does not miss them. -/
structure Logged (s : State P) : Prop where
  occ : s.outstanding = #{p | (s.pc p).inOp = true}
  commit : ∀ p, (s.pc p).commits = true → s.committing = true ∧ s.outstanding = 0
  one : ∀ p q, (s.pc p).commits = true → (s.pc q).commits = true → p = q
  op : ∀ p op b, s.pc p = .logWrite op b → op = true
  dirty : ∀ b, (s.buf b).dirty = true → ∃ i, s.lh[i]? = some (s.buf b).blockno ∧
    ∀ p, (s.pc p).Due i (s.buf b).blockno

namespace Logged

omit [DecidableEq P] in
theorem no_commit (h : Logged s) (hs : s.committing = false ∨ s.outstanding ≠ 0) (p : P) :
    (s.pc p).commits = false := by
  by_contra hn
  have := h.commit p (by simpa using hn)
  rcases hs with hs | hs
  · rw [hs] at this
    cases this.1
  · exact hs this.2

omit [DecidableEq P] in
theorem no_other_commit (h : Logged s) (hp : (s.pc p).commits = true) (q : P) (hq : q ≠ p) :
    (s.pc q).commits = false := by
  by_contra hn
  exact hq (h.one q p (by simpa using hn) hp)

omit [DecidableEq P] in
theorem outstanding_pos (h : Logged s) (hp : (s.pc p).inOp = true) : s.outstanding ≠ 0 := by
  rw [h.occ]
  exact Finset.card_ne_zero_of_mem (Finset.mem_filter.mpr ⟨Finset.mem_univ p, hp⟩)

theorem move (h : Logged s) {x : Pc} (hpc : t.pc = update s.pc p x)
    (hop : ∀ op b, x = .logWrite op b → op = true)
    (hself : x.commits = true → (t.committing = true ∧ t.outstanding = 0) ∧ ∀ q, q ≠ p → (s.pc q).commits = false)
    (hother : ∀ q, q ≠ p → (s.pc q).commits = true → t.committing = true ∧ t.outstanding = 0)
    (hocc : t.outstanding + (if (s.pc p).inOp = true then 1 else 0) = s.outstanding + if x.inOp =
    true then 1 else 0)
    (hdirty : ∀ b, (t.buf b).dirty = true →
      ∃ i, t.lh[i]? = some (t.buf b).blockno ∧ x.Due i (t.buf b).blockno ∧
        ∀ q, q ≠ p → (s.pc q).Due i (t.buf b).blockno) : Logged t where
  occ := by
    have := UpdateSum.card_update (fun y : Pc => y.inOp = true) s.pc p x
    have := h.occ
    rw [hpc]
    omega
  commit := by
    rw [hpc]
    exact (Function.forall_update_iff s.pc fun _ y => y.commits = true → t.committing = true ∧
      t.outstanding = 0).mpr
      ⟨fun hx => (hself hx).1, hother⟩
  one := by
    intro q r hq hr
    rw [hpc, update_apply] at hq hr
    have := h.one q r
    grind -ring -linarith
  op := by
    rw [hpc]
    exact (Function.forall_update_iff s.pc fun _ y => ∀ op b, y = .logWrite op b → op = true).mpr
      ⟨hop, fun q _ => h.op q⟩
  dirty := by
    intro b hb
    obtain ⟨i, hi, hx, hq⟩ := hdirty b hb
    refine ⟨i, hi, ?_⟩
    rw [hpc]
    exact (Function.forall_update_iff s.pc fun _ y => y.Due i _).mpr ⟨hx, hq⟩

end Logged

namespace State

omit [DecidableEq P] [Fintype P] in
/-- The log and the processes in it are as before, and no buffer has become dirty. -/
structure Quiet (s t : State P) : Prop where
  lh : t.lh = s.lh
  pc : t.pc = s.pc
  outstanding : t.outstanding = s.outstanding
  committing : t.committing = s.committing
  dirty : Cache.DirtyLe t.toCache s.toCache

omit [Fintype P] in
theorem Quiet.of_cacheStep {o : Op P} (h : s.cacheStep disksize o = some t) (ho : o.marks = false) : Quiet s t := by
  obtain ⟨c, hc, rfl⟩ := Option.map_eq_some_iff.mp h
  exact ⟨rfl, rfl, rfl, rfl, Cache.step_dirtyLe hc ho⟩

omit [Fintype P] in
theorem Quiet.of_bread (h : s.bread p dev blockno = some t) : Quiet s t := by
  obtain ⟨hp, ⟨hc, ht⟩ | ⟨-, rfl⟩⟩ := bread_eq_some h
  · have hst : s.toCache.step 0 (.bread p dev blockno) = some t.toCache := by rw [Cache.step, if_pos hp, hc]
    rw [ht]
    exact ⟨rfl, rfl, rfl, rfl, Cache.step_dirtyLe hst rfl⟩
  · exact ⟨rfl, rfl, rfl, rfl, .of_eq rfl⟩

omit [Fintype P] in
theorem Quiet.of_exec {cmd : Cmd} (h : s.exec disksize p cmd = some t) : Quiet s t := by
  cases cmd with
  | bread blockno => exact of_bread h
  | memmove dst src =>
      obtain ⟨b, -, h⟩ := Option.bind_eq_some_iff.mp h
      obtain ⟨b', -, h⟩ := Option.bind_eq_some_iff.mp h
      exact of_cacheStep h rfl
  | putHead blockno | bwrite blockno | brelse blockno =>
      obtain ⟨b, -, h⟩ := Option.bind_eq_some_iff.mp h
      exact of_cacheStep h rfl

omit [Fintype P] in
theorem heldBy_eq_some {c : Cache P} (h : c.heldBy p blockno = some b) :
    c.holder b = some p ∧ (c.buf b).blockno = blockno := by
  simpa using List.find?_some h

theorem exec_bwrite (hok : s.toCache.Ok) (h : s.exec disksize p (.bwrite blockno) = some t)
    (hb : (t.buf b).dirty = true) :
    (t.buf b).blockno ≠ blockno := by
  intro hn
  have hq := Quiet.of_exec h
  obtain ⟨b', hb', h⟩ := Option.bind_eq_some_iff.mp h
  obtain ⟨hholder, hblock⟩ := heldBy_eq_some hb'
  obtain ⟨hst, -⟩ := cacheStep_eq_some h
  obtain ⟨⟨hp, -⟩, hst⟩ := Option.ite_none_right_eq_some.mp hst
  obtain ⟨hd, hsame⟩ := hq.dirty b hb
  have hbb : b = b' := hok.eq_of_valid (hok.valid_of_held hp hholder) (hok.dirty b hd) (by rw [← hsame, hn, hblock])
  obtain ⟨r, hr, ht⟩ := Option.map_eq_some_iff.mp hst
  rw [← ht, hbb] at hb
  change (update s.buf b' r.2 b').dirty = true at hb
  rw [update_self, Cache.iderw_clean hr] at hb
  cases hb

end State

namespace Logged

omit [DecidableEq P] in
theorem quiet (h : Logged s) (hq : s.Quiet t) : Logged t where
  occ := by rw [hq.outstanding, hq.pc, h.occ]
  commit := by
    rw [hq.pc, hq.committing, hq.outstanding]
    exact h.commit
  one := by
    rw [hq.pc]
    exact h.one
  op := by
    rw [hq.pc]
    exact h.op
  dirty := by
    intro b hb
    obtain ⟨hd, hn⟩ := hq.dirty b hb
    rw [hq.pc, hq.lh, hn]
    exact h.dirty b hd

theorem exec (h : Logged s) (hok : s.toCache.Ok) {st : Stage} {cmd : Cmd} {todo : List Cmd}
    (hp : s.pc p = .commit st (cmd :: todo)) (hst : s.exec disksize p cmd = some t) :
    Logged (t.become p (.commit st todo)) := by
  have hq := State.Quiet.of_exec hst
  have hcom : (s.pc p).commits = true := by rw [hp]; rfl
  apply (h.quiet hq).move rfl
  · intro op b hx
    cases hx
  · intro _
    rw [hq.pc]
    exact ⟨(h.quiet hq).commit p (by rwa [hq.pc]), h.no_other_commit hcom⟩
  · exact fun q _ hqc => (h.quiet hq).commit q hqc
  · rw [hq.pc, hp]
    rfl
  · intro b hb
    obtain ⟨i, hi, hdue⟩ := (h.quiet hq).dirty b hb
    rw [hq.pc] at hdue ⊢
    refine ⟨i, hi, ?_, fun q _ => hdue q⟩
    have := hdue p
    rw [hp] at this
    rcases this with hin | hmem
    · exact .inl hin
    · rcases List.mem_cons.mp hmem with rfl | hmem
      · exact absurd rfl (State.exec_bwrite hok hst hb)
      · exact .inr hmem

theorem advance (h : Logged s) {st : Stage} (hp : s.pc p = .commit st []) : Logged (s.advance g p st) := by
  have hcom : (s.pc p).commits = true := by rw [hp]; rfl
  -- what is dirty is still to be installed
  have hdue : ∀ b, (s.buf b).dirty = true → ∃ i, s.lh[i]? = some (s.buf b).blockno ∧ st.Installs i ∧
      ∀ q, q ≠ p → (s.pc q).Due i (s.buf b).blockno := by
    intro b hb
    obtain ⟨i, hi, hdue⟩ := h.dirty b hb
    refine ⟨i, hi, ?_, fun q _ => hdue q⟩
    have := hdue p
    rw [hp] at this
    exact this.resolve_right (by simp)
  have next : ∀ (st' : Stage) (todo : List Cmd),
      (∀ b i, s.lh[i]? = some (s.buf b).blockno → st.Installs i → st'.Installs i ∨
        Cmd.bwrite (s.buf b).blockno ∈ todo) →
      Logged (s.become p (.commit st' todo)) := by
    intro st' todo hstage
    apply h.move rfl
    · intro op b hx
      cases hx
    · exact fun _ => ⟨h.commit p hcom, h.no_other_commit hcom⟩
    · exact fun q _ hqc => h.commit q hqc
    · rw [hp]
      rfl
    · intro b hb
      obtain ⟨i, hi, hin, hq⟩ := hdue b hb
      exact ⟨i, hi, hstage b i hi hin, hq⟩
  cases st with
  | writeLog tail =>
      rw [State.advance]
      split
      · exact next _ _ fun _ _ _ _ => .inl trivial
      · exact next _ _ fun _ _ _ _ => .inl trivial
  | writeHead => exact next _ _ fun _ i _ _ => .inl (Nat.zero_le i)
  | install tail =>
      rw [State.advance]
      split
      · rename_i htail
        apply next
        intro b i hi (hin : tail ≤ i)
        rcases Nat.eq_or_lt_of_le hin with rfl | hlt
        · rw [List.getElem?_eq_getElem htail, Option.some.injEq] at hi
          rw [← hi]
          exact .inr (by simp [installCmds])
        · exact .inl hlt
      · rename_i htail
        apply next
        intro b i hi (hin : tail ≤ i)
        have := (List.getElem?_eq_some_iff.mp hi).1
        omega
  | clear =>
      -- nothing is dirty any more
      apply h.move rfl
      · intro op b hx
        cases hx
      · exact fun _ => ⟨h.commit p hcom, h.no_other_commit hcom⟩
      · exact fun q _ hqc => h.commit q hqc
      · rw [hp]
        rfl
      · intro b hb
        obtain ⟨i, -, hin, -⟩ := hdue b hb
        exact hin.elim
  | release =>
      apply h.move rfl
      · intro op b hx
        cases hx
      · intro hx
        cases hx
      · intro q hqp hqc
        exact absurd hqc (by rw [h.no_other_commit hcom q hqp]; simp)
      · rw [hp]
        rfl
      · intro b hb
        obtain ⟨i, -, hin, -⟩ := hdue b hb
        exact hin.elim

theorem append (h : Logged s) {op : Bool} (hp : s.pc p = .logWrite op b)
    (hst : s.cacheStep disksize (.mark p b) = some t) :
    Logged ({ t with lh := absorb s.lh (s.buf b).blockno }.become p (.call op)) := by
  obtain ⟨c, hc, rfl⟩ := Option.map_eq_some_iff.mp hst
  obtain ⟨-, hc⟩ := Option.ite_none_right_eq_some.mp hc
  obtain rfl := Option.some.inj hc
  have hop : op = true := h.op p op b hp
  have hquiet := h.no_commit (.inr (h.outstanding_pos (p := p) (by rw [hp]; exact hop)))
  apply h.move rfl
  · intro op b hx
    cases hx
  · intro hx
    cases hx
  · exact fun q _ hq => absurd hq (by simp [hquiet q])
  · rw [hp]
    rfl
  · intro b' hb'
    change (update s.buf b { s.buf b with dirty := true } b').dirty = true at hb'
    change ∃ i, (absorb s.lh (s.buf b).blockno)[i]? =
      some (update s.buf b { s.buf b with dirty := true } b').blockno ∧ _
    have hmem : (update s.buf b { s.buf b with dirty := true } b').blockno ∈ absorb s.lh
      (s.buf b).blockno := by
      by_cases hbb : b' = b
      · subst hbb
        rw [update_self, absorb]
        split
        · assumption
        · simp
      · rw [update_of_ne hbb] at hb' ⊢
        obtain ⟨i, hi, -⟩ := h.dirty b' hb'
        have := List.mem_of_getElem? hi
        rw [absorb]
        split
        · exact this
        · exact List.mem_append_left _ this
    obtain ⟨i, hi⟩ := List.getElem?_of_mem hmem
    exact ⟨i, hi, trivial, fun q _ => Pc.due_of_not_commits (hquiet q) i _⟩

theorem beginOp (h : Logged s) (hp : s.pc p = .call false) (hst : s.beginOp p = some t) : Logged t := by
  simp only [State.beginOp, Option.ite_none_left_eq_some, Option.some.injEq, Bool.not_eq_true] at hst
  obtain ⟨hcom, -, rfl⟩ := hst
  have hquiet := h.no_commit (.inl hcom)
  apply h.move rfl
  · intro op b hx
    cases hx
  · intro hx
    cases hx
  · exact fun q _ hq => absurd hq (by simp [hquiet q])
  · rw [hp]
    rfl
  · intro b hb
    obtain ⟨i, hi, hdue⟩ := h.dirty b hb
    exact ⟨i, hi, trivial, fun q _ => hdue q⟩

theorem endOp (h : Logged s) (hp : s.pc p = .call true) (hst : s.endOp p = some t) : Logged t := by
  simp only [State.endOp, Option.ite_none_left_eq_some, Bool.not_eq_true] at hst
  obtain ⟨hcom, hst⟩ := hst
  have hquiet := h.no_commit (.inl hcom)
  have hpos := h.outstanding_pos (p := p) (by rw [hp]; rfl)
  split at hst
  · rename_i hlast
    obtain rfl := Option.some.inj hst
    apply h.move rfl
    · intro op b hx
      cases hx
    · exact fun _ => ⟨⟨rfl, hlast⟩, fun q _ => hquiet q⟩
    · exact fun q _ hq => absurd hq (by simp [hquiet q])
    · simp only [hp, Pc.inOp, State.become]
      simp
      omega
    · intro b hb
      obtain ⟨i, hi, hdue⟩ := h.dirty b hb
      have hne : s.lh ≠ [] := by
        rintro hnil
        rw [hnil] at hi
        cases hi
      refine ⟨i, hi, .inl ?_, fun q _ => hdue q⟩
      rw [if_neg hne]
      trivial
  · obtain rfl := Option.some.inj hst
    apply h.move rfl
    · intro op b hx
      cases hx
    · intro hx
      cases hx
    · exact fun q _ hq => absurd hq (by simp [hquiet q])
    · simp only [hp, Pc.inOp, State.become]
      simp
      omega
    · intro b hb
      obtain ⟨i, hi, hdue⟩ := h.dirty b hb
      exact ⟨i, hi, trivial, fun q _ => hdue q⟩

omit [DecidableEq P] in
theorem boot (d : Disk) : Logged (boot P d) where
  occ := by simp [Bio.boot, Pc.inOp]
  commit := fun _ h => nomatch h
  one := fun _ _ h => nomatch h
  op := fun _ _ _ h => nomatch h
  dirty := fun _ h => nomatch h

end Logged

def insideOp (s : State P) : Act P → Bool
  | .logWrite p _ => (s.pc p).inOp
  | _ => true

theorem Logged.call (h : Logged s) {op : Bool} (hp : s.pc a.proc = .call op) (hop : insideOp s a = true)
    (hst : s.call g disksize a.proc op a = some t) : Logged t := by
  cases a with
  | bread p dev blockno => exact h.quiet (.of_bread hst)
  | modify p b data => exact h.quiet (.of_cacheStep hst rfl)
  | bwrite p b => exact h.quiet (.of_cacheStep hst rfl)
  | brelse p b => exact h.quiet (.of_cacheStep hst rfl)
  | logWrite p b =>
      have hp : s.pc p = .call op := hp
      have hin : (s.pc p).inOp = true := hop
      simp only [State.call, Option.ite_none_right_eq_some, Option.ite_none_left_eq_some, Option.some.injEq] at hst
      obtain ⟨-, -, -, rfl⟩ := hst
      apply h.move rfl
      · rintro op' b' ⟨⟩
        rwa [hp] at hin
      · intro hx
        cases hx
      · exact fun q _ hq => h.commit q hq
      · change _ + (if (s.pc p).inOp = true then 1 else 0) = _
        rw [hp]
        rfl
      · intro b hb
        obtain ⟨i, hi, hdue⟩ := h.dirty b hb
        exact ⟨i, hi, trivial, fun q _ => hdue q⟩
  | beginOp p =>
      obtain ⟨⟨-, rfl⟩, hbegin⟩ := Option.ite_none_right_eq_some.mp hst
      exact h.beginOp hp hbegin
  | endOp p =>
      obtain ⟨⟨-, rfl⟩, hend⟩ := Option.ite_none_right_eq_some.mp hst
      exact h.endOp hp hend
  | acquire | load | append | drop | commit => cases hst

theorem logged_step (h : Logged s) (hok : s.toCache.Ok) (hop : insideOp s a = true)
    (hst : step g disksize s a = some t) : Logged t := by
  obtain ⟨-, hst⟩ := Option.ite_none_left_eq_some.mp hst
  split at hst
  · exact h.quiet (.of_cacheStep hst rfl)
  · exact h.quiet (.of_cacheStep hst rfl)
  · exact h.quiet (.of_cacheStep hst rfl)
  · rename_i p op b hp
    obtain ⟨u, hu, rfl⟩ := Option.map_eq_some_iff.mp hst
    exact h.append hp hu
  · rename_i p st cmd todo hp
    obtain ⟨u, hu, rfl⟩ := Option.map_eq_some_iff.mp hst
    exact h.exec hok hp hu
  · rename_i p st hp
    obtain ⟨-, hst⟩ := Option.ite_none_right_eq_some.mp hst
    exact Option.some.inj hst ▸ h.advance hp
  · rename_i hp
    exact h.call hp hop hst
  · cases hst

omit [DecidableEq P] in
theorem card_dirty_le (h : Logged s) (hok : s.toCache.Ok) : #{b | (s.buf b).dirty = true} ≤ s.lh.length := by
  refine (Finset.card_le_card_of_injOn (t := s.lh.toFinset) (fun b => (s.buf b).blockno) ?_ ?_).trans
    (List.toFinset_card_le s.lh)
  · intro b hb
    obtain ⟨i, hi, -⟩ := h.dirty b (Finset.mem_filter.mp hb).2
    exact List.mem_toFinset.mpr (List.mem_of_getElem? hi)
  · intro b hb b' hb' hn
    exact hok.eq_of_valid (hok.dirty b' (Finset.mem_filter.mp hb').2) (hok.dirty b (Finset.mem_filter.mp hb).2) hn

omit [DecidableEq P] [Fintype P] in
theorem card_used_le (c : Cache P) : #{b | 0 < c.refcnt b} ≤ ∑ b, c.refcnt b := by
  rw [Finset.card_filter]
  apply Finset.sum_le_sum
  intro b _
  split
  · assumption
  · exact Nat.zero_le _

theorem bget_eq_none (h : Logged s) (hok : s.toCache.Ok) (hn : s.bget p dev blockno = none) :
    (∀ b, ¬ s.Key b dev blockno) ∧ nbuf ≤ ∑ b, s.refcnt b + s.lh.length := by
  cases hc : s.cached dev blockno with
  | some b =>
      simp only [Cache.bget, hc] at hn
      cases hn
  | none =>
      refine ⟨hok.cached_eq_none hc, ?_⟩
      cases hu : s.unused with
      | some b =>
          simp only [Cache.bget, hc, hu] at hn
          cases hn
      | none =>
          have hcover : (Finset.univ : Finset BufId) =
              Finset.univ.filter (fun b => 0 < s.refcnt b) ∪ Finset.univ.filter
                (fun b => (s.buf b).dirty = true) := by
            ext b
            simpa using hok.unused_eq_none hu b
          calc nbuf = #(Finset.univ : Finset BufId) := (Finset.card_fin nbuf).symm
            _ ≤ #{b | 0 < s.refcnt b} + #{b | (s.buf b).dirty = true} :=
                (congrArg Finset.card hcover).le.trans (Finset.card_union_le _ _)
            _ ≤ ∑ b, s.refcnt b + s.lh.length := Nat.add_le_add (card_used_le s.toCache) (card_dirty_le h hok)

def wants (s : State P) : Act P → Option (UInt32 × UInt32)
  | .bread _ dev blockno => some (dev, blockno)
  | .commit p =>
      match s.pc p with
      | .commit _ (.bread blockno :: _) => some (1, blockno)
      | _ => none
  | _ => none

/-- The block is in the cache, or the references that `bread` gave out and that `brelse` has not taken back,
together with the blocks in the log, are fewer than the buffers. -/
def Ample (s : State P) (a : Act P) : Prop :=
  ∀ k ∈ wants s a, (∃ b, s.Key b k.1 k.2) ∨ ∑ b, s.refcnt b + s.lh.length < nbuf

omit [DecidableEq P] [Fintype P] in
theorem ample_iff {a : Act P} : Ample s a ↔ (wants s a).all (fun k =>
    (List.finRange nbuf).any (fun b => s.Key b k.1 k.2) ||
      decide (((List.finRange nbuf).map s.refcnt).sum + s.lh.length < nbuf)) = true := by
  simp only [Ample, Fin.sum_univ_def, Option.all_eq_true, Bool.or_eq_true, List.any_eq_true, List.mem_finRange,
    true_and, decide_eq_true_eq, Option.mem_def]

/-- Over the list of the buffers, since the kernel evaluates it. -/
instance (s : State P) (a : Act P) : Decidable (Ample s a) := decidable_of_iff' _ ample_iff

theorem not_panicked_of_bread (h : Logged s) (hok : s.toCache.Ok) (hp : s.panicked = false)
    (hroom : (∃ b, s.Key b dev blockno) ∨ ∑ b, s.refcnt b + s.lh.length < nbuf)
    (hst : s.bread p dev blockno = some t) :
    t.panicked = false := by
  obtain ⟨-, ⟨-, ht⟩ | ⟨hn, -⟩⟩ := State.bread_eq_some hst
  · rw [ht]
    exact hp
  · obtain ⟨hkey, hfull⟩ := bget_eq_none h hok hn
    rcases hroom with ⟨b, hb⟩ | hlt
    · exact absurd hb (hkey b)
    · omega

omit [Fintype P] in
theorem State.cacheStep_panicked {o : Op P} (h : s.cacheStep disksize o = some t) : t.panicked = s.panicked := by
  rw [(State.cacheStep_eq_some h).2]

omit [Fintype P] in
theorem State.advance_panicked (st : Stage) : (s.advance g p st).panicked = s.panicked := by
  cases st with
  | writeLog tail | install tail =>
      rw [State.advance]
      split
      · rfl
      · rfl
  | writeHead | clear | release => rfl

theorem not_panicked_exec (h : Logged s) (hok : s.toCache.Ok) (hp : s.panicked = false) {cmd : Cmd}
    (hroom : ∀ blockno, cmd = .bread blockno → (∃ b, s.Key b 1 blockno) ∨ ∑ b, s.refcnt b + s.lh.length < nbuf)
    (hst : s.exec disksize p cmd = some t) : t.panicked = false := by
  cases cmd with
  | bread blockno => exact not_panicked_of_bread h hok hp (hroom blockno rfl) hst
  | memmove dst src =>
      obtain ⟨b, -, hst⟩ := Option.bind_eq_some_iff.mp hst
      obtain ⟨b', -, hst⟩ := Option.bind_eq_some_iff.mp hst
      exact (State.cacheStep_panicked hst).trans hp
  | putHead blockno | bwrite blockno | brelse blockno =>
      obtain ⟨b, -, hst⟩ := Option.bind_eq_some_iff.mp hst
      exact (State.cacheStep_panicked hst).trans hp

theorem not_panicked_call (h : Logged s) (hok : s.toCache.Ok) (hp : s.panicked = false) (hroom : Ample s a)
    {op : Bool}
    (hst : s.call g disksize p op a = some t) : t.panicked = false := by
  cases a with
  | bread q dev blockno => exact not_panicked_of_bread h hok hp (hroom _ rfl) hst
  | modify q b data => exact (State.cacheStep_panicked hst).trans hp
  | bwrite q b => exact (State.cacheStep_panicked hst).trans hp
  | brelse q b => exact (State.cacheStep_panicked hst).trans hp
  | logWrite q b =>
      simp only [State.call, Option.ite_none_right_eq_some, Option.ite_none_left_eq_some, Option.some.injEq] at hst
      obtain ⟨-, -, -, rfl⟩ := hst
      exact hp
  | beginOp q =>
      simp only [State.call, State.beginOp, Option.ite_none_right_eq_some, Option.ite_none_left_eq_some,
        Option.some.injEq] at hst
      obtain ⟨-, -, -, rfl⟩ := hst
      exact hp
  | endOp q =>
      simp only [State.call, State.endOp, Option.ite_none_right_eq_some, Option.ite_none_left_eq_some] at hst
      obtain ⟨-, -, hst⟩ := hst
      split at hst
      · exact Option.some.inj hst ▸ hp
      · exact Option.some.inj hst ▸ hp
  | acquire | load | append | drop | commit => cases hst

theorem not_panicked_step (h : Logged s) (hok : s.toCache.Ok) (hroom : Ample s a)
    (hst : step g disksize s a = some t) :
    t.panicked = false := by
  obtain ⟨hp, hst⟩ := Option.ite_none_left_eq_some.mp hst
  rw [Bool.not_eq_true] at hp
  split at hst
  · exact (State.cacheStep_panicked hst).trans hp
  · exact (State.cacheStep_panicked hst).trans hp
  · exact (State.cacheStep_panicked hst).trans hp
  · obtain ⟨u, hu, rfl⟩ := Option.map_eq_some_iff.mp hst
    exact (State.cacheStep_panicked hu).trans hp
  · rename_i p st cmd todo _ hpc
    obtain ⟨u, hu, rfl⟩ := Option.map_eq_some_iff.mp hst
    have hpc : s.pc p = .commit st (cmd :: todo) := hpc
    have hu : u.panicked = false := by
      refine not_panicked_exec h hok hp ?_ hu
      rintro blockno rfl
      exact hroom (1, blockno) (by simp [wants, hpc])
    exact hu
  · obtain ⟨-, hst⟩ := Option.ite_none_right_eq_some.mp hst
    exact Option.some.inj hst ▸ (State.advance_panicked _).trans hp
  · exact not_panicked_call h hok hp hroom hst
  · cases hst

/-- `bget` finds a buffer in every run in which `log_write` is called inside operations and in which, whenever
`bread` is called for a block that is not in the cache, references and blocks in the log are together fewer than
the buffers. -/
theorem bget_finds_buffer {d : Disk} {as : List (Act P)}
    (hok : Runs.Along (step g disksize) (fun s a => insideOp s a = true ∧ Ample s a) (boot P d) as)
    (hrun : Runs.run (step g disksize) (boot P d) as = some t) : t.panicked = false := by
  have h : t.toCache.Ok ∧ Logged t ∧ t.panicked = false := by
    refine Runs.run_invariant (fun u => u.toCache.Ok ∧ Logged u ∧ u.panicked = false) ?_
      ⟨Cache.Ok.binit d, Logged.boot d, rfl⟩ hok hrun
    rintro s a u ⟨hc, hl, -⟩ ⟨hop, hroom⟩ hst
    exact ⟨cacheOk_step hc hst, logged_step hl hc hop hst, not_panicked_step hl hc hroom hst⟩
  exact h.2.2

theorem bget_finds_buffer_handOverRun :
    ∃ s, Runs.run (step ⟨2, 30⟩ 1000) (boot (Fin 2) fun _ _ => 0) handOverRun = some s ∧ s.lh = [40] ∧
      s.panicked = false := by
  have h : (Runs.run (step ⟨2, 30⟩ 1000) (boot (Fin 2) fun _ _ => 0) handOverRun).any (fun s => s.lh == [40]) =
    true := by
    decide +kernel
  obtain ⟨s, hs, hend⟩ := (Option.any_eq_true _ _).mp h
  refine ⟨s, hs, by simpa using hend, bget_finds_buffer ?_ hs⟩
  exact Runs.along_of_alongB (fun s a => decide (insideOp s a = true ∧ Ample s a))
    (fun _ _ h => of_decide_eq_true h)
    (by decide +kernel)

/-- `bread` in `readi` up to the call of `iderw`, in which the process sleeps until the disk has read the block. -/
def readActs (p : Fin nproc) (blockno : UInt32) : List (Act (Fin nproc)) := [.bread p 1 blockno, .acquire p]

/-- Thirty processes sleep in `iderw`, each with the buffer of its own block, and another one begins to read. -/
def readersRun : List (Act (Fin nproc)) :=
  (List.range 30).flatMap (fun i => readActs (Fin.ofNat nproc i) (UInt32.ofNat (100 + i))) ++ [.bread 30 1 130]

theorem readers_exhaust_buffers :
    ∃ s, Runs.run (step ⟨2, 30⟩ 1000) (boot (Fin nproc) fun _ _ => 0) readersRun = some s ∧ s.panicked = true ∧
      s.lh = [] ∧ ∀ p, s.pc p = .call false := by
  have h : (Runs.run (step ⟨2, 30⟩ 1000) (boot (Fin nproc) fun _ _ => 0) readersRun).any (fun s =>
      s.panicked && s.lh.isEmpty && (List.finRange nproc).all fun p => decide (s.pc p = .call false)) = true := by
    decide +kernel
  obtain ⟨s, hs, hend⟩ := (Option.any_eq_true _ _).mp h
  simp only [Bool.and_eq_true, List.isEmpty_iff, List.all_eq_true, decide_eq_true_eq] at hend
  exact ⟨s, hs, hend.1.1, hend.1.2, fun p => hend.2 p (List.mem_finRange p)⟩

end Xv6.Bio
