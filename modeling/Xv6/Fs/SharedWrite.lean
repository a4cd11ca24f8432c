import Xv6.Fs.BlockOwnership
import Mathlib

namespace Xv6.Fs.SharedWrite

open Lib Lib.Exec

structure Call where
  addr : Nat → UInt8
  n : Int32

def Call.len (c : Call) : Nat := c.n.toInt.toNat

def Call.data (c : Call) : List UInt8 := (List.range c.len).map c.addr

def maxChunk : Nat := (logsize - 1 - 1 - 2) / 2 * 512

/-- Where a process is in `filewrite`, with the values of `i`, `n1` and `r`. -/
inductive Pc
  | idle
  /-- At the condition of the `while`. -/
  | loop (c : Call) (i : Nat)
  /-- After `begin_op`. -/
  | begun (c : Call) (i n1 : Nat)
  | locked (c : Call) (i n1 : Nat)
  /-- After `writei`, before the update of `f->off`. -/
  | wrote (c : Call) (i n1 : Nat) (r : Int)
  | advanced (c : Call) (i n1 : Nat) (r : Int)
  | unlocked (c : Call) (i n1 : Nat) (r : Int)
  /-- After the loop. -/
  | left (c : Call) (i : Nat)

structure Chunk (P : Type) where
  proc : P
  off : Nat
  bytes : List UInt8

/-- One `struct file`, its inode's lock, and the processes that share it. No step depends on the last two
fields: they record the calls made and the chunks written so far. -/
structure State (P : Type) where
  fs : Fs.State
  off : UInt32
  lock : Option P
  pc : P → Pc
  calls : List (P × Call)
  writes : List (Chunk P)

inductive Act (P : Type)
  | call (p : P) (c : Call)
  | test (p : P)
  | ilock (p : P)
  | writei (p : P)
  | advance (p : P)
  | iunlock (p : P)
  | endOp (p : P)
  | ret (p : P)
  /-- Anything that another part of the kernel does to the file system. -/
  | other (fs : Fs.State)

variable {P : Type} [DecidableEq P]

def State.goto (s : State P) (p : P) (pc : Pc) : State P := { s with pc := Function.update s.pc p pc }

/-- What `filewrite` returns. -/
def result (c : Call) (i : Nat) : Int := if (i : Int) = c.n.toInt then c.n.toInt else -1

section Step

variable [Devsw] (sb : Layout) (ip : Fin ninode)

def step (s : State P) : Act P → Option (State P)
  | .call p c =>
      match s.pc p with
      | .idle => some { s.goto p (.loop c 0) with calls := s.calls ++ [(p, c)] }
      | _ => none
  | .test p =>
      match s.pc p with
      | .loop c i =>
          if (i : Int) < c.n.toInt then some (s.goto p (.begun c i (min (c.len - i) maxChunk)))
            else some (s.goto p (.left c i))
      | _ => none
  | .ilock p =>
      match s.pc p, s.lock with
      | .begun c i n1, none =>
          match Fs.ilock sb ip s.fs with
          | .ok (_, fs) => some { s.goto p (.locked c i n1) with fs, lock := some p }
          | .error _ => none
      | _, _ => none
  | .writei p =>
      match s.pc p with
      | .locked c i n1 =>
          match Fs.writei sb ip (fun k => c.addr (i + k)) s.off (UInt32.ofNat n1) s.fs with
          | .ok (r, fs) =>
              let chunk := ⟨p, s.off.toNat, (List.range n1).map fun k => c.addr (i + k)⟩
              some { s.goto p (.wrote c i n1 r) with fs, writes := if r > 0 then s.writes ++ [chunk] else s.writes }
          | .error _ => none
      | _ => none
  | .advance p =>
      match s.pc p with
      | .wrote c i n1 r =>
          some { s.goto p (.advanced c i n1 r) with off := if r > 0 then s.off + UInt32.ofNat r.toNat else s.off }
      | _ => none
  | .iunlock p =>
      match s.pc p with
      | .advanced c i n1 r =>
          match Fs.iunlock ip s.fs with
          | .ok (_, fs) => some { s.goto p (.unlocked c i n1 r) with fs, lock := none }
          | .error _ => none
      | _ => none
  | .endOp p =>
      match s.pc p with
      | .unlocked c i n1 r =>
          if r < 0 then some (s.goto p (.left c i))
          -- otherwise the panic "short filewrite"
          else if r = n1 then some (s.goto p (.loop c (i + r.toNat)))
          else none
      | _ => none
  | .ret p =>
      match s.pc p with
      | .left _ _ => some (s.goto p .idle)
      | _ => none
  | .other fs => some { s with fs }

end Step

def State.node (sb : Layout) (ip : Fin ninode) (s : State P) : Dinode := dinode sb s.fs.disk (s.fs.icache ip).inum

structure Elsewhere (sb : Layout) (ip : Fin ninode) (s t : Fs.State) : Prop where
  consistent : Consistent sb t
  ref : 0 < (t.icache ip).ref
  inum : (t.icache ip).inum = (s.icache ip).inum
  valid : (s.icache ip).valid = true → (t.icache ip).valid = true
  node : dinode sb t.disk (s.icache ip).inum = dinode sb s.disk (s.icache ip).inum
  same : SameFile s.disk t.disk (dinode sb s.disk (s.icache ip).inum)

def Fine (sb : Layout) (ip : Fin ninode) (s : State P) : Act P → Prop
  | .ret p => ∀ c i, s.pc p = .left c i → result c i ≠ -1
  | .other fs => Elsewhere sb ip s.fs fs
  | _ => True

structure Start (sb : Layout) (ip : Fin ninode) (s : State P) : Prop where
  consistent : Consistent sb s.fs
  ref : 0 < (s.fs.icache ip).ref
  type : (s.node sb ip).type = tFile
  /-- `sys_open` starts at 0, and neither `fileread` nor `filewrite` moves past the end of the file. -/
  off : s.off ≤ (s.node sb ip).size
  lock : s.lock = none
  idle : ∀ p, s.pc p = .idle
  calls : s.calls = []
  writes : s.writes = []

def Consecutive : Nat → List (Chunk P) → Prop
  | _, [] => True
  | o, w :: ws => w.off = o ∧ Consecutive (o + w.bytes.length) ws

def overlay (o : Nat) (bs : List UInt8) (f : Nat → UInt8) (q : Nat) : UInt8 :=
  if o ≤ q ∧ q < o + bs.length then bs.getD (q - o) 0 else f q

def written (ws : List (Chunk P)) : List UInt8 := ws.flatMap Chunk.bytes

namespace Pc

def holds : Pc → Bool
  | .locked .. | .wrote .. | .advanced .. => true
  | _ => false

def pending : Pc → Nat
  | .wrote _ _ _ r => r.toNat
  | _ => 0

def rest : Pc → List UInt8
  | .idle => []
  | .loop c i | .begun c i _ | .locked c i _ | .left c i => c.data.drop i
  | .wrote c i _ r | .advanced c i _ r | .unlocked c i _ r => c.data.drop (i + r.toNat)

def current : Pc → Option Call
  | .idle => none
  | .loop c _ | .begun c _ _ | .locked c _ _ | .left c _ | .wrote c _ _ _ | .advanced c _ _ _ | .unlocked c _ _ _ =>
      some c

def Ok : Pc → Prop
  | .idle => True
  | .loop c i | .left c i => i ≤ c.len
  | .begun c i n1 | .locked c i n1 => i + n1 ≤ c.len ∧ 0 < n1 ∧ n1 ≤ maxChunk
  | .wrote c i n1 r | .advanced c i n1 r | .unlocked c i n1 r => i + n1 ≤ c.len ∧ (r = n1 ∨ r = -1)

end Pc

/-- What holds of the file after the chunks of `ws` have been written to it, of which `k` bytes are not yet
counted in the offset. -/
structure Appended (sb : Layout) (ip : Fin ninode) (a : State P) (fs : Fs.State) (off : UInt32)
    (ws : List (Chunk P)) (k : Nat) :
    Prop where
  consistent : Consistent sb fs
  ref : 0 < (fs.icache ip).ref
  inum : (fs.icache ip).inum = (a.fs.icache ip).inum
  type : (dinode sb fs.disk (a.fs.icache ip).inum).type = tFile
  size : (dinode sb fs.disk (a.fs.icache ip).inum).size.toNat =
    max (a.node sb ip).size.toNat (a.off.toNat + (written ws).length)
  bytes : ∀ q, q < (dinode sb fs.disk (a.fs.icache ip).inum).size.toNat →
    fileByte fs.disk (dinode sb fs.disk (a.fs.icache ip).inum) q =
      overlay a.off.toNat (written ws) (fileByte a.fs.disk (a.node sb ip)) q
  off : off.toNat + k = a.off.toNat + (written ws).length
  consecutive : Consecutive a.off.toNat ws

structure Inv (sb : Layout) (ip : Fin ninode) (a s : State P) : Prop where
  file : Appended sb ip a s.fs s.off s.writes (s.lock.elim 0 fun p => (s.pc p).pending)
  valid : s.lock ≠ none → (s.fs.icache ip).valid = true
  holds : ∀ p, s.lock = some p ↔ (s.pc p).holds = true
  pc : ∀ p, (s.pc p).Ok
  own : ∀ p, written (s.writes.filter (·.proc = p)) ++ (s.pc p).rest =
    (s.calls.filter (·.1 = p)).flatMap fun x => x.2.data
  nonneg : ∀ x ∈ s.calls, 0 ≤ x.2.n.toInt ∨ (s.pc x.1).current = some x.2

section Chunks

omit [DecidableEq P]

@[simp] theorem written_nil : written ([] : List (Chunk P)) = [] := rfl

@[simp] theorem written_cons (w : Chunk P) (ws : List (Chunk P)) : written (w :: ws) = w.bytes ++ written ws := rfl

@[simp] theorem written_append (ws ws' : List (Chunk P)) : written (ws ++ ws') = written ws ++ written ws' :=
  List.flatMap_append

theorem Consecutive.append {o : Nat} {ws : List (Chunk P)} {w : Chunk P} (h : Consecutive o ws)
    (hw : w.off = o + (written ws).length) : Consecutive o (ws ++ [w]) := by
  induction ws generalizing o with
  | nil => exact ⟨hw, trivial⟩
  | cons v vs ih =>
      refine ⟨h.1, ih h.2 ?_⟩
      rw [hw, written_cons, List.length_append, Nat.add_assoc]

theorem Consecutive.le_off {o : Nat} {ws : List (Chunk P)} (h : Consecutive o ws) {w : Chunk P} (hw : w ∈ ws) :
    o ≤ w.off := by
  induction ws generalizing o with
  | nil => cases hw
  | cons v vs ih =>
      rcases List.mem_cons.mp hw with rfl | hw
      · exact h.1.ge
      · exact (Nat.le_add_right _ _).trans (ih h.2 hw)

theorem Consecutive.pairwise {o : Nat} {ws : List (Chunk P)} (h : Consecutive o ws) :
    ws.Pairwise fun v w => v.off + v.bytes.length ≤ w.off := by
  induction ws generalizing o with
  | nil => exact .nil
  | cons v vs ih =>
      refine .cons (fun w hw => ?_) (ih h.2)
      rw [h.1]
      exact h.2.le_off hw

theorem Consecutive.end_le {o : Nat} {ws : List (Chunk P)} (h : Consecutive o ws) {w : Chunk P} (hw : w ∈ ws) :
    w.off + w.bytes.length ≤ o + (written ws).length := by
  induction ws generalizing o with
  | nil => cases hw
  | cons v vs ih =>
      rw [written_cons, List.length_append, ← Nat.add_assoc]
      rcases List.mem_cons.mp hw with rfl | hw
      · rw [h.1]
        exact Nat.le_add_right _ _
      · exact ih h.2 hw

theorem Consecutive.overlay {o : Nat} {ws : List (Chunk P)} (h : Consecutive o ws) {w : Chunk P} (hw : w ∈ ws)
    (f : Nat → UInt8) {k : Nat} (hk : k < w.bytes.length) : overlay o (written ws) f (w.off + k) = w.bytes[k] := by
  induction ws generalizing o with
  | nil => cases hw
  | cons v vs ih =>
      rcases List.mem_cons.mp hw with rfl | hw
      · have hlt : k < (w.bytes ++ written vs).length := by
          rw [List.length_append]
          omega
        rw [h.1, SharedWrite.overlay, written_cons, if_pos ⟨by omega, by omega⟩, Nat.add_sub_cancel_left,
          List.getD_append _ _ _ _ hk, List.getD_eq_getElem _ _ hk]
      · have hle := h.2.le_off hw
        rw [← ih h.2 hw]
        simp only [SharedWrite.overlay, written_cons, List.length_append]
        by_cases hlt : w.off + k < o + v.bytes.length + (written vs).length
        · rw [if_pos ⟨by omega, by omega⟩, if_pos ⟨by omega, hlt⟩, List.getD_append_right _ _ _ _ (by omega),
            Nat.sub_sub]
        · rw [if_neg (by omega), if_neg (by omega)]

end Chunks

theorem overlay_append (o : Nat) (bs cs : List UInt8) (f : Nat → UInt8) :
    overlay (o + bs.length) cs (overlay o bs f) = overlay o (bs ++ cs) f := by
  funext q
  simp only [overlay, List.length_append]
  by_cases hc : o + bs.length ≤ q ∧ q < o + bs.length + cs.length
  · rw [if_pos hc, if_pos (by omega), List.getD_append_right _ _ _ _ (by omega), Nat.sub_sub]
  · rw [if_neg hc]
    by_cases hb : o ≤ q ∧ q < o + bs.length
    · rw [if_pos hb, if_pos (by omega), List.getD_append _ _ _ _ (by omega)]
    · rw [if_neg hb, if_neg (by omega)]

theorem overlay_range (o n : Nat) (src f : Nat → UInt8) (q : Nat) :
    overlay o ((List.range n).map src) f q = if o ≤ q ∧ q < o + n then src (q - o) else f q := by
  simp only [overlay, List.length_map, List.length_range]
  by_cases hq : o ≤ q ∧ q < o + n
  · rw [if_pos hq, if_pos hq, List.getD_eq_getElem _ _ (by simp; omega), List.getElem_map, List.getElem_range]
  · rw [if_neg hq, if_neg hq]

section Preserved

variable {sb : Layout} {ip : Fin ninode} {a s t : State P} {p : P} {pc : Pc} {c : Call} {i n1 : Nat} {r : Int}

theorem goto_congr {β : Type} (f : Pc → β) (h : f pc = f (s.pc p)) (q : P) :
    f ((s.goto p pc).pc q) = f (s.pc q) := by
  by_cases hq : q = p
  · subst hq
    simpa [State.goto] using h
  · simp [State.goto, hq]

theorem goto_pc_ok (h : ∀ q, (s.pc q).Ok) (hok : pc.Ok) (q : P) : ((s.goto p pc).pc q).Ok := by
  by_cases hq : q = p
  · subst hq
    simpa [State.goto] using hok
  · simpa [State.goto, hq] using h q

theorem Inv.lock_eq_none (h : Inv sb ip a s) (hl : s.lock = none) (q : P) : (s.pc q).holds = false := by
  by_contra hq
  have := (h.holds q).mpr (by simpa using hq)
  rw [hl] at this
  cases this

theorem Call.length_data (c : Call) : c.data.length = c.len := by
  rw [Call.data, List.length_map, List.length_range]

theorem Inv.move (h : Inv sb ip a s) (cs : List (P × Call)) (hok : pc.Ok) (hholds : pc.holds = (s.pc p).holds)
    (hpend : pc.pending = (s.pc p).pending)
    (hown : ∀ q, written (s.writes.filter (·.proc = q)) ++ ((s.goto p pc).pc q).rest =
      (cs.filter (·.1 = q)).flatMap fun x => x.2.data)
    (hnonneg : ∀ x ∈ cs, 0 ≤ x.2.n.toInt ∨ ((s.goto p pc).pc x.1).current = some x.2) :
    Inv sb ip a { s.goto p pc with calls := cs } where
  file := by
    have hsame : (s.lock.elim 0 fun q => ((s.goto p pc).pc q).pending) = s.lock.elim 0 fun q => (s.pc q).pending :=
      congrArg _ (funext (goto_congr Pc.pending hpend))
    have := h.file
    rwa [← hsame] at this
  valid := h.valid
  holds q := (h.holds q).trans (by rw [← goto_congr Pc.holds hholds])
  pc := goto_pc_ok h.pc hok
  own := hown
  nonneg := hnonneg

theorem Inv.goto (h : Inv sb ip a s) (hok : pc.Ok) (hholds : pc.holds = (s.pc p).holds)
    (hpend : pc.pending = (s.pc p).pending) (hrest : pc.rest = (s.pc p).rest)
    (hcur : ∀ c, (s.pc p).current = some c → 0 ≤ c.n.toInt ∨ pc.current = some c) : Inv sb ip a (s.goto p pc) := by
  apply h.move s.calls hok hholds hpend
  · intro q
    rw [goto_congr Pc.rest hrest]
    exact h.own q
  · intro x hx
    rcases h.nonneg x hx with hn | hn
    · exact .inl hn
    · by_cases hq : x.1 = p
      · subst hq
        simpa [State.goto] using hcur x.2 hn
      · simpa [State.goto, hq] using Or.inr hn

theorem current_goto {x : P × Call} (hcur : pc.current = (s.pc p).current)
    (h : 0 ≤ x.2.n.toInt ∨ (s.pc x.1).current = some x.2) :
    0 ≤ x.2.n.toInt ∨ ((s.goto p pc).pc x.1).current = some x.2 := by
  rwa [goto_congr Pc.current hcur]

theorem inv_call (h : Inv sb ip a s) (hpc : s.pc p = .idle) :
    Inv sb ip a { s.goto p (.loop c 0) with calls := s.calls ++ [(p, c)] } := by
  apply h.move _ (Nat.zero_le _) (by rw [hpc]; rfl) (by rw [hpc]; rfl)
  · intro q
    have hown := h.own q
    by_cases hq : q = p
    · subst hq
      rw [hpc] at hown
      simpa [State.goto, Pc.rest, List.filter_append] using hown
    · simpa [State.goto, hq, List.filter_append, Ne.symm hq] using hown
  · intro x hx
    rcases List.mem_append.mp hx with hx | hx
    · have hn := h.nonneg x hx
      by_cases hq : x.1 = p
      · rw [hq, hpc] at hn
        exact .inl (hn.resolve_right nofun)
      · simpa [State.goto, hq] using hn
    · obtain rfl := List.mem_singleton.mp hx
      exact .inr (by simp [State.goto, Pc.current])

theorem inv_test_more (h : Inv sb ip a s) (hpc : s.pc p = .loop c i) (hi : (i : Int) < c.n.toInt) :
    Inv sb ip a (s.goto p (.begun c i (min (c.len - i) maxChunk))) := by
  have hlen : i < c.len := by
    rw [Call.len]
    omega
  apply h.goto _ (by rw [hpc]; rfl) (by rw [hpc]; rfl) (by rw [hpc]; rfl)
  · intro d hd
    rw [hpc] at hd
    exact .inr hd
  · have hmax : 0 < maxChunk := by decide
    refine ⟨?_, ?_, min_le_right ..⟩ <;> omega

theorem inv_test_done (h : Inv sb ip a s) (hpc : s.pc p = .loop c i) : Inv sb ip a (s.goto p (.left c i)) := by
  apply h.goto _ (by rw [hpc]; rfl) (by rw [hpc]; rfl) (by rw [hpc]; rfl)
  · intro d hd
    rw [hpc] at hd
    exact .inr hd
  · have := h.pc p
    rwa [hpc] at this

omit [DecidableEq P] in
theorem Appended.elsewhere {fs fs' : Fs.State} {off : UInt32} {ws : List (Chunk P)} {k : Nat}
    (h : Appended sb ip a fs off ws k) (he : Elsewhere sb ip fs fs') : Appended sb ip a fs' off ws k := by
  have hnode := he.node
  have hsame := he.same
  rw [h.inum] at hnode hsame
  have hlt := h.consistent.cache.inum_lt ip h.ref
  rw [h.inum] at hlt
  refine ⟨he.consistent, he.ref, he.inum.trans h.inum, ?_, ?_, fun q hq => ?_, h.off, h.consecutive⟩
  · rw [hnode, h.type]
  · rw [hnode, h.size]
  · rw [hnode] at hq ⊢
    have hne : (dinode sb fs.disk (a.fs.icache ip).inum).type ≠ 0 := by
      rw [h.type]
      decide
    rw [hsame.fileByte_eq, h.bytes q hq]
    exact (h.consistent.filled _ hlt hne).fileBlock_ne (hq.trans_le (blocks_le_iff.mp le_rfl))

theorem inv_other {fs : Fs.State} (h : Inv sb ip a s) (he : Elsewhere sb ip s.fs fs) : Inv sb ip a { s with fs } :=
  ⟨h.file.elsewhere he, fun hl => he.valid (h.valid hl), h.holds, h.pc, h.own, h.nonneg⟩

theorem elsewhere_ilock {fs fs' : Fs.State} (h : Consistent sb fs) (hr : 0 < (fs.icache ip).ref)
    (ht : (dinode sb fs.disk (fs.icache ip).inum).type ≠ 0) (hlock : Fs.ilock sb ip fs = .ok ((), fs')) :
    Elsewhere sb ip fs fs' ∧ (fs'.icache ip).valid = true := by
  obtain ⟨hcons, hdisk, hic⟩ := (wp_iff.mp (ilock_spec h hr ht)).1 _ _ hlock
  refine ⟨⟨hcons, ?_, ?_, fun _ => ?_, by rw [hdisk], fun _ _ => by rw [hdisk]⟩, ?_⟩ <;> simp [hic, hr]

theorem Inv.setLock (h : Inv sb ip a s) {l : Option P} (hfile : Appended sb ip a s.fs s.off s.writes 0)
    (hvalid : l ≠ none → (s.fs.icache ip).valid = true) (hok : pc.Ok)
    (hpend : pc.pending = 0) (hl : l = if pc.holds then some p else none)
    (hothers : ∀ q, q ≠ p → (s.pc q).holds = false) (hrest : pc.rest = (s.pc p).rest)
    (hcur : pc.current = (s.pc p).current) :
    Inv sb ip a { s.goto p pc with lock := l } where
  file := by
    have hzero : (l.elim 0 fun q => ((s.goto p pc).pc q).pending) = 0 := by
      rw [hl]
      split
      next => simpa [State.goto] using hpend
      next => rfl
    show Appended sb ip a s.fs s.off s.writes (l.elim 0 fun q => ((s.goto p pc).pc q).pending)
    rwa [hzero]
  valid := hvalid
  holds q := by
    by_cases hq : q = p
    · subst hq
      simp [State.goto, hl]
    · simp [State.goto, hq, hl, hothers q hq, Ne.symm hq]
  pc := goto_pc_ok h.pc hok
  own q := by
    show _ ++ ((s.goto p pc).pc q).rest = _
    rw [goto_congr Pc.rest hrest]
    exact h.own q
  nonneg x hx := current_goto hcur (h.nonneg x hx)

theorem inv_ilock {fs : Fs.State} (h : Inv sb ip a s) (hpc : s.pc p = .begun c i n1) (hl : s.lock = none)
    (hlock : Fs.ilock sb ip s.fs = .ok ((), fs)) :
    Inv sb ip a { s.goto p (.locked c i n1) with fs, lock := some p } := by
  have ht : (dinode sb s.fs.disk (s.fs.icache ip).inum).type ≠ 0 := by
    rw [h.file.inum, h.file.type]
    decide
  obtain ⟨he, hv⟩ := elsewhere_ilock h.file.consistent h.file.ref ht hlock
  have hfile := h.file
  rw [hl] at hfile
  refine (inv_other h he).setLock (hfile.elsewhere he) (fun _ => hv) ?_ rfl rfl ?_ (hpc ▸ rfl) (hpc ▸ rfl)
  · have := h.pc p
    rwa [hpc] at this
  · intro q _
    exact h.lock_eq_none hl q

theorem inv_iunlock (h : Inv sb ip a s) (hpc : s.pc p = .advanced c i n1 r) :
    Inv sb ip a { s.goto p (.unlocked c i n1 r) with lock := none } := by
  have hl : s.lock = some p := (h.holds p).mpr (by rw [hpc]; rfl)
  have hfile := h.file
  simp only [hl, Option.elim_some, hpc, Pc.pending] at hfile
  apply h.setLock hfile (fun h => absurd rfl h) _ rfl rfl
  · intro q hq
    by_contra hh
    have := (h.holds q).mpr (by simpa using hh)
    rw [hl, Option.some.injEq] at this
    exact hq this.symm
  · exact hpc ▸ rfl
  · exact hpc ▸ rfl
  · have := h.pc p
    rwa [hpc] at this

theorem inv_endOp_fail (h : Inv sb ip a s) (hpc : s.pc p = .unlocked c i n1 r) (hr : r < 0) :
    Inv sb ip a (s.goto p (.left c i)) := by
  apply h.goto _ (by rw [hpc]; rfl) (by rw [hpc]; rfl)
  · rw [hpc, Pc.rest, Pc.rest, Int.toNat_of_nonpos hr.le, Nat.add_zero]
  · intro d hd
    rw [hpc] at hd
    exact .inr hd
  · have := h.pc p
    rw [hpc] at this
    exact (Nat.le_add_right _ _).trans this.1

theorem inv_endOp (h : Inv sb ip a s) (hpc : s.pc p = .unlocked c i n1 r) (hr : r = n1) :
    Inv sb ip a (s.goto p (.loop c (i + r.toNat))) := by
  apply h.goto _ (by rw [hpc]; rfl) (by rw [hpc]; rfl) (by rw [hpc]; rfl)
  · intro d hd
    rw [hpc] at hd
    exact .inr hd
  · have := h.pc p
    rw [hpc] at this
    rw [hr]
    exact this.1

theorem inv_ret (h : Inv sb ip a s) (hpc : s.pc p = .left c i) (hr : result c i ≠ -1) :
    Inv sb ip a (s.goto p .idle) := by
  have hi : (i : Int) = c.n.toInt := by
    by_contra hne
    exact hr (if_neg hne)
  have hlen : c.len = i := by
    rw [Call.len, ← hi, Int.toNat_natCast]
  refine h.goto trivial (by rw [hpc]; rfl) (by rw [hpc]; rfl) ?_ ?_
  · rw [hpc, Pc.rest, Pc.rest, List.drop_eq_nil_of_le]
    rw [c.length_data, hlen]
  · intro d hd
    rw [hpc] at hd
    obtain rfl := Option.some.inj hd
    exact .inl (by omega)

omit [DecidableEq P] in
theorem Appended.write {fs fs' : Fs.State} {off : UInt32} {ws : List (Chunk P)} {src : Nat → UInt8}
    {n : Nat} {x : Dinode}
    (h : Appended sb ip a fs off ws 0) (hv : (fs.icache ip).valid = true)
    (hw : Written sb ip src off.toNat n fs fs' x) (p : P) :
    Appended sb ip a fs' off (ws ++ [⟨p, off.toNat, (List.range n).map src⟩]) n := by
  have hlt := h.consistent.cache.inum_lt ip h.ref
  have hic : fs'.icache ip = { fs.icache ip with toDinode := x } := by rw [hw.icache, Function.update_self]
  have hold := h.consistent.agree ip h.ref hv
  rw [h.inum] at hlt hold
  have hnew : dinode sb fs'.disk (a.fs.icache ip).inum = x := by
    have := hw.touched.nodes _ hlt
    rwa [h.inum, if_pos rfl] at this
  have hoff := h.off
  have hsize : (fs.icache ip).size.toNat = max (a.node sb ip).size.toNat (a.off.toNat + (written ws).length) := by
    rw [hold, h.size]
  have hxsize := hw.size
  have hlen : (written (ws ++ [⟨p, off.toNat, (List.range n).map src⟩])).length = (written ws).length + n := by simp
  refine ⟨hw.consistent, ?_, ?_, ?_, ?_, fun q hq => ?_, ?_, ?_⟩
  · rw [hic]
    exact h.ref
  · rw [hic]
    exact h.inum
  · rw [hnew, hw.type, hold, h.type]
  · rw [hnew, hxsize, hsize, hlen]
    omega
  · rw [hnew] at hq ⊢
    rw [hxsize] at hq
    have hcap : (fs.icache ip).size.toNat ≤ blocks (fs.icache ip).size.toNat * bsize := blocks_le_iff.mp le_rfl
    rw [hw.bytes q (by omega), ← overlay_range, written_append, ← overlay_append]
    rw [show a.off.toNat + (written ws).length = off.toNat by omega]
    simp only [written_cons, written_nil, List.append_nil]
    by_cases hq' : q < (fs.icache ip).size.toNat
    · have := h.bytes q (by rwa [← hold])
      rw [← hold] at this
      simp only [overlay, this]
    · -- past the old end there is only the new chunk
      rw [overlay_range, overlay_range, if_pos (by omega), if_pos (by omega)]
  · rw [hlen]
    omega
  · exact h.consecutive.append (by omega)

theorem inv_write_fail (h : Inv sb ip a s) (hpc : s.pc p = .locked c i n1) :
    Inv sb ip a (s.goto p (.wrote c i n1 (-1))) := by
  apply h.goto _ (by rw [hpc]; rfl) (by rw [hpc]; rfl) (by rw [hpc]; rfl)
  · intro d hd
    rw [hpc] at hd
    exact .inr hd
  · have := h.pc p
    rw [hpc] at this
    exact ⟨this.1, .inr rfl⟩

theorem chunk_eq (hle : i + n1 ≤ c.len) :
    c.data.drop i = ((List.range n1).map fun k => c.addr (i + k)) ++ c.data.drop (i + n1) := by
  have htake : (c.data.drop i).take n1 = (List.range n1).map fun k => c.addr (i + k) := by
    apply List.ext_getElem
    · simp only [List.length_take, List.length_drop, c.length_data, List.length_map, List.length_range]
      omega
    · intro k _ _
      simp [Call.data]
  rw [← htake, ← List.drop_drop, List.take_append_drop]

theorem inv_write {fs : Fs.State} {x : Dinode} (h : Inv sb ip a s) (hpc : s.pc p = .locked c i n1)
    (hw : Written sb ip (fun k => c.addr (i + k)) s.off.toNat n1 s.fs fs x) :
    Inv sb ip a { s.goto p (.wrote c i n1 n1) with
      fs, writes := s.writes ++ [⟨p, s.off.toNat, (List.range n1).map fun k => c.addr (i + k)⟩] } := by
  have hl : s.lock = some p := (h.holds p).mpr (by rw [hpc]; rfl)
  have hv := h.valid (by rw [hl]; nofun)
  have hok := h.pc p
  rw [hpc] at hok
  have hfile := h.file
  simp only [hl, Option.elim_some, hpc, Pc.pending] at hfile
  refine ⟨?_, fun _ => ?_, fun q => ?_, goto_pc_ok h.pc ⟨hok.1, .inl rfl⟩, fun q => ?_, fun x hx => ?_⟩
  · have := hfile.write hv hw p
    simpa [State.goto, hl, Pc.pending] using this
  · rw [hw.icache, Function.update_self]
    exact hv
  · have hholds : ((s.goto p (.wrote c i n1 n1)).pc q).holds = (s.pc q).holds :=
      goto_congr Pc.holds (by rw [hpc]; rfl) q
    exact (h.holds q).trans (by rw [← hholds])
  · have hown := h.own q
    by_cases hq : q = p
    · subst hq
      rw [hpc, Pc.rest, chunk_eq hok.1] at hown
      simpa [State.goto, Pc.rest, List.filter_append] using hown
    · simpa [State.goto, hq, Ne.symm hq, List.filter_append] using hown
  · exact current_goto (hpc ▸ rfl) (h.nonneg x hx)

omit [DecidableEq P] in
theorem Appended.advance {fs : Fs.State} {off : UInt32} {ws : List (Chunk P)} {k : Nat}
    (h : Appended sb ip a fs off ws k) : Appended sb ip a fs (off + UInt32.ofNat k) ws 0 := by
  have hlt := h.consistent.cache.inum_lt ip h.ref
  rw [h.inum] at hlt
  have hne : (dinode sb fs.disk (a.fs.icache ip).inum).type ≠ 0 := by
    rw [h.type]
    decide
  have hmax := blocks_le_iff.mp (h.consistent.filled _ hlt hne).le_maxfile
  have hbound := maxfile_bsize
  have hoff := h.off
  have hsize := h.size
  have hsum : (off + UInt32.ofNat k).toNat = off.toNat + k := by
    rw [UInt32.toNat_add, UInt32.toNat_ofNat_of_lt' (by show _ < 2 ^ 32; omega), Nat.mod_eq_of_lt (by omega)]
  exact ⟨h.consistent, h.ref, h.inum, h.type, h.size, h.bytes, by rw [hsum, Nat.add_zero, hoff], h.consecutive⟩

theorem inv_advance (h : Inv sb ip a s) (hpc : s.pc p = .wrote c i n1 r) :
    Inv sb ip a { s.goto p (.advanced c i n1 r) with
      off := if r > 0 then s.off + UInt32.ofNat r.toNat else s.off } := by
  have hl : s.lock = some p := (h.holds p).mpr (by rw [hpc]; rfl)
  have hok := h.pc p
  rw [hpc] at hok
  have hfile := h.file
  simp only [hl, Option.elim_some, hpc, Pc.pending] at hfile
  refine ⟨?_, h.valid, fun q => ?_, goto_pc_ok h.pc hok, fun q => ?_, fun x hx => ?_⟩
  · have hzero : (s.lock.elim 0 fun q => ((s.goto p (.advanced c i n1 r)).pc q).pending) = 0 := by
      simp [hl, State.goto, Pc.pending]
    show Appended sb ip a s.fs _ s.writes (s.lock.elim 0 fun q => ((s.goto p (.advanced c i n1 r)).pc q).pending)
    rw [hzero]
    split
    next => exact hfile.advance
    next hr =>
      rw [Int.toNat_of_nonpos (by omega)] at hfile
      exact hfile
  · have hholds : ((s.goto p (.advanced c i n1 r)).pc q).holds = (s.pc q).holds :=
      goto_congr Pc.holds (by rw [hpc]; rfl) q
    exact (h.holds q).trans (by rw [← hholds])
  · show _ ++ ((s.goto p (.advanced c i n1 r)).pc q).rest = _
    rw [goto_congr Pc.rest (by rw [hpc]; rfl)]
    exact h.own q
  · exact current_goto (hpc ▸ rfl) (h.nonneg x hx)

variable [Devsw]

theorem inv_writei {fs : Fs.State} (h : Inv sb ip a s) (hpc : s.pc p = .locked c i n1)
    (hw : Fs.writei sb ip (fun k => c.addr (i + k)) s.off (UInt32.ofNat n1) s.fs = .ok (r, fs)) :
    Inv sb ip a { s.goto p (.wrote c i n1 r) with
      fs
      writes := if r > 0 then s.writes ++ [⟨p, s.off.toNat, (List.range n1).map fun k => c.addr (i + k)⟩]
        else s.writes } := by
  have hl : s.lock = some p := (h.holds p).mpr (by rw [hpc]; rfl)
  have hv := h.valid (by rw [hl]; nofun)
  have hok := h.pc p
  rw [hpc] at hok
  have hdev : (s.fs.icache ip).type ≠ tDev := by
    rw [h.file.consistent.agree ip h.file.ref hv, h.file.inum, h.file.type]
    decide
  have hn : (UInt32.ofNat n1).toNat = n1 := by
    have : maxChunk < 2 ^ 32 := by decide
    exact UInt32.toNat_ofNat_of_lt' (by show _ < 2 ^ 32; exact hok.2.2.trans_lt this)
  have hspec := (wp_iff.mp (writei_spec h.file.consistent h.file.ref hv hdev)).1 _ _ hw
  rw [hn] at hspec
  rcases hspec with ⟨rfl, rfl, -⟩ | ⟨rfl, -, -, x, hx⟩
  · exact inv_write_fail h hpc
  · rw [if_pos (by exact_mod_cast hok.2.1)]
    exact inv_write h hpc hx

theorem inv_step {act : Act P} (h : Inv sb ip a s) (hf : Fine sb ip s act) (hst : step sb ip s act = some t) :
    Inv sb ip a t := by
  cases act with
  | call p c =>
      simp only [step] at hst
      split at hst
      next hpc => exact Option.some.inj hst ▸ inv_call h hpc
      next => cases hst
  | test p =>
      simp only [step] at hst
      split at hst
      next c i hpc =>
        split at hst
        next hi => exact Option.some.inj hst ▸ inv_test_more h hpc hi
        next => exact Option.some.inj hst ▸ inv_test_done h hpc
      next => cases hst
  | ilock p =>
      simp only [step] at hst
      split at hst
      next c i n1 hpc hl =>
        split at hst
        next fs hlock => exact Option.some.inj hst ▸ inv_ilock h hpc hl hlock
        next => cases hst
      next => cases hst
  | writei p =>
      simp only [step] at hst
      split at hst
      next c i n1 hpc =>
        split at hst
        next r fs hw => exact Option.some.inj hst ▸ inv_writei h hpc hw
        next => cases hst
      next => cases hst
  | advance p =>
      simp only [step] at hst
      split at hst
      next c i n1 r hpc => exact Option.some.inj hst ▸ inv_advance h hpc
      next => cases hst
  | iunlock p =>
      simp only [step] at hst
      split at hst
      next c i n1 r hpc =>
        split at hst
        next fs hun =>
          have hfs : s.fs = fs := by
            have hun' : Fs.iunlock ip s.fs = .ok ((), s.fs) := by
              show (if (s.fs.icache ip).ref < 1 then _ else _ : FsM Unit) s.fs = _
              rw [if_neg (by have := h.file.ref; omega)]
              rfl
            rw [hun'] at hun
            exact congrArg Prod.snd (Except.ok.inj hun)
          rw [← hfs] at hst
          exact Option.some.inj hst ▸ inv_iunlock h hpc
        next => cases hst
      next => cases hst
  | endOp p =>
      simp only [step] at hst
      split at hst
      next c i n1 r hpc =>
        split at hst
        next hr => exact Option.some.inj hst ▸ inv_endOp_fail h hpc hr
        next =>
          rw [Option.ite_none_right_eq_some] at hst
          exact Option.some.inj hst.2 ▸ inv_endOp h hpc hst.1
      next => cases hst
  | ret p =>
      simp only [step] at hst
      split at hst
      next c i hpc => exact Option.some.inj hst ▸ inv_ret h hpc (hf c i hpc)
      next => cases hst
  | other fs => exact Option.some.inj hst ▸ inv_other h hf

omit [Devsw] in
theorem Start.inv (h : Start sb ip s) : Inv sb ip s s := by
  have hfile : Appended sb ip s s.fs s.off s.writes 0 := by
    rw [h.writes]
    refine ⟨h.consistent, h.ref, rfl, h.type, ?_, fun q _ => ?_, rfl, trivial⟩
    · exact (max_eq_left h.off).symm
    · rw [overlay, if_neg (by simp)]
      rfl
  refine ⟨by rwa [h.lock], fun hl => absurd h.lock hl, fun p => ?_, fun p => ?_, fun p => ?_, fun x hx => ?_⟩
  · simp [h.lock, h.idle, Pc.holds]
  · rw [h.idle]
    trivial
  · simp [h.writes, h.calls, h.idle, Pc.rest]
  · rw [h.calls] at hx
    cases hx

end Preserved

section Totals

theorem sum_filter {α : Type} (k : α → P) (f : α → Nat) (S : Finset P) (l : List α) (hS : ∀ x ∈ l, k x ∈ S) :
    ∑ p ∈ S, ((l.filter (k · = p)).map f).sum = (l.map f).sum := by
  induction l with
  | nil => simp
  | cons x l ih =>
      have hcons (p) : (((x :: l).filter (k · = p)).map f).sum = (if k x = p then f x else 0) +
        ((l.filter (k · = p)).map f).sum := by
        by_cases hp : k x = p <;> simp [hp]
      simp only [hcons, Finset.sum_add_distrib, Finset.sum_ite_eq, hS x List.mem_cons_self, if_true,
        List.map_cons, List.sum_cons]
      rw [ih fun y hy => hS y (List.mem_cons_of_mem x hy)]

theorem length_written_eq {ws : List (Chunk P)} {cs : List (P × Call)}
    (h : ∀ p, written (ws.filter (·.proc = p)) = (cs.filter (·.1 = p)).flatMap fun x => x.2.data) :
    (written ws).length = (cs.map fun x => x.2.len).sum := by
  let S := (ws.map Chunk.proc ++ cs.map Prod.fst).toFinset
  have hw := sum_filter Chunk.proc (fun w => w.bytes.length) S ws fun w hw => by
    simp only [S, List.mem_toFinset, List.mem_append]
    exact .inl (List.mem_map_of_mem hw)
  have hc := sum_filter Prod.fst (fun x : P × Call => x.2.len) S cs fun x hx => by
    simp only [S, List.mem_toFinset, List.mem_append]
    exact .inr (List.mem_map_of_mem hx)
  rw [written, List.length_flatMap, ← hw, ← hc]
  refine Finset.sum_congr rfl fun p _ => ?_
  have := congrArg List.length (h p)
  rw [written, List.length_flatMap, List.length_flatMap] at this
  simpa only [Call.length_data] using this

end Totals

section Shared

variable [Devsw] {sb : Layout} {ip : Fin ninode} {s t : State P} {as : List (Act P)}

/-- Processes write to a regular file through one `struct file`, no call fails and no one else writes to the
file. When all calls have returned, the offset has moved by the sum of the lengths, the chunks lie one behind
the other from the old offset on, each process's chunks hold its own bytes in its own order, and the file has
grown to the new offset. -/
theorem filewrite_shared (h : Start sb ip s) (hfine : Runs.Along (step sb ip) (Fine sb ip) s as)
    (hrun : Runs.run (step sb ip) s as = some t) (hidle : ∀ p, t.pc p = .idle) :
    (t.off.toNat : Int) = s.off.toNat + (t.calls.map fun x => x.2.n.toInt).sum ∧
      Consecutive s.off.toNat t.writes ∧ (t.writes.Pairwise fun v w => v.off + v.bytes.length ≤ w.off) ∧
      (∀ p, written (t.writes.filter (·.proc = p)) = (t.calls.filter (·.1 = p)).flatMap fun x => x.2.data) ∧
      (∀ w ∈ t.writes, ∀ k (hk : k < w.bytes.length), fileByte t.fs.disk (t.node sb ip) (w.off + k) = w.bytes[k]) ∧
      (t.node sb ip).size.toNat = max (s.node sb ip).size.toNat t.off.toNat := by
  have hinv : Inv sb ip s t :=
    Runs.run_invariant (Inv sb ip s) (fun _ _ _ h ha hst => inv_step h ha hst) h.inv hfine hrun
  have hown (p) : written (t.writes.filter (·.proc = p)) = (t.calls.filter (·.1 = p)).flatMap fun x =>
    x.2.data := by
    have := hinv.own p
    rwa [hidle, Pc.rest, List.append_nil] at this
  have hpend : (t.lock.elim 0 fun p => (t.pc p).pending) = 0 := by
    cases t.lock with
    | none => rfl
    | some p =>
        rw [Option.elim_some, hidle]
        rfl
  have hoff := hinv.file.off
  rw [hpend, Nat.add_zero] at hoff
  have hcons := hinv.file.consecutive
  have hnode : t.node sb ip = dinode sb t.fs.disk (s.fs.icache ip).inum := by rw [State.node, hinv.file.inum]
  have hsum : (t.calls.map fun x => x.2.n.toInt).sum = ((t.calls.map fun x => x.2.len).sum : Nat) := by
    rw [Nat.cast_list_sum, List.map_map]
    refine congrArg List.sum (List.map_congr_left fun x hx => ?_)
    have := hinv.nonneg x hx
    rw [hidle] at this
    exact (Int.toNat_of_nonneg (this.resolve_right nofun)).symm
  refine ⟨?_, hcons, hcons.pairwise, hown, fun w hw k hk => ?_, ?_⟩
  · rw [hsum, ← length_written_eq hown, hoff, Nat.cast_add]
  · rw [hnode, hinv.file.bytes, hcons.overlay hw]
    rw [hinv.file.size]
    exact lt_max_of_lt_right ((Nat.add_lt_add_left hk _).trans_le (hcons.end_le hw))
  · rw [hnode, hinv.file.size, hoff]

/-- A check for `Fine`, of runs in which only the processes that share the file take steps. -/
def fineB (s : State P) : Act P → Bool
  | .ret p =>
      match s.pc p with
      | .left c i => decide (result c i ≠ -1)
      | _ => true
  | .other _ => false
  | _ => true

omit [DecidableEq P] [Devsw] in
theorem fine_of_fineB {a : Act P} (h : fineB s a = true) : Fine sb ip s a := by
  cases a with
  | ret p =>
      intro c i hpc
      rw [fineB, hpc] at h
      exact of_decide_eq_true h
  | other fs => cases h
  | _ => trivial

def Pc.isIdle : Pc → Bool
  | .idle => true
  | _ => false

omit [Devsw] in
theorem Pc.eq_idle {pc : Pc} (h : pc.isIdle = true) : pc = .idle := by
  cases pc with
  | idle => rfl
  | _ => cases h

def twoWriters : State (Fin 2) := ⟨oneFile, 0, none, fun _ => .idle, [], []⟩

omit [Devsw] in
theorem start_twoWriters : Start tiny 0 twoWriters where
  consistent := consistent_oneFile
  ref := by decide
  type := by decide +kernel
  off := by decide +kernel
  lock := rfl
  idle _ := rfl
  calls := rfl
  writes := rfl

end Shared

section

attribute [local instance] noDevices

/-- Both processes are in `filewrite` when the second one, with 600 bytes, gets the lock first. -/
theorem filewrite_shared_twoWriters :
    ∃ (as : List (Act (Fin 2))) (t : State (Fin 2)), Runs.run (step tiny 0) twoWriters as = some t ∧ t.off = 603 ∧
      Consecutive 0 t.writes ∧ (t.node tiny 0).size.toNat = 603 := by
  let round (p : Fin 2) : List (Act (Fin 2)) :=
    [.ilock p, .writei p, .advance p, .iunlock p, .endOp p, .test p, .ret p]
  let as : List (Act (Fin 2)) :=
    [.call 0 ⟨fun _ => 65, 3⟩, .call 1 ⟨fun k => UInt8.ofNat k, 600⟩, .test 0, .test 1] ++ round 1 ++ round 0
  have hrun : (Runs.run (step tiny 0) twoWriters as).any
      (fun t => decide (t.off = 603) && (t.pc 0).isIdle && (t.pc 1).isIdle) = true := by decide +kernel
  obtain ⟨t, ht, hp⟩ := (Option.any_eq_true _ _).mp hrun
  simp only [Bool.and_eq_true, decide_eq_true_eq] at hp
  have hfine : Runs.Along (step tiny 0) (Fine tiny 0) twoWriters as :=
    Runs.along_of_alongB fineB (fun _ _ => fine_of_fineB) (by decide +kernel)
  have hidle (p : Fin 2) : t.pc p = .idle := by
    match p with
    | 0 => exact Pc.eq_idle hp.1.2
    | 1 => exact Pc.eq_idle hp.2
  obtain ⟨-, hcons, -, -, -, hsize⟩ := filewrite_shared start_twoWriters hfine ht hidle
  have hzero : (twoWriters.node tiny 0).size.toNat = 0 := by decide +kernel
  refine ⟨as, t, ht, hp.1.1, hcons, ?_⟩
  rw [hsize, hzero, hp.1.1]
  rfl

end

end Xv6.Fs.SharedWrite
