import Xv6.Console.Line

namespace Xv6.Console

open Lib Lib.Ring Lib.Runs

def Input.InOrder (input : Input) : Prop := input.w - input.r ≤ input.e - input.r ∧ input.e - input.r ≤ 128

/-- What is in the buffer: committed and not yet read, and not yet committed. The latter has no newline. -/
structure Input.Holds (input : Input) (committed pending : List UInt8) : Prop where
  order : input.InOrder
  committed_eq : contents input.buf input.r input.w = committed
  pending_eq : contents input.buf input.w input.e = pending
  noNewline : 10 ∉ pending

theorem inputBuf_dvd : inputBuf ∣ 2 ^ 32 := by decide

section Holds

variable {input : Input} {committed pending : List UInt8}

namespace Input

theorem InOrder.le (h : input.InOrder) : (input.w - input.r).toNat ≤ (input.e - input.r).toNat :=
  UInt32.le_iff_toNat_le.mp h.1

theorem InOrder.room (h : input.InOrder) : (input.e - input.r).toNat ≤ inputBuf := UInt32.le_iff_toNat_le.mp h.2

theorem inOrder_iff : input.InOrder ↔
    (input.w - input.r).toNat ≤ (input.e - input.r).toNat ∧ (input.e - input.r).toNat ≤ inputBuf := by
  rw [InOrder, UInt32.le_iff_toNat_le, UInt32.le_iff_toNat_le]
  exact Iff.rfl

theorem Holds.length (h : input.Holds committed pending) :
    (input.e - input.r).toNat = committed.length + pending.length := by
  rw [← h.committed_eq, ← h.pending_eq, length_contents, length_contents, size_add h.order.le]

theorem killLine_eq (h : 10 ∉ contents input.buf input.w input.e) :
    input.killLine = { input with e := input.w } := by
  induction hn : (input.e - input.w).toNat generalizing input with
  | zero =>
      have he : input.w = input.e := by
        by_contra hne
        rw [size_back hne] at hn
        cases hn
      rw [killLine, if_neg (by simp [he])]
      obtain ⟨buf, r, w, e⟩ := input
      obtain rfl : w = e := he
      rfl
  | succ n ih =>
      have hne : input.w ≠ input.e := by
        intro he
        rw [he, UInt32.sub_self] at hn
        cases hn
      rw [contents_back inputBuf_dvd hne, List.mem_append, not_or] at h
      have hlast : input.char (input.e - 1) ≠ 10 := by
        intro hc
        exact h.2 (List.mem_singleton.mpr hc.symm)
      have hsize := size_back hne
      rw [killLine, if_pos ⟨hne.symm, hlast⟩, ih h.1 (by simp only; omega)]

theorem Holds.killLine (h : input.Holds committed pending) : input.killLine.Holds committed [] := by
  rw [killLine_eq (h.pending_eq ▸ h.noNewline)]
  refine ⟨?_, h.committed_eq, contents_self, List.not_mem_nil⟩
  exact inOrder_iff.mpr ⟨Nat.le_refl _, Nat.le_trans h.order.le h.order.room⟩

theorem Holds.backspace (h : input.Holds committed pending) : input.backspace.Holds committed pending.dropLast := by
  rw [Input.backspace]
  split
  next hne =>
    have hpending := h.pending_eq
    have hsize := size_back hne.symm
    rw [contents_back inputBuf_dvd hne.symm] at hpending
    rw [← hpending, List.dropLast_concat]
    have hle := size_add h.order.le
    have hroom := h.order.room
    have hback : (input.e - 1 - input.r).toNat = (input.w - input.r).toNat + (input.e - 1 - input.w).toNat := by
      have := input.r.toNat_lt
      have := input.w.toNat_lt
      have := input.e.toNat_lt
      simp only [UInt32.toNat_sub, UInt32.toNat_one] at hsize hle ⊢
      omega
    refine ⟨inOrder_iff.mpr ⟨?_, ?_⟩, h.committed_eq, rfl, ?_⟩
    · simp only
      omega
    · simp only
      omega
    · intro hm
      apply h.noNewline
      rw [← hpending]
      exact List.mem_append_left _ hm
  next he =>
    have hnil : pending = [] := by
      rw [← h.pending_eq, not_not.mp he, contents_self]
    rw [hnil] at h ⊢
    exact h

theorem Holds.push (h : input.Holds committed pending) (hroom : committed.length + pending.length < inputBuf)
    (c : UInt8) :
    let input' : Input :=
      { input with buf := Function.update input.buf (Fin.ofNat inputBuf input.e.toNat) c, e := input.e + 1 }
    input'.InOrder ∧ contents input'.buf input'.r input'.w = committed ∧
      contents input'.buf input'.w input'.e = pending ++ [c] ∧ contents input'.buf input'.r input'.e =
        committed ++ pending ++ [c] := by
  have hN : inputBuf = 128 := rfl
  have hlen := h.length
  have hadd := size_add h.order.le
  have hr : (input.e - input.r).toNat < inputBuf := by omega
  have hw : (input.e - input.w).toNat < inputBuf := by omega
  have hsucc : (input.e + 1 - input.r).toNat = (input.e - input.r).toNat + 1 := size_succ (by omega)
  refine ⟨inOrder_iff.mpr ⟨?_, ?_⟩, ?_, ?_, ?_⟩
  · have := h.order.le
    simp only
    omega
  · simp only
    omega
  · rw [contents_frame inputBuf_dvd h.order.le hr, h.committed_eq]
  · rw [contents_push inputBuf_dvd (by decide) hw, h.pending_eq]
  · rw [contents_push inputBuf_dvd (by decide) hr, ← contents_append inputBuf_dvd h.order.le, h.committed_eq,
      h.pending_eq]

theorem lt_inputBuf_iff (x : UInt32) : x < 128 ↔ x.toNat < inputBuf := UInt32.lt_iff_toNat_lt

theorem eq_add_inputBuf_iff {r e : UInt32} : e = r + 128 ↔ (e - r).toNat = inputBuf := by
  constructor
  · rintro rfl
    rw [UInt32.add_comm, UInt32.add_sub_cancel]
    rfl
  · intro h
    have : e - r = 128 := UInt32.toNat_inj.mp h
    rw [← this, UInt32.add_comm, UInt32.sub_add_cancel]

end Input

end Holds

section Keys

variable {P : Type} {input : Input} {l : Line P}

theorem holds_put (h : input.Holds l.committed l.pending) (c : UInt8) :
    (input.put c).Holds (l.enter c).committed (l.enter c).pending := by
  have hlen := h.length
  have hroom := h.order.room
  rw [Input.put, Line.enter]
  by_cases hc : c = 0
  · rw [if_neg (by simp [hc]), if_pos (.inl hc)]
    exact h
  · by_cases hfull : l.committed.length + l.pending.length = inputBuf
    · rw [if_neg, if_pos (.inr hfull)]
      · exact h
      · rw [Input.lt_inputBuf_iff]
        omega
    · have hlt : l.committed.length + l.pending.length < inputBuf := by omega
      have hno : ¬ (c = 0 ∨ l.committed.length + l.pending.length = inputBuf) := not_or.mpr ⟨hc, hfull⟩
      rw [if_pos ⟨hc, by rw [Input.lt_inputBuf_iff]; omega⟩, if_neg hno]
      dsimp only
      generalize (if c = 13 then 10 else c) = d
      obtain ⟨horder, hcommitted, hpending, hall⟩ := h.push hlt d
      have hcommit : (input.e + 1 = input.r + 128) ↔ l.committed.length + (l.pending ++ [d]).length = inputBuf := by
        have hall' := congrArg List.length hall
        rw [length_contents] at hall'
        rw [Input.eq_add_inputBuf_iff, hall', List.length_append, List.length_append, List.length_append,
          Nat.add_assoc]
      simp only [hcommit]
      by_cases hd : d = 10 ∨ d = ctrl 68 ∨ l.committed.length + (l.pending ++ [d]).length = inputBuf
      · rw [if_pos hd, if_pos hd]
        refine ⟨Input.inOrder_iff.mpr ⟨Nat.le_refl _, horder.room⟩, ?_, contents_self, List.not_mem_nil⟩
        rw [hall, List.append_assoc]
        rfl
      · rw [if_neg hd, if_neg hd]
        rw [not_or] at hd
        refine ⟨horder, hcommitted, hpending, ?_⟩
        rw [List.mem_append, not_or, List.mem_singleton]
        exact ⟨h.noNewline, Ne.symm hd.1⟩

theorem holds_key (h : input.Holds l.committed l.pending) (c : UInt8) :
    (input.key c).Holds (l.key c).committed (l.key c).pending := by
  rw [Input.key, Line.key]
  by_cases h1 : c = ctrl 90
  · rw [if_pos h1, if_pos (.inl h1)]
    exact h
  · rw [if_neg h1]
    by_cases h2 : c = ctrl 80
    · rw [if_pos h2, if_pos (.inr h2)]
      exact h
    · rw [if_neg h2, if_neg (not_or.mpr ⟨h1, h2⟩)]
      by_cases h3 : c = ctrl 85
      · rw [if_pos h3, if_pos h3]
        exact h.killLine
      · rw [if_neg h3, if_neg h3]
        by_cases h4 : c = ctrl 72 ∨ c = 127
        · rw [if_pos h4, if_pos h4]
          exact h.backspace
        · rw [if_neg h4, if_neg h4]
          exact holds_put h c

end Keys

section Reads

variable {input : Input} {k : Reading} {n : Nat} {got pending : List UInt8}

/-- A call of `consoleread` that has `got` and wants `n` more bytes. -/
structure Reading.Is (k : Reading) (n : Nat) (got : List UInt8) : Prop where
  dst : k.dst = got
  n_eq : k.n.toInt = n
  target_eq : k.target.toNat = n + got.length
  target_lt : k.target.toNat < 2 ^ 31

theorem Reading.Is.toNat_n (h : k.Is n got) : k.n.toUInt32.toNat = n := by
  have heq := h.n_eq
  have hlt := h.target_lt
  rw [h.target_eq] at hlt
  rw [← Int32.toInt_toBitVec, BitVec.toInt_eq_toNat_cond] at heq
  have hnat : k.n.toUInt32.toNat = k.n.toBitVec.toNat := rfl
  rw [hnat]
  have := k.n.toBitVec.isLt
  split at heq <;> omega

theorem Reading.Is.pos_iff (h : k.Is n got) : 0 < k.n ↔ 0 < n := by
  rw [Int32.lt_iff_toInt_lt, h.n_eq, Int32.toInt_zero]
  omega

theorem Reading.Is.lt_target_iff (h : k.Is n got) : k.n.toUInt32 < k.target ↔ got ≠ [] := by
  rw [UInt32.lt_iff_toNat_lt, h.toNat_n, h.target_eq, ← List.length_pos_iff]
  omega

theorem Reading.Is.next (h : k.Is (n + 1) got) (c : UInt8) :
    Reading.Is { k with n := k.n - 1, dst := k.dst ++ [c] } n (got ++ [c]) := by
  have hpos : 0 < k.n := h.pos_iff.mpr (Nat.succ_pos n)
  have htarget := h.target_eq
  refine ⟨by rw [h.dst], ?_, ?_, h.target_lt⟩
  · rw [toInt_pred hpos, h.n_eq]
    omega
  · rw [List.length_append, List.length_singleton]
    simp only
    omega

def Agrees : Outcome → Read → Prop
  | .sleeps k, .waits n got => k.Is n got
  | .returns ret dst, .ends got => dst = got ∧ ret = Int32.ofNat got.length
  | _, _ => False

theorem Reading.Is.finish (h : k.Is n got) : Agrees k.finish (.ends got) := by
  refine ⟨h.dst, ?_⟩
  have hsub : k.target - k.n.toUInt32 = UInt32.ofNat got.length := by
    have htarget := h.target_eq
    have hlt := h.target_lt
    rw [← UInt32.toNat_inj, UInt32.toNat_sub, h.toNat_n, UInt32.toNat_ofNat']
    omega
  rw [hsub]
  rfl

theorem Input.Holds.next {c : UInt8} {rest : List UInt8} (h : input.Holds (c :: rest) pending) :
    input.r ≠ input.w ∧ input.char input.r = c ∧ Input.Holds { input with r := input.r + 1 } rest pending := by
  have hne : input.r ≠ input.w := by
    intro he
    have := h.committed_eq
    rw [he, contents_self] at this
    cases this
  have hpop := h.committed_eq
  rw [contents_pop inputBuf_dvd hne] at hpop
  obtain ⟨hc, hrest⟩ := List.cons.inj hpop
  refine ⟨hne, hc, ?_, hrest, h.pending_eq, h.noNewline⟩
  have hle := h.order.le
  have hroom := h.order.room
  have hpred := size_pred hne
  have hne' : input.r ≠ input.e := by
    intro he
    rw [← he, UInt32.sub_self, hpred] at hle
    cases hle
  have hpred' := size_pred hne'
  refine Input.inOrder_iff.mpr ⟨?_, ?_⟩
  · simp only
    omega
  · simp only
    omega

theorem readLoop_follows {committed : List UInt8} (h : input.Holds committed pending) (hk : k.Is n got) :
    (readLoop false input k).1.Holds (takeLine n got committed).2.2 pending ∧
      Agrees (readLoop false input k).2 (takeLine n got committed).1 := by
  induction n generalizing input k got committed with
  | zero =>
      rw [readLoop, dif_neg (fun hpos => Nat.lt_irrefl 0 (hk.pos_iff.mp hpos)), takeLine]
      exact ⟨h, hk.finish⟩
  | succ n ih =>
      rw [readLoop, dif_pos (hk.pos_iff.mpr (Nat.succ_pos n))]
      cases committed with
      | nil =>
          have he : input.r = input.w := by
            by_contra hne
            have := h.committed_eq
            rw [contents_pop inputBuf_dvd hne] at this
            cases this
          rw [if_pos he, takeLine]
          exact ⟨h, hk⟩
      | cons c rest =>
          obtain ⟨hne, hc, hnext⟩ := h.next
          rw [if_neg hne, takeLine]
          simp only [hc]
          by_cases hd : c = ctrl 68
          · rw [if_pos hd, if_pos hd]
            by_cases hg : got = []
            · rw [if_neg (fun hlt => hk.lt_target_iff.mp hlt hg), if_pos hg]
              exact ⟨hnext, hg ▸ hk.finish⟩
            · rw [if_pos (hk.lt_target_iff.mpr hg), if_neg hg, UInt32.add_sub_cancel]
              exact ⟨h, hk.finish⟩
          · rw [if_neg hd, if_neg hd]
            by_cases hnl : c = 10
            · rw [if_pos hnl, if_pos hnl]
              exact ⟨hnext, (hk.next c).finish⟩
            · rw [if_neg hnl, if_neg hnl]
              exact ih hnext (hk.next c)

end Reads

section System

variable {P : Type} [DecidableEq P] {s s' : State P} {l : Line P}

def SameReader : Option Reading → Option (Nat × List UInt8) → Prop
  | none, none => True
  | some k, some (n, got) => k.Is n got
  | _, _ => False

structure Refines (s : State P) (l : Line P) : Prop where
  input : s.input.Holds l.committed l.pending
  reader : ∀ p, SameReader (s.reader p) (l.reader p)
  returned : s.returned = l.returned.map fun x => (x.1, Int32.ofNat x.2.length, x.2)

omit [DecidableEq P] in
theorem key_frame (l : Line P) (c : UInt8) : (l.key c).reader = l.reader ∧ (l.key c).returned = l.returned := by
  rw [Line.key]
  split
  next => exact ⟨rfl, rfl⟩
  next =>
    split
    next => exact ⟨rfl, rfl⟩
    next =>
      split
      next => exact ⟨rfl, rfl⟩
      next =>
        rw [Line.enter]
        split
        next => exact ⟨rfl, rfl⟩
        next =>
          dsimp only
          generalize (if c = 13 then 10 else c) = d
          split
          next => exact ⟨rfl, rfl⟩
          next => exact ⟨rfl, rfl⟩

omit [DecidableEq P] in
theorem Refines.intr (h : Refines s l) (cs : List UInt8) :
    Refines { s with input := s.input.consoleintr cs } (cs.foldl Line.key l) := by
  induction cs generalizing s l with
  | nil => exact h
  | cons c cs ih =>
      obtain ⟨hreader, hreturned⟩ := key_frame l c
      refine ih (s := { s with input := s.input.key c }) ⟨holds_key h.input c, ?_, ?_⟩
      · intro p
        rw [hreader]
        exact h.reader p
      · rw [hreturned]
        exact h.returned

theorem Refines.leave (h : Refines s l) (p : P) {r : Input × Outcome} {t : Read × List UInt8 × List UInt8}
    (hinput : r.1.Holds t.2.2 l.pending) (hr : Agrees r.2 t.1) : Refines (s.leave p r) (l.leave p t) := by
  obtain ⟨input, out⟩ := r
  obtain ⟨rd, took, rest⟩ := t
  have hother {x : Option Reading} {y : Option (Nat × List UInt8)} (hxy : SameReader x y) (q : P) :
      SameReader (Function.update s.reader p x q) (Function.update l.reader p y q) := by
    by_cases hq : q = p
    · subst hq
      rw [Function.update_self, Function.update_self]
      exact hxy
    · rw [Function.update_of_ne hq, Function.update_of_ne hq]
      exact h.reader q
  cases out with
  | sleeps k =>
      cases rd with
      | waits n got => exact ⟨hinput, hother hr, h.returned⟩
      | ends got => cases hr
  | returns ret dst =>
      cases rd with
      | waits n got => cases hr
      | ends got =>
          obtain ⟨rfl, rfl⟩ := hr
          refine ⟨hinput, hother trivial, ?_⟩
          show s.returned ++ _ = (l.returned ++ _).map _
          rw [h.returned, List.map_append]
          rfl

theorem readLoop_of_not_pos {input : Input} {n : Int32} (h : ¬ 0 < n) :
    readLoop false input ⟨n, n.toUInt32, []⟩ = (input, .returns 0 []) := by
  rw [readLoop, dif_neg h, Reading.finish]
  simp only [UInt32.sub_self]
  rfl

theorem is_start {n : Int32} (h : 0 < n) : Reading.Is ⟨n, n.toUInt32, []⟩ n.toInt.toNat [] := by
  have hpos := Int32.lt_iff_toInt_lt.mp h
  rw [Int32.toInt_zero] at hpos
  have hlt := n.toInt_lt
  have hnat : (n.toUInt32.toNat : Int) = n.toInt := by
    rw [← Int32.toInt_toBitVec, BitVec.toInt_eq_toNat_cond] at hpos ⊢
    have hdef : n.toUInt32.toNat = n.toBitVec.toNat := rfl
    rw [hdef]
    have := n.toBitVec.isLt
    split at hpos <;> omega
  refine ⟨rfl, ?_, ?_, ?_⟩
  · simp only
    omega
  · simp only [List.length_nil]
    omega
  · simp only
    omega

theorem Refines.step (h : Refines s l) {e : Event P} (hk : e.killed = false) (hst : step s e = some s') :
    ∃ l', l.step e = some l' ∧ Refines s' l' := by
  cases e with
  | intr cs =>
      cases hst
      exact ⟨_, rfl, h.intr cs⟩
  | read p n killed =>
      obtain rfl : killed = false := hk
      have hp := h.reader p
      rw [Console.step] at hst
      rw [Line.step]
      cases hs : s.reader p with
      | some k =>
          rw [hs] at hst
          cases hst
      | none =>
          cases hl : l.reader p with
          | some x =>
              rw [hs, hl] at hp
              cases hp
          | none =>
              rw [hs] at hst
              cases hst
              refine ⟨_, rfl, ?_⟩
              by_cases hn : 0 < n
              · obtain ⟨hinput, hr⟩ := readLoop_follows h.input (is_start hn)
                exact h.leave p hinput hr
              · rw [readLoop_of_not_pos hn]
                have hzero : n.toInt.toNat = 0 := by
                  rw [Int32.lt_iff_toInt_lt, Int32.toInt_zero] at hn
                  omega
                rw [hzero, takeLine]
                exact h.leave p h.input ⟨rfl, rfl⟩
  | wakeup p killed =>
      obtain rfl : killed = false := hk
      have hp := h.reader p
      rw [Console.step] at hst
      rw [Line.step]
      cases hs : s.reader p with
      | none =>
          rw [hs] at hst
          cases hst
      | some k =>
          cases hl : l.reader p with
          | none =>
              rw [hs, hl] at hp
              cases hp
          | some x =>
              obtain ⟨n, got⟩ := x
              rw [hs, hl] at hp
              rw [hs] at hst
              cases hst
              obtain ⟨hinput, hr⟩ := readLoop_follows h.input hp
              exact ⟨_, rfl, h.leave p hinput hr⟩

theorem Refines.run (h : Refines s l) (es : List (Event P)) (hes : ∀ e ∈ es, e.killed = false)
    (hrun : run Console.step s es = some s') : ∃ l', run Line.step l es = some l' ∧ Refines s' l' := by
  induction es generalizing s l with
  | nil =>
      cases hrun
      exact ⟨l, rfl, h⟩
  | cons e es ih =>
      obtain ⟨t, hst, hrest⟩ := run_cons.mp hrun
      obtain ⟨m, hl, hm⟩ := h.step (hes e List.mem_cons_self) hst
      obtain ⟨l', hl', hr⟩ := ih hm (fun e he => hes e (List.mem_cons_of_mem _ he)) hrest
      exact ⟨l', run_cons.mpr ⟨m, hl, hl'⟩, hr⟩

omit [DecidableEq P] in
theorem refines_start (buf : Fin inputBuf → UInt8) : Refines (start buf : State P) Line.start := by
  have horder : (0 : UInt32) - 0 ≤ 0 - 0 ∧ (0 : UInt32) - 0 ≤ 128 := by decide
  exact ⟨⟨horder, contents_self, contents_self, List.not_mem_nil⟩, fun _ => trivial, rfl⟩

/-- In every run in which no reader is killed the indices are in order, the calls of `consoleread` return what
the line discipline gives them, and everything committed is taken once and in order. -/
theorem console_line_discipline (buf : Fin inputBuf → UInt8) (es : List (Event P))
    (hes : ∀ e ∈ es, e.killed = false)
    (s : State P) (hrun : run step (start buf) es = some s) : s.input.InOrder ∧
    ∃ l, run Line.step Line.start es = some l ∧ l.Conserved ∧
      s.returned = l.returned.map (fun x => (x.1, Int32.ofNat x.2.length, x.2)) ∧
      (∀ p, (s.reader p).map Reading.dst = (l.reader p).map Prod.snd) ∧
      contents s.input.buf s.input.r s.input.w = l.committed ∧ contents s.input.buf s.input.w s.input.e =
        l.pending := by
  obtain ⟨l, hl, hr⟩ := (refines_start buf).run es hes hrun
  have hconserved : l.Conserved := by
    have hstart : (Line.start : Line P).Conserved := ⟨rfl, fun _ => rfl⟩
    exact run_invariant Line.Conserved (fun _ _ _ h _ hst => conserved_step h hst) hstart (along_true _ _) hl
  refine ⟨hr.input.order, l, hl, hconserved, hr.returned, ?_, hr.input.committed_eq, hr.input.pending_eq⟩
  intro p
  have hp := hr.reader p
  cases hs : s.reader p with
  | none =>
      cases hlp : l.reader p with
      | none => rfl
      | some x =>
          rw [hs, hlp] at hp
          cases hp
  | some k =>
      cases hlp : l.reader p with
      | none =>
          rw [hs, hlp] at hp
          cases hp
      | some x =>
          obtain ⟨n, got⟩ := x
          rw [hs, hlp] at hp
          exact congrArg some hp.dst

end System

theorem console_line_discipline_line : ∃ s : State Unit,
    run step (start fun _ => 0) [.intr [97, 98, 8, 13], .read () 5 false] = some s ∧ s.input.InOrder ∧
      s.returned = [((), 2, [97, 10])] := by
  refine ⟨_, rfl, ?_⟩
  obtain ⟨horder, l, hl, -, hreturned, -⟩ :=
    console_line_discipline (fun _ => 0) [.intr [97, 98, 8, 13], .read () 5 false] (by simp [Event.killed]) _ rfl
  cases hl
  exact ⟨horder, hreturned⟩

end Xv6.Console
