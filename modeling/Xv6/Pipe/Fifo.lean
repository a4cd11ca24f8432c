import Xv6.Pipe.Model

namespace Xv6.Pipe

open Lib Lib.Ring

variable {P : Type} [DecidableEq P] {s t : State P} {a : Act P} {p q : P} {pc : Pc}

@[simp] theorem holds_wakeRead : pc.wakeRead.holds = pc.holds := by cases pc <;> rfl

@[simp] theorem holds_wakeWrite : pc.wakeWrite.holds = pc.holds := by cases pc <;> rfl

theorem wakeRead_of_holds (h : pc.holds = true) : pc.wakeRead = pc := by cases pc <;> first | rfl | cases h

theorem wakeWrite_of_holds (h : pc.holds = true) : pc.wakeWrite = pc := by cases pc <;> first | rfl | cases h

theorem holds_of_outside (h : pc.outside = true) : pc.holds = false := by cases pc <;> first | rfl | cases h

theorem goto_holds (h : ((s.goto p pc).pc q).holds = true) :
    q = p ∧ pc.holds = true ∨ q ≠ p ∧ (s.pc q).holds = true := by
  by_cases hq : q = p
  · subst hq
    exact .inl ⟨rfl, by simpa [State.goto] using h⟩
  · exact .inr ⟨hq, by simpa [State.goto, hq] using h⟩

def Exclusive (s : State P) : Prop := ∀ p, (s.pc p).holds = true → s.lock = some p

theorem Exclusive.goto (h : Exclusive s) (hpc : pc.holds = false) : Exclusive (s.goto p pc) := fun q hq => by
  rcases goto_holds hq with ⟨-, hq⟩ | ⟨-, hq⟩
  · rw [hpc] at hq
    cases hq
  · exact h q hq

theorem Exclusive.stay (h : Exclusive s) (hp : (s.pc p).holds = true) : Exclusive (s.goto p pc) := fun q hq => by
  rcases goto_holds hq with ⟨rfl, -⟩ | ⟨-, hq⟩
  · exact h q hp
  · exact h q hq

theorem Exclusive.acquire (h : Exclusive s) (hl : s.lock = none) : Exclusive { s.goto p pc with lock := some p } :=
  fun q hq => by
    rcases goto_holds hq with ⟨rfl, -⟩ | ⟨-, hq⟩
    · rfl
    · have := h q hq
      rw [hl] at this
      cases this

theorem Exclusive.leave (h : Exclusive s) (hp : (s.pc p).holds = true) (hpc : pc.holds = false) :
    Exclusive (s.goto p pc).release := fun q hq => by
  rcases goto_holds hq with ⟨-, hq⟩ | ⟨hne, hq⟩
  · rw [hpc] at hq
    cases hq
  · have := h p hp
    rw [h q hq] at this
    exact absurd (Option.some.inj this) hne

omit [DecidableEq P] in
theorem Exclusive.wakeRead (h : Exclusive s) : Exclusive s.wakeRead :=
  fun q hq => h q (by simpa [State.wakeRead] using hq)

omit [DecidableEq P] in
theorem Exclusive.wakeWrite (h : Exclusive s) : Exclusive s.wakeWrite :=
  fun q hq => h q (by simpa [State.wakeWrite] using hq)

theorem exclusive_step (h : Exclusive s) (hst : Step s a t) : Exclusive t := by
  cases hst with
  | read p n hpc => exact h.goto rfl
  | write p addr n hpc => exact h.goto rfl
  | acquireRead p n hpc hl => exact h.acquire hl
  | acquireWrite p addr n i hpc hl => exact h.acquire hl
  | readKilled p n hpc => exact h.leave (by rw [hpc]; rfl) rfl
  | readSleep p n hpc => exact h.leave (by rw [hpc]; rfl) rfl
  | readStart p n hpc => exact h.stay (by rw [hpc]; rfl)
  | take p n got hpc => exact Exclusive.stay (s := { s with pipe := _, delivered := _ }) h (by rw [hpc]; rfl)
  | readStop p n got hpc => exact h.stay (by rw [hpc]; rfl)
  | readReturn p n got hpc => exact (h.leave (by rw [hpc]; rfl) rfl).wakeWrite
  | giveUp p addr n i j hpc => exact h.leave (by rw [hpc]; rfl) rfl
  | writeSleep p addr n i j hpc => exact h.wakeRead.leave (by rw [State.wakeRead, holds_wakeRead, hpc]; rfl) rfl
  | put p addr n i j hpc => exact Exclusive.stay (s := { s with pipe := _, stored := _ }) h (by rw [hpc]; rfl)
  | writeReturn p addr n i j hpc => exact (h.leave (by rw [hpc]; rfl) rfl).wakeRead
  | close w hl =>
      cases w with
      | true => exact h.wakeRead
      | false => exact h.wakeWrite
  | kill p =>
      intro q hq
      by_cases hqp : q = p
      · subst hqp
        exact h q (by simpa using hq)
      · exact h q (by simpa [hqp] using hq)

theorem frame_step (h : Exclusive s) (hst : Step s a t) (hq : (s.pc q).holds = true) (ha : a ≠ .run q) :
    t.pipe = s.pipe ∧ t.pc q = s.pc q := by
  have hlock := h q hq
  have hother {r : P} (hr : (s.pc r).holds = true) : r = q := Option.some.inj ((h r hr).symm.trans hlock)
  have hout {r : P} (hr : (s.pc r).holds = false) : q ≠ r := fun e => by rw [← e, hq] at hr; cases hr
  cases hst with
  | read p n hpc =>
      have : q ≠ p := hout (holds_of_outside hpc)
      simp [State.goto, this]
  | write p addr n hpc =>
      have : q ≠ p := hout (holds_of_outside hpc)
      simp [State.goto, this]
  | acquireRead p n hpc hl => rw [hl] at hlock; cases hlock
  | acquireWrite p addr n i hpc hl => rw [hl] at hlock; cases hlock
  | readKilled p n hpc | readSleep p n hpc | readStart p n hpc | take p n got hpc | readStop p n got hpc
  | readReturn p n got hpc | giveUp p addr n i j hpc | writeSleep p addr n i j hpc | put p addr n i j hpc
  | writeReturn p addr n i j hpc => exact absurd (congrArg Act.run (hother (by rw [hpc]; rfl))) ha
  | close w hl => rw [hl] at hlock; cases hlock
  | kill p =>
      refine ⟨rfl, ?_⟩
      by_cases hqp : q = p
      · subst hqp
        simp [wakeRead_of_holds hq, wakeWrite_of_holds hq]
      · simp [hqp]

/-- The bytes stored are those delivered, followed by the contents of the ring. -/
structure Fifo (s : State P) : Prop where
  bytes : s.stored = s.delivered ++ contents s.pipe.data s.pipe.nread s.pipe.nwrite
  room : (s.pipe.nwrite - s.pipe.nread).toNat ≤ pipesize

theorem not_full_iff {x : Kernel.Pipe} (h : (x.nwrite - x.nread).toNat ≤ pipesize) :
    ¬ Full x ↔ (x.nwrite - x.nread).toNat < pipesize := by
  have hiff : Full x ↔ x.nwrite - x.nread = 512 := by
    rw [Full, UInt32.add_comm]
    exact ⟨fun he => by rw [he, UInt32.add_sub_cancel], fun he => by rw [← he, UInt32.sub_add_cancel]⟩
  have hsz : (x.nwrite - x.nread).toNat = pipesize ↔ x.nwrite - x.nread = 512 := by
    rw [← UInt32.toNat_inj]
    rfl
  rw [hiff, ← hsz]
  omega

omit [DecidableEq P] in
theorem Fifo.of_eq (h : Fifo s) (hp : t.pipe.data = s.pipe.data) (hr : t.pipe.nread = s.pipe.nread)
    (hw : t.pipe.nwrite = s.pipe.nwrite) (hs : t.stored = s.stored) (hd : t.delivered = s.delivered) : Fifo t :=
  ⟨by rw [hs, hd, hp, hr, hw]; exact h.bytes, by rw [hr, hw]; exact h.room⟩

theorem fifo_step (h : Fifo s) (hst : Step s a t) : Fifo t := by
  cases hst with
  | take p n got hpc hn he =>
      refine ⟨?_, size_le he h.room⟩
      show s.stored = (s.delivered ++ [_]) ++ contents s.pipe.data (s.pipe.nread + 1) s.pipe.nwrite
      rw [h.bytes, contents_pop (by decide) he, List.append_assoc, List.singleton_append]
  | put p addr n i j hpc hf =>
      have hlt := (not_full_iff h.room).mp hf
      refine ⟨?_, ?_⟩
      · show s.stored ++ [addr i] = s.delivered ++ contents (Function.update _ _ _) s.pipe.nread (s.pipe.nwrite + 1)
        rw [contents_push (by decide) (by decide) hlt, h.bytes, List.append_assoc]
      · show (s.pipe.nwrite + 1 - s.pipe.nread).toNat ≤ pipesize
        rw [size_succ (hlt.trans (by decide : pipesize < 2 ^ 32 - 1) |> Nat.succ_lt_succ)]
        exact hlt
  | close w hl => cases w <;> exact h.of_eq rfl rfl rfl rfl rfl
  | _ => exact h.of_eq rfl rfl rfl rfl rfl

def ReaderOk (s : State P) (p : P) : Prop :=
  match s.pc p with
  | .readCopy _ got => got = [] → Empty s.pipe → s.pipe.writeopen = false
  | .readDone n got => got = [] → 0 < n → Empty s.pipe ∧ s.pipe.writeopen = false
  | _ => True

omit [DecidableEq P] in
theorem ReaderOk.of_frame (h : ReaderOk s p) (hp : t.pipe = s.pipe) (hpc : t.pc p = s.pc p) : ReaderOk t p := by
  unfold ReaderOk
  rw [hpc, hp]
  exact h

omit [DecidableEq P] in
theorem readerOk_of_not_holds (h : (s.pc p).holds = false) : ReaderOk s p := by
  unfold ReaderOk
  split
  next hpc => rw [hpc] at h; cases h
  next hpc => rw [hpc] at h; cases h
  next => trivial

theorem holds_step (hst : Step s a t) (hq : (t.pc q).holds = true) : (s.pc q).holds = true ∨ a = .acquire q := by
  cases hst with
  | read p n hpc | write p addr n hpc =>
      rcases goto_holds hq with ⟨-, hq⟩ | ⟨-, hq⟩
      · cases hq
      · exact .inl hq
  | acquireRead p n hpc hl | acquireWrite p addr n i hpc hl =>
      rcases goto_holds hq with ⟨rfl, -⟩ | ⟨-, hq⟩
      · exact .inr rfl
      · exact .inl hq
  | readKilled p n hpc | readSleep p n hpc | readStart p n hpc | readStop p n got hpc | giveUp p addr n i j hpc
  | take p n got hpc | put p addr n i j hpc =>
      rcases goto_holds hq with ⟨rfl, -⟩ | ⟨-, hq⟩
      · exact .inl (by rw [hpc]; rfl)
      · exact .inl hq
  | readReturn p n got hpc =>
      have hq : ((s.goto p (.returned got.length)).pc q).wakeWrite.holds = true := hq
      rw [holds_wakeWrite] at hq
      rcases goto_holds hq with ⟨rfl, -⟩ | ⟨-, hq⟩
      · exact .inl (by rw [hpc]; rfl)
      · exact .inl hq
  | writeSleep p addr n i j hpc =>
      rcases goto_holds hq with ⟨rfl, -⟩ | ⟨-, hq⟩
      · exact .inl (by rw [hpc]; rfl)
      · exact .inl (by simpa [State.wakeRead] using hq)
  | writeReturn p addr n i j hpc =>
      have hq : ((s.goto p (.returned n)).pc q).wakeRead.holds = true := hq
      rw [holds_wakeRead] at hq
      rcases goto_holds hq with ⟨rfl, -⟩ | ⟨-, hq⟩
      · exact .inl (by rw [hpc]; rfl)
      · exact .inl hq
  | close w hl =>
      cases w with
      | true => exact .inl (by simpa [State.closeEnd, State.wakeRead] using hq)
      | false => exact .inl (by simpa [State.closeEnd, State.wakeWrite] using hq)
  | kill p =>
      by_cases hqp : q = p
      · subst hqp
        exact .inl (by simpa using hq)
      · exact .inl (by simpa [hqp] using hq)

theorem readerOk_step (he : Exclusive s) (h : ∀ p, ReaderOk s p) (hst : Step s a t) (q : P) : ReaderOk t q := by
  by_cases hh : (t.pc q).holds = true
  · by_cases ha : a = .run q
    · subst ha
      have hq := h q
      cases hst with
      | readStart p n hpc hw =>
          simp only [ReaderOk, State.goto, Function.update_self]
          exact fun _ => hw
      | take p n got hpc hn hemp => simp [ReaderOk, State.take, State.goto]
      | readStop p n got hpc hn =>
          simp only [ReaderOk, hpc] at hq
          simp only [ReaderOk, State.goto, Function.update_self]
          intro hgot hpos
          have hemp := hn (by simpa [hgot] using hpos)
          exact ⟨hemp, hq hgot hemp⟩
      | put p addr n i j hpc hf => simp [ReaderOk, State.put, State.goto]
      | readKilled p n hpc | readSleep p n hpc | giveUp p addr n i j hpc | writeSleep p addr n i j hpc =>
          simp [State.goto, State.release, Pc.holds] at hh
      | readReturn p n got hpc => simp [State.goto, State.release, State.wakeWrite, Pc.holds, Pc.wakeWrite] at hh
      | writeReturn p addr n i j hpc =>
          simp [State.goto, State.release, State.wakeRead, Pc.holds, Pc.wakeRead] at hh
    · rcases holds_step hst hh with hs | rfl
      · obtain ⟨hp, hpc⟩ := frame_step he hst hs ha
        exact (h q).of_frame hp hpc
      · cases hst with
        | acquireRead p n hpc hl | acquireWrite p addr n i hpc hl => simp [ReaderOk, State.goto]
  · exact readerOk_of_not_holds (Bool.not_eq_true _ ▸ hh)

theorem ReaderOk.zero (h : ReaderOk s p) (hst : Step s (.run p) t) {n : Int} (hn : (s.pc p).readLength = some n)
    (ht : t.pc p = .returned 0) (hpos : 0 < n) : Empty s.pipe ∧ s.pipe.writeopen = false := by
  cases hst with
  | readReturn p m got hpc =>
      simp only [ReaderOk, hpc] at h
      rw [hpc] at hn
      cases hn
      simp only [State.release, State.wakeWrite, State.goto, Function.update_self, Pc.wakeWrite,
        Pc.returned.injEq] at ht
      exact h (List.eq_nil_of_length_eq_zero (by omega)) hpos
  | readKilled p n hpc | readSleep p n hpc | readStart p n hpc | readStop p n got hpc =>
      simp [State.goto, State.release] at ht
  | take p n got hpc => simp [State.goto, State.take] at ht
  | giveUp p addr n i j hpc | writeSleep p addr n i j hpc | put p addr n i j hpc | writeReturn p addr n i j hpc =>
      rw [hpc] at hn
      cases hn

end Xv6.Pipe
