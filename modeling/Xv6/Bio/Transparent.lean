import Xv6.Bio.Coherence
import Xv6.Bio.Model

namespace Xv6.Bio

open Lib Ide

variable {P : Type} [DecidableEq P] {g : Log.Region} {disksize : Nat} {s t : State P} {a : Act P} {p : P}
  {dev blockno : UInt32}

namespace State

theorem cacheStep_eq_some {o : Op P} (h : s.cacheStep disksize o = some t) :
    s.toCache.step disksize o = some t.toCache ∧ t = { s with toCache := t.toCache } := by
  obtain ⟨c, hc, rfl⟩ := Option.map_eq_some_iff.mp h
  exact ⟨hc, rfl⟩

theorem bread_eq_some (h : s.bread p dev blockno = some t) :
    s.pos p = .out ∧ ((s.bget p dev blockno = some t.toCache ∧ t = { s with toCache := t.toCache }) ∨
      (s.bget p dev blockno = none ∧ t = { s with panicked := true })) := by
  obtain ⟨hp, h⟩ := Option.ite_none_right_eq_some.mp h
  refine ⟨hp, ?_⟩
  split at h
  · rename_i c hc
    obtain rfl := Option.some.inj h
    exact .inl ⟨hc, rfl⟩
  · rename_i hc
    exact .inr ⟨hc, (Option.some.inj h).symm⟩

def CacheStep (disksize : Nat) (s t : State P) : Prop :=
  t.toCache = s.toCache ∨ ∃ o, s.toCache.step disksize o = some t.toCache

theorem CacheStep.of_cacheStep {o : Op P} (h : s.cacheStep disksize o = some t) : CacheStep disksize s t :=
  .inr ⟨o, (cacheStep_eq_some h).1⟩

theorem CacheStep.of_bread (h : s.bread p dev blockno = some t) : CacheStep disksize s t := by
  obtain ⟨hp, ⟨hc, -⟩ | ⟨-, rfl⟩⟩ := bread_eq_some h
  · exact .inr ⟨.bread p dev blockno, by rw [Cache.step, if_pos hp, hc]⟩
  · exact .inl rfl

theorem CacheStep.of_exec {cmd : Cmd} (h : s.exec disksize p cmd = some t) : CacheStep disksize s t := by
  cases cmd with
  | bread blockno => exact of_bread h
  | memmove dst src =>
      obtain ⟨b, -, h⟩ := Option.bind_eq_some_iff.mp h
      obtain ⟨b', -, h⟩ := Option.bind_eq_some_iff.mp h
      exact of_cacheStep h
  | putHead blockno | bwrite blockno | brelse blockno =>
      obtain ⟨b, -, h⟩ := Option.bind_eq_some_iff.mp h
      exact of_cacheStep h

theorem advance_toCache (st : Stage) : (s.advance g p st).toCache = s.toCache := by
  cases st with
  | writeLog tail | install tail =>
      rw [advance]
      split
      · rfl
      · rfl
  | writeHead | clear | release => rfl

theorem CacheStep.of_call {op : Bool} (h : s.call g disksize p op a = some t) : CacheStep disksize s t := by
  cases a with
  | bread q dev blockno => exact of_bread h
  | modify q b data => exact of_cacheStep h
  | bwrite q b => exact of_cacheStep h
  | brelse q b => exact of_cacheStep h
  | logWrite q b =>
      simp only [call, Option.ite_none_right_eq_some, Option.ite_none_left_eq_some, Option.some.injEq] at h
      exact .inl (h.2.2.2 ▸ rfl)
  | beginOp q =>
      simp only [call, beginOp, Option.ite_none_right_eq_some, Option.ite_none_left_eq_some, Option.some.injEq] at h
      exact .inl (h.2.2.2 ▸ rfl)
  | endOp q =>
      simp only [call, endOp, Option.ite_none_right_eq_some, Option.ite_none_left_eq_some] at h
      obtain ⟨-, -, h⟩ := h
      split at h
      · exact .inl (Option.some.inj h ▸ rfl)
      · exact .inl (Option.some.inj h ▸ rfl)
  | acquire | load | append | drop | commit => cases h

end State

theorem step_cacheStep (h : step g disksize s a = some t) : s.CacheStep disksize t := by
  obtain ⟨-, h⟩ := Option.ite_none_left_eq_some.mp h
  split at h
  · exact .of_cacheStep h
  · exact .of_cacheStep h
  · exact .of_cacheStep h
  · obtain ⟨u, hu, rfl⟩ := Option.map_eq_some_iff.mp h
    exact .inr ⟨_, (State.cacheStep_eq_some hu).1⟩
  · obtain ⟨u, hu, rfl⟩ := Option.map_eq_some_iff.mp h
    exact (State.CacheStep.of_exec hu : s.CacheStep disksize u)
  · obtain ⟨-, h⟩ := Option.ite_none_right_eq_some.mp h
    exact .inl (Option.some.inj h ▸ State.advance_toCache _)
  · exact .of_call h
  · cases h

variable [Fintype P]

theorem cacheOk_step (h : s.toCache.Ok) (hst : step g disksize s a = some t) : t.toCache.Ok := by
  rcases step_cacheStep hst with he | ⟨o, ho⟩
  · rwa [he]
  · exact h.step ho

theorem cacheOk_run {d : Disk} {as : List (Act P)} (hrun : Runs.run (step g disksize) (boot P d) as = some t) :
    t.toCache.Ok :=
  Runs.run_invariant (fun u => u.toCache.Ok) (fun _ _ _ h _ hst => cacheOk_step h hst) (Cache.Ok.binit d)
    (Runs.along_true _ as) hrun

/-- The buffer cache is transparent: whatever the processes do, its list runs through all the buffers in both
directions, a buffer that was taken for a block is the only one for it, a buffer that is in use or dirty stays
with its block, and what `bread` returns for a block are the contents that were last written to it. -/
theorem bcache_transparent {d : Disk} {as : List (Act P)}
    (hrun : Runs.run (step g disksize) (boot P d) as = some s) :
    (∃ l, s.links.Ring l ∧ l.Perm (List.finRange nbuf)) ∧
    (∀ b b', s.bound b = true → s.Key b' (s.buf b).dev (s.buf b).blockno → b' = b) ∧
    (∀ a t, step g disksize s a = some t → ∀ b, 0 < s.refcnt b ∨ (s.buf b).dirty = true →
      t.Key b (s.buf b).dev (s.buf b).blockno) ∧
    (∀ p dev blockno b t, s.pos p = .locked dev blockno b → step g disksize s (.load p) = some t →
      t.Key b dev blockno ∧ (t.buf b).data = s.latest blockno.toNat) := by
  have hok := cacheOk_run hrun
  refine ⟨?_, hok.unique, ?_, ?_⟩
  · obtain ⟨l, hl, hall⟩ := hok.ring
    exact ⟨l, hl, (List.perm_ext_iff_of_nodup hl.nodup (List.nodup_finRange nbuf)).mpr fun b => by simp [hall b]⟩
  · intro a t hst b hb
    rcases step_cacheStep hst with he | ⟨o, ho⟩
    · rw [he]
      exact ⟨rfl, rfl⟩
    · exact hok.not_rebound ho hb
  · intro p dev blockno b t hp hst
    obtain ⟨-, hst⟩ := Option.ite_none_left_eq_some.mp hst
    exact hok.bread_returns hp (State.cacheStep_eq_some hst).1

/-- Process 0 changes block 40 in an operation, while process 1 waits for the buffer; process 1 has locked it. -/
def handOverRun : List (Act (Fin 2)) :=
  [.beginOp 0, .bread 0 1 40, .acquire 0, .load 0, .modify 0 0 fun _ => 1, .bread 1 1 40, .logWrite 0 0,
    .append 0, .brelse 0 0, .acquire 1]

theorem bcache_transparent_handOverRun :
    ∃ s, Runs.run (step ⟨2, 30⟩ 1000) (boot (Fin 2) fun _ _ => 0) handOverRun = some s ∧
      s.pos 1 = .locked 1 40 0 ∧ s.memdisk 40 0 = 0 ∧ s.latest 40 0 = 1 ∧
      ∀ t, step ⟨2, 30⟩ 1000 s (.load 1) = some t → (t.buf 0).data = s.latest 40 := by
  have h : (Runs.run (step ⟨2, 30⟩ 1000) (boot (Fin 2) fun _ _ => 0) handOverRun).any (fun s =>
      decide (s.pos 1 = .locked 1 40 0) && s.memdisk 40 0 == 0 && s.latest 40 0 == 1) = true := by
    decide +kernel
  obtain ⟨s, hs, hend⟩ := (Option.any_eq_true _ _).mp h
  simp only [Bool.and_eq_true, decide_eq_true_eq, beq_iff_eq] at hend
  refine ⟨s, hs, hend.1.1, hend.1.2, hend.2, ?_⟩
  intro t ht
  exact ((bcache_transparent hs).2.2.2 1 1 40 0 t hend.1.1 ht).2

end Xv6.Bio
