import Xv6.Kernel.RefCounts
import Xv6.Lib.Refine
import Xv6.Machine.Model
import Xv6.Vm.Accounting

namespace Xv6.Machine

open Lib Lib.Exec

variable {kend : Nat} {sb : Fs.Layout} {p : Fin nproc} {s t : State}

theorem kernelM_refines {α : Type} (m : Kernel.KM α) : Refines State.kernel id (kernelM m) m :=
  Refines.zoom fun _ _ => rfl

theorem vmM_keeps {α : Type} (m : Vm.VmM α) : Keeps State.kernel (vmM m) := Keeps.zoom fun _ _ => rfl

theorem pgdir_keeps {α : Type} {f : State → α} : Keeps f (pgdir p) :=
  .bind (.gets _) fun o => by
    cases o with
    | none => exact .fail _
    | some t => exact .pure t

theorem kernelM_gets_keeps {α β : Type} {f : State → β} (g : Kernel.State → α) : Keeps f (kernelM (Exec.gets g)) :=
  fun _ => rfl

theorem fileclose_refines (f : Fin nfile) :
    Refines State.kernel id (fileclose kend sb f) (Kernel.fileclose sb f) := by
  refine .skip (kernelM_gets_keeps _) fun ff => .skip (.gets _) fun n => .after (kernelM_refines _) fun _ => ?_
  exact .skip (.gets _) fun n' => .unit (.ite (fun _ => vmM_keeps _) fun _ => .pure _)

def firstPage : List Nat → Kernel.Kalloc
  | [] => .exhausted
  | q :: _ => .page q

theorem pipealloc_refines {r : Option (Fin nfile × Fin nfile)} (h : pipealloc sb s = .ok (r, t)) :
    Kernel.pipealloc sb (firstPage s.mem.freelist) s.kernel = .ok (r, t.kernel) := by
  rw [pipealloc, bind_ok (a := s.mem.freelist) (t := s) rfl] at h
  cases hl : s.mem.freelist with
  | nil =>
      rw [hl] at h
      exact kernelM_refines _ s r t h
  | cons q next =>
      rw [hl] at h
      refine Refines.ok (Refines.after (kernelM_refines _) fun o => ?_) h
      cases o with
      | none => exact .pure _
      | some ff => exact .skip (.update fun _ => rfl) fun _ => .pure _

theorem sysPipe_refines {arg junk : UInt64} {r : Int} (h : sysPipe kend sb p arg junk s = .ok (r, t)) :
    Kernel.sysPipe sb p arg junk (firstPage s.mem.freelist) s.kernel = .ok (r, t.kernel) := by
  rw [sysPipe, bind_ok (a := s.kernel.ptable p) (t := s) rfl] at h
  rw [Kernel.sysPipe, bind_ok (a := s.kernel.ptable p) (t := s.kernel) rfl]
  dsimp only at h ⊢
  split at h
  next hr =>
    rw [if_pos hr]
    exact Refines.ok (π := State.kernel) (.pure _) h
  next hr =>
    rw [if_neg hr]
    obtain ⟨o, u, hpipe, hrest⟩ := bind_eq_ok.mp h
    rw [bind_ok (pipealloc_refines hpipe)]
    cases o with
    | none => exact Refines.ok (π := State.kernel) (.pure _) hrest
    | some ff =>
        refine Refines.ok (Refines.bind (kernelM_refines _) fun o => ?_) hrest
        cases o with
        | none => exact .bind (fileclose_refines _) fun _ => .bind (fileclose_refines _) fun _ => .pure _
        | some fd0 =>
            refine .bind (kernelM_refines _) fun o => ?_
            cases o with
            | none =>
                exact .bind (kernelM_refines _) fun _ => .bind (fileclose_refines _) fun _ =>
                  .bind (fileclose_refines _) fun _ => .pure _
            | some fd1 => exact .bind (kernelM_refines _) fun _ => .pure _

theorem sysClose_refines (fd : Int) :
    Refines State.kernel id (sysClose kend sb p fd) (Kernel.sysClose sb p fd) := by
  refine .bind (kernelM_refines _) fun o => ?_
  cases o with
  | none => exact .pure _
  | some a => exact .bind (kernelM_refines _) fun _ => .bind (fileclose_refines _) fun _ => .pure _

theorem closeFiles_refines (fds : List (Fin nofile)) :
    Refines State.kernel id (closeFiles kend sb p fds) (Kernel.closeFiles sb p fds) := by
  induction fds with
  | nil => exact .pure _
  | cons fd fds ih =>
      refine .bind (kernelM_refines _) fun x => ?_
      rw [id_eq]
      cases x.ofile fd with
      | none => exact ih
      | some f => exact .bind (fileclose_refines _) fun _ => .bind (kernelM_refines _) fun _ => ih

theorem exit_refines : Refines State.kernel id (exit kend sb p) (Kernel.exit sb p) :=
  .bind (.gets Kernel.State.initproc) fun _ => .ite (fun _ => .fail _) fun _ =>
    .bind (closeFiles_refines _) fun _ => kernelM_refines _

theorem wait_refines : Refines State.kernel id (wait kend p) (Kernel.wait p) := by
  refine .skip (.gets _) fun T => ?_
  split
  next => exact kernelM_refines _
  next q _ =>
    refine .skip (.gets _) fun o => ?_
    cases o with
    | none => exact .fail _
    | some v =>
        exact .skip (vmM_keeps _) fun _ => .skip (.update fun _ => rfl) fun _ => .skip (.gets _) fun _ =>
          .skip (vmM_keeps _) fun _ => .skip (.update fun _ => rfl) fun _ => kernelM_refines _

theorem fork_refines : RefinesSome State.kernel (fork kend p) fun a :
    Kernel.Kalloc × Bool => Kernel.fork p a.1 a.2 := by
  refine .skip (.gets _) fun T => ?_
  split
  next => exact .of (.null, false) (kernelM_refines _)
  next np _ =>
    refine .skip (vmM_keeps _) fun o => ?_
    cases o with
    | none => exact .of (.null, false) (kernelM_refines _)
    | some v =>
        refine .skip (.update fun _ => rfl) fun _ => .skip (kernelM_gets_keeps _) fun x => .skip pgdir_keeps
          fun t =>
          .skip (vmM_keeps _) fun o => ?_
        cases o with
        | none =>
            exact .skip (vmM_keeps _) fun _ => .skip (.update fun _ => rfl) fun _ =>
              .of (.page v, false) (kernelM_refines _)
        | some d => exact .skip (.update fun _ => rfl) fun _ => .of (.page v, true) (kernelM_refines _)

section Exec

variable {ip : Fin ninode}

/-- What the memory does in a call of `exec` that does not panic; whether the stack fits is left open. -/
def execEnv (stack : Bool) : Kernel.ExecEnv where
  setupkvm := true
  allocuvm := fun _ => true
  walkpgdir := fun _ => true
  stack

theorem store_keeps (pte : Option Vm.Pte) (bs : List UInt8) : Keeps State.kernel (store pte bs) :=
  .ite (fun _ => .pure _) fun _ => .update fun _ => rfl

theorem allocuvm_returns {oldsz newsz : UInt64} {t : Vm.Pgdir} (hold : Vm.pages oldsz ≤ 2 ^ 35) :
    Returns (vmM (Vm.allocuvm kend t oldsz newsz)) fun r => r.2 = Vm.allocSize oldsz newsz ∧
      Vm.pages r.2 ≤ 2 ^ 35 :=
  .zoom fun _ _ _ h => ⟨(Vm.allocuvm_ok hold h).1, (Vm.allocuvm_ok hold h).2.1⟩

theorem allocuvm_eq {oldsz newsz : UInt64} (h : oldsz ≠ 0) :
    Kernel.allocuvm true oldsz newsz =
      if Vm.allocSize oldsz newsz = 0 then none else some (Vm.allocSize oldsz newsz) := by
  rw [Kernel.allocuvm, Vm.allocSize]
  by_cases hbase : newsz ≥ kernbase
  · simp only [if_pos hbase, if_true]
  · simp only [if_neg hbase]
    by_cases hlt : newsz < oldsz
    · simp only [if_pos hlt, if_neg h]
    · have hne : newsz ≠ 0 := by
        rintro rfl
        exact hlt (UInt64.pos_iff_ne_zero.mpr h)
      simp only [if_neg hlt, if_neg hne, if_true]

theorem setupkvm_returns : Returns (vmM Vm.setupkvm) fun o => o.isSome := by
  refine .zoom fun m o m' h => ?_
  obtain ⟨f, rfl, -⟩ := Vm.setupkvm_ok h
  rfl

theorem commit_refines (t : Vm.Pgdir) (sz : UInt64) :
    Refines State.kernel id (commit kend p t sz) (do
      let x ← Kernel.proc p
      Kernel.setProc p { x with sz }
      pure 0) :=
  .skip (.gets _) fun _ => .skip (.update fun _ => rfl) fun _ => .bind (kernelM_refines _) fun _ =>
    .bind (kernelM_refines _) fun _ => .skip (vmM_keeps _) fun _ => .pure _

theorem bad_refines (t : Vm.Pgdir) : Refines State.kernel id (bad kend t) (pure (-1)) :=
  .skip (vmM_keeps _) fun _ => .pure _

def Sized (sz : UInt64) : Prop := sz ≠ 0 ∧ Vm.pages sz ≤ 2 ^ 35

theorem Sized.toNat_le {sz : UInt64} (h : Sized sz) : sz.toNat ≤ 2 ^ 35 * 4096 := by
  have : (sz.toNat + 4095) / 4096 ≤ 2 ^ 35 := h.2
  omega

theorem Sized.toNat_round {sz : UInt64} (h : Sized sz) : (Vm.pgroundup sz).toNat = Vm.pages sz * 4096 := by
  have := h.toNat_le
  exact Vm.pgroundup_toNat (by omega)

theorem Sized.round {sz : UInt64} (h : Sized sz) : Sized (Vm.pgroundup sz) := by
  have hround := h.toNat_round
  have hpos : 0 < sz.toNat := Nat.pos_of_ne_zero fun e => h.1 (UInt64.toNat_inj.mp e)
  have h1 := Vm.pages_pos hpos
  refine ⟨fun e => ?_, ?_⟩
  · rw [e] at hround
    change 0 = _ at hround
    omega
  · show ((Vm.pgroundup sz).toNat + 4095) / 4096 ≤ 2 ^ 35
    have := h.2
    omega

theorem startImage_refines (argv : List Arg) (t : Vm.Pgdir) {sz : UInt64} (hsz : Sized sz) :
    RefinesSome State.kernel (startImage kend p argv t sz) fun b =>
      (match Kernel.allocuvm b (Vm.pgroundup sz) (Vm.pgroundup sz + 8192) with
      | none => pure (-1)
      | some sz => do
          let x ← Kernel.proc p
          Kernel.setProc p { x with sz }
          pure 0) := by
  have hround := hsz.round
  refine .silent (vmM_keeps _) (allocuvm_returns hround.2) fun ⟨t', sz'⟩ ⟨hsz', _⟩ => ?_
  dsimp only at hsz'
  generalize hnew : Vm.pgroundup sz + 8192 = new at hsz' ⊢
  subst hsz'
  by_cases h0 : Vm.allocSize (Vm.pgroundup sz) new = 0
  · refine .of true ?_
    simp only [allocuvm_eq hround.1, if_pos h0]
    exact bad_refines _
  · simp only [if_neg h0]
    refine .skip (vmM_keeps _) fun t'' => .skip (vmM_keeps _) fun pushed => ?_
    cases pushed with
    | true =>
        refine .of true ?_
        simp only [allocuvm_eq hround.1, if_neg h0]
        exact commit_refines _ _
    | false =>
        refine .of false ?_
        have hlt : ¬ new < Vm.pgroundup sz := by
          have := hround.toNat_le
          rw [← hnew, UInt64.lt_iff_toNat_lt, UInt64.toNat_add]
          change ¬ ((Vm.pgroundup sz).toNat + 8192) % 2 ^ 64 < _
          omega
        have hnone : Kernel.allocuvm false (Vm.pgroundup sz) new = none := by
          rw [Kernel.allocuvm, if_neg hlt]
          simp
        simp only [hnone]
        exact bad_refines _

theorem badFile_refines (o : Option Vm.Pgdir) :
    Refines State.kernel id (badFile kend sb o ip) (do Kernel.fsM (Fs.iunlockput sb ip); pure (-1)) := by
  cases o with
  | none => exact .bind (kernelM_refines _) fun _ => .pure _
  | some t => exact .skip (vmM_keeps _) fun _ => .bind (kernelM_refines _) fun _ => .pure _

section

variable [Fs.Devsw]

theorem loadPages_refines (b : Bool) (t : Vm.Pgdir) (addr : UInt64) (offset sz : UInt32) (fuel : Nat) (i : UInt32) :
    Refines State.kernel id (loadPages sb ip t addr offset sz fuel i)
      (Kernel.loadPages sb (execEnv b) ip addr offset sz fuel i) := by
  induction fuel generalizing i with
  | zero => exact .pure _
  | succ fuel ih =>
      refine .ite (fun _ => .skip (vmM_keeps _) fun o => ?_) fun _ => .pure _
      cases o with
      | none => exact .fail _
      | some pte =>
          exact .bind (kernelM_refines _) fun r => .skip (store_keeps _ _) fun _ => .ite (fun _ => .pure _)
            fun _ => ih _

theorem loaduvm_refines (b : Bool) (t : Vm.Pgdir) (addr : UInt64) (offset sz : UInt32) :
    Refines State.kernel id (loaduvm sb t addr ip offset sz) (Kernel.loaduvm sb (execEnv b) addr ip offset sz) :=
  .ite (fun _ => .fail _) fun _ => loadPages_refines b t addr offset sz _ _

theorem loadSegments_refines (b : Bool) (n i : Nat) (off : UInt32) (t : Vm.Pgdir) {sz : UInt64} (hne : sz ≠ 0)
    (hsz : Vm.pages sz ≤ 2 ^ 35) :
    Refines State.kernel Prod.snd (loadSegments kend sb ip n off t sz)
      (Kernel.loadSegments sb (execEnv b) ip n i off sz) := by
  induction n generalizing i off t sz with
  | zero => exact .pure _
  | succ n ih =>
      refine .bind (kernelM_refines _) fun r => .ite (fun _ => .pure _) fun _ =>
        .ite (fun _ => ih _ _ _ hne hsz) fun _ =>
        .ite (fun _ => .pure _) fun _ => .ite (fun _ => .pure _) fun _ => ?_
      refine .silent (vmM_keeps _) (allocuvm_returns hsz) fun q hq => ?_
      obtain ⟨t', sz'⟩ := q
      obtain ⟨rfl, hsz'⟩ := hq
      simp only [show (execEnv b).allocuvm i = true from rfl, allocuvm_eq hne]
      by_cases h0 : Vm.allocSize sz (UInt64.ofNat (Bytes.field r.2 16 8) + UInt64.ofNat (Bytes.field r.2 40 8)) = 0
      · simp only [if_pos h0]
        exact .pure _
      · simp only [if_neg h0]
        refine .ite (fun _ => .pure _) fun _ => .bind (loaduvm_refines b _ _ _ _) fun loaded => ?_
        exact .ite (fun _ => ih _ _ _ h0 hsz') fun _ => .pure _

theorem loadImage_refines (b : Bool) :
    Refines State.kernel Prod.snd (loadImage kend sb ip) (Kernel.loadImage sb (execEnv b) ip) := by
  refine .bind (kernelM_refines _) fun r => .ite (fun _ => .pure _) fun _ => .ite (fun _ => .pure _) fun _ => ?_
  refine .silent (vmM_keeps _) setupkvm_returns fun o ho => ?_
  obtain ⟨t, rfl⟩ := Option.isSome_iff_exists.mp ho
  exact .after (loadSegments_refines b _ _ _ _ (by decide) (by decide)) fun q => .pure _

theorem loadSegments_returns (n : Nat) (off : UInt32) (t : Vm.Pgdir) {sz : UInt64} (hsz : Sized sz) :
    Returns (loadSegments kend sb ip n off t sz) fun q => ∀ sz ∈ q.2, Sized sz := by
  induction n generalizing off t sz with
  | zero =>
      refine .pure fun sz' h => ?_
      cases h
      exact hsz
  | succ n ih =>
      have hnone {t : Vm.Pgdir} : Returns (pure (t, none) : MM (Vm.Pgdir × Option UInt64)) fun q => ∀ sz ∈ q.2,
        Sized sz :=
        .pure (by rintro _ ⟨⟩)
      refine .bind .any fun r _ => .ite (fun _ => hnone) fun _ => .ite (fun _ => ih _ _ hsz) fun _ =>
        .ite (fun _ => hnone) fun _ => .ite (fun _ => hnone) fun _ => .bind (allocuvm_returns hsz.2) fun q hq => ?_
      refine .ite (fun _ => hnone) fun h0 => .ite (fun _ => hnone) fun _ => .bind .any fun loaded _ => ?_
      exact .ite (fun _ => ih _ _ ⟨h0, hq.2⟩) fun _ => hnone

theorem loadImage_returns : Returns (loadImage kend sb ip) fun q => ∀ sz ∈ q.2, q.1.isSome ∧ Sized sz := by
  have hnone : Returns (pure (none, none) : MM (Option Vm.Pgdir × Option UInt64))
      fun q => ∀ sz ∈ q.2, q.1.isSome ∧ Sized sz := .pure (by rintro _ ⟨⟩)
  refine .bind .any fun r _ => .ite (fun _ => hnone) fun _ => .ite (fun _ => hnone) fun _ =>
    .bind .any fun o _ => ?_
  cases o with
  | none => exact hnone
  | some t =>
      refine .bind (loadSegments_returns _ _ _ ⟨by decide, by decide⟩) fun q hq => .pure fun sz hsz => ?_
      exact ⟨rfl, hq sz hsz⟩

theorem exec_refines (path : List UInt8) (argv : List Arg) :
    RefinesSome State.kernel (exec kend sb p path argv) fun b => Kernel.exec sb p path (execEnv b) := by
  refine .bind (fun _ => kernelM_refines _) fun c => .bind (fun _ => kernelM_refines _) fun o => ?_
  cases o with
  | none => exact .of true (.pure _)
  | some ip =>
      refine .bind (fun _ => kernelM_refines _) fun _ => .bindOf loadImage_refines loadImage_returns fun q hq => ?_
      obtain ⟨t, _ | sz⟩ := q
      · cases t <;> exact .of true (badFile_refines _)
      · obtain ⟨hsome, hsz⟩ := hq sz rfl
        obtain ⟨t, rfl⟩ := Option.isSome_iff_exists.mp hsome
        refine .bind (fun _ => kernelM_refines _) fun _ => ?_
        have hround : (sz + 4095) &&& ~~~4095 = Vm.pgroundup sz := rfl
        simp only [hround, execEnv]
        intro s a s' hs
        obtain ⟨b, hb⟩ := startImage_refines argv t hsz s a s' hs
        refine ⟨b, ?_⟩
        beta_reduce at hb ⊢
        generalize Kernel.allocuvm b (Vm.pgroundup sz) (Vm.pgroundup sz + 8192) = o at hb ⊢
        cases o <;> exact hb

theorem sysExec_refines (path : Option (List UInt8)) (argv : Option (List Arg)) :
    RefinesSome State.kernel (sysExec kend sb p path argv) fun b => Kernel.sysExec sb p path argv.isSome
      (execEnv b) := by
  cases path with
  | none => exact .of true (.pure _)
  | some path =>
      cases argv with
      | none => exact .of true (.pure _)
      | some argv => exact exec_refines path argv

end

end Exec

end Xv6.Machine
