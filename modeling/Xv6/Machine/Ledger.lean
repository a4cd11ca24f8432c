import Xv6.Machine.Refinement

namespace Xv6.Machine

open Lib
open Lib.Exec hiding update
open Function (update update_eq_self update_eq_self_iff update_idem update_of_ne update_self)

variable {kend : Nat} {sb : Fs.Layout} {p : Fin nproc} {s t : State}

def view (k : Kernel.State) (q : Fin nproc) : UInt64 × Kernel.ProcState := ((k.ptable q).sz, (k.ptable q).state)

def pipePages (k : Kernel.State) : (Nat → Nat) × (Nat → Nat) := (k.kallocs, k.kfrees)

def ledger (s : State) (g : Nat) : Int := s.mem.freelist.count g + s.kernel.kallocs g - s.kernel.kfrees g

def procPages (s : State) :
    (Fin nproc → Option Nat) × (Fin nproc → Option Vm.Pgdir) × (Fin nproc → UInt64 × Kernel.ProcState) :=
  (s.kstack, s.pgdir, view s.kernel)

section Kernel

variable {α β : Type} {g : Kernel.State → β}

theorem fsM_keeps (h : ∀ k fs, g { k with fs } = g k) (m : Fs.FsM α) : Keeps g (Kernel.fsM m) := .zoom h

theorem setOfile_view (fd : Fin nofile) (o : Option (Fin nfile)) : Keeps view (Kernel.setOfile p fd o) := by
  refine fun k => ?_
  simp only [Kernel.setOfile, Kernel.proc, Kernel.setProc, wp_bind, wp_gets, wp_update]
  funext q
  by_cases hq : q = p
  · subst hq
    simp [view]
  · simp [view, hq]

theorem setOfile_pipePages (fd : Fin nofile) (o : Option (Fin nfile)) : Keeps pipePages (Kernel.setOfile p fd o) :=
  .bind (.gets _) fun _ => .update fun _ => rfl

theorem fdalloc_keeps (h : ∀ fd o, Keeps g (Kernel.setOfile p fd o)) (f : Fin nfile) :
    Keeps g (Kernel.fdalloc p f) := by
  refine .bind (.gets _) fun x => ?_
  cases Kernel.freeFd x.ofile with
  | none => exact .pure _
  | some fd => exact .bind (h fd (some f)) fun _ => .pure _

theorem fileclose_view (f : Fin nfile) : Keeps view (Kernel.fileclose sb f) := by
  refine .bind (.gets _) fun ff => .ite (fun _ => .fail _) fun _ => .ite (fun _ => .update fun _ => rfl) fun _ =>
    .bind (.update fun _ => rfl) fun _ => ?_
  rw [Kernel.closeLast]
  cases ff.type with
  | none => exact .pure _
  | pipe =>
      refine .bind (.gets _) fun x => .bind (.update fun _ => rfl) fun _ => ?_
      exact .ite (fun _ => .update fun _ => rfl) fun _ => .pure _
  | inode => exact fsM_keeps (fun _ _ => rfl) _

theorem fileclose_frees (f : Fin nfile) (k : Kernel.State) :
    wp (Kernel.fileclose sb f) (fun _ k' => k'.kallocs = k.kallocs ∧ (k'.kfrees = k.kfrees ∨
      k'.kfrees = update k.kfrees (k.ftable f).pipe (k.kfrees (k.ftable f).pipe + 1)))
        (fun _ => True) k := by
  simp only [Kernel.fileclose, Kernel.file, Kernel.setFile, wp_bind, wp_gets]
  refine wp_ite.mpr ⟨fun _ => trivial, fun _ => wp_ite.mpr ⟨fun _ => ⟨rfl, .inl rfl⟩, fun _ => ?_⟩⟩
  rw [wp_bind, wp_update, Kernel.closeLast]
  cases (k.ftable f).type with
  | none => exact ⟨rfl, .inl rfl⟩
  | pipe =>
      simp only [Kernel.pipeclose, Kernel.pipe, Kernel.setPipe, wp_bind, wp_gets, wp_update]
      exact wp_ite.mpr ⟨fun _ => ⟨rfl, .inr rfl⟩, fun _ => ⟨rfl, .inl rfl⟩⟩
  | inode =>
      rw [Kernel.fsM, wp_zoom]
      exact wp_iff.mpr ⟨fun _ _ _ => ⟨rfl, .inl rfl⟩, fun _ _ => trivial⟩

end Kernel

section Keeps

variable {α : Type}

theorem kernelM_ledger {m : Kernel.KM α} (h : Keeps pipePages m) : Keeps ledger (kernelM m) := by
  intro s
  rw [kernelM, wp_zoom]
  refine (h s.kernel).imp fun a k hk => ?_
  obtain ⟨h1, h2⟩ := Prod.mk.inj hk
  funext g
  simp only [ledger, h1, h2]

theorem kernelM_procPages {m : Kernel.KM α} (h : Keeps view m) : Keeps procPages (kernelM m) := by
  intro s
  rw [kernelM, wp_zoom]
  refine (h s.kernel).imp fun a k hk => ?_
  simp only [procPages, hk]

theorem fileclose_procPages (f : Fin nfile) : Keeps procPages (fileclose kend sb f) :=
  .bind (kernelM_gets_keeps _) fun _ => .bind (.gets _) fun _ => .bind (kernelM_procPages (fileclose_view f))
    fun _ =>
    .bind (.gets _) fun _ => .ite (fun _ => .zoom fun _ _ => rfl) fun _ => .pure _

theorem fileclose_ledger (f : Fin nfile) : Keeps ledger (fileclose kend sb f) := by
  intro s
  simp only [fileclose, kernelM, vmM, Kernel.file, wp_bind, wp_zoom, wp_gets]
  refine (fileclose_frees f s.kernel).imp ?_
  rintro _ k ⟨halloc, hfree⟩
  refine wp_ite.mpr ⟨fun hlt => ?_, fun hnot => ?_⟩
  · rw [wp_zoom]
    refine wp_iff.mpr ⟨fun _ m hm => ?_, fun _ _ => trivial⟩
    obtain rfl : m = ⟨(s.kernel.ftable f).pipe :: s.mem.freelist⟩ := Vm.kfree_ok hm
    rcases hfree with hfree | hfree
    · rw [hfree] at hlt
      exact absurd hlt (lt_irrefl _)
    · funext g
      simp only [ledger, halloc, hfree, List.count_cons, beq_iff_eq]
      by_cases hg : (s.kernel.ftable f).pipe = g
      · subst hg
        simp only [if_true, update_self]
        push_cast
        omega
      · simp only [if_neg hg, update_of_ne (Ne.symm hg), Nat.add_zero]
  · rcases hfree with hfree | hfree
    · funext g
      simp only [ledger, halloc, hfree]
    · rw [hfree, update_self] at hnot
      omega

theorem argfd_keeps {β : Type} {g : Kernel.State → β} (fd : Int) : Keeps g (Kernel.argfd p fd) := by
  refine .bind (.gets _) fun x => ?_
  show Keeps g (if h : fd.toNat < nofile then (if fd < 0 then _ else _) else _)
  split
  · exact .ite (fun _ => .pure _) fun _ => .pure _
  · exact .pure _

def books (s : State) : (Nat → Int) × (Fin nproc → Option Nat) × (Fin nproc → Option Vm.Pgdir) ×
    (Fin nproc → UInt64 × Kernel.ProcState) :=
  (ledger s, procPages s)

theorem keeps_books {m : MM α} (h : Keeps ledger m) (h' : Keeps procPages m) : Keeps books m := fun s =>
  ((h s).and (h' s)).imp fun _ _ ⟨h1, h2⟩ => congrArg₂ Prod.mk h1 h2

theorem kernelM_books {m : Kernel.KM α} (h : Keeps pipePages m) (h' : Keeps view m) : Keeps books (kernelM m) :=
  keeps_books (kernelM_ledger h) (kernelM_procPages h')

theorem fileclose_books (f : Fin nfile) : Keeps books (fileclose kend sb f) :=
  keeps_books (fileclose_ledger f) (fileclose_procPages f)

theorem setOfile_books (fd : Fin nofile) (o : Option (Fin nfile)) :
    Keeps books (kernelM (Kernel.setOfile p fd o)) :=
  kernelM_books (setOfile_pipePages fd o) (setOfile_view fd o)

theorem sysClose_books (fd : Int) : Keeps books (sysClose kend sb p fd) := by
  refine .bind (kernelM_books (argfd_keeps fd) (argfd_keeps fd)) fun o => ?_
  cases o with
  | none => exact .pure _
  | some a => exact .bind (setOfile_books _ _) fun _ => .bind (fileclose_books _) fun _ => .pure _

theorem closeFiles_books (fds : List (Fin nofile)) : Keeps books (closeFiles kend sb p fds) := by
  induction fds with
  | nil => exact .pure _
  | cons fd fds ih =>
      refine .bind (kernelM_gets_keeps _) fun x => ?_
      cases x.ofile fd with
      | none => exact ih
      | some f => exact .bind (fileclose_books f) fun _ => .bind (setOfile_books fd none) fun _ => ih

end Keeps

section Pipe

theorem fileclose_fresh {f : Fin nfile} {k : Kernel.State} (h : (k.ftable f).type = .none) :
    wp (Kernel.fileclose sb f) (fun _ k' => pipePages k' = pipePages k) (fun _ => True) k := by
  simp only [Kernel.fileclose, Kernel.file, Kernel.setFile, wp_bind, wp_gets]
  refine wp_ite.mpr ⟨fun _ => trivial, fun _ => wp_ite.mpr ⟨fun _ => rfl, fun _ => ?_⟩⟩
  rw [wp_bind, wp_update, Kernel.closeLast, h]
  exact rfl

theorem filealloc_view : Keeps view Kernel.filealloc := by
  refine .bind (.gets _) fun t => ?_
  cases Kernel.freeFile t with
  | none => exact .pure _
  | some f => exact .bind (.gets _) fun _ => .bind (.update fun _ => rfl) fun _ => .pure _

theorem pipeallocBad_view (f0 f1 : Option (Fin nfile)) : Keeps view (Kernel.pipeallocBad sb f0 f1) := by
  refine .bind ?_ fun _ => .bind ?_ fun _ => .pure _
  · cases f0 with
    | none => exact .pure _
    | some f => exact fileclose_view f
  · cases f1 with
    | none => exact .pure _
    | some f => exact fileclose_view f

theorem kalloc_keeps {β : Type} {g : Kernel.State → β} (mem : Kernel.Kalloc) : Keeps g (Kernel.kalloc mem) := by
  cases mem with
  | page q => exact .pure _
  | null => exact .pure _
  | exhausted => exact .fail _

theorem pipealloc_view (mem : Kernel.Kalloc) : Keeps view (Kernel.pipealloc sb mem) := by
  refine .bind filealloc_view fun o => ?_
  cases o with
  | none => exact pipeallocBad_view _ _
  | some f0 =>
      refine .bind filealloc_view fun o => ?_
      cases o with
      | none => exact pipeallocBad_view _ _
      | some f1 =>
          refine .bind (kalloc_keeps mem) fun o => ?_
          cases o with
          | none => exact pipeallocBad_view _ _
          | some q =>
              exact .bind (.update fun _ => rfl) fun _ => .bind (.gets _) fun _ =>
                .bind (.update fun _ => rfl) fun _ => .bind (.gets _) fun _ => .bind (.update fun _ => rfl) fun _ =>
                  .bind (.gets _) fun _ => .bind (.update fun _ => rfl) fun _ => .pure _

def taken (a : Nat → Nat) : List Nat → Bool → Nat → Nat
  | q :: _, true => update a q (a q + 1)
  | _, _ => a

theorem taken_false (a : Nat → Nat) (l : List Nat) : taken a l false = a := by cases l <;> rfl

theorem pipealloc_takes {k : Kernel.State} (h : Kernel.Counted k) (l : List Nat) :
    wp (Kernel.pipealloc sb (firstPage l)) (fun r k' => k'.kfrees = k.kfrees ∧
      k'.kallocs = taken k.kallocs l r.isSome)
      (fun _ => True) k := by
  refine (Kernel.filealloc_spec h.files).bind fun o k₁ h₁ => ?_
  cases o with
  | none =>
      subst h₁
      exact ⟨rfl, (taken_false _ _).symm⟩
  | some f =>
      obtain ⟨-, hft, hk₁, rfl⟩ := h₁
      refine (Kernel.filealloc_spec hk₁).bind fun o k₂ h₂ => ?_
      cases o with
      | none =>
          subst h₂
          refine wp_bind.mpr ((fileclose_fresh (by simp [Kernel.File.setRef, hft])).imp fun _ k₃ h₃ => ?_)
          obtain ⟨ha, hf⟩ := Prod.mk.inj h₃
          exact ⟨hf, ha.trans (taken_false _ _).symm⟩
      | some g =>
          obtain ⟨-, -, -, rfl⟩ := h₂
          cases l with
          | nil => exact trivial
          | cons q l => exact ⟨rfl, rfl⟩

theorem pipealloc_books (h : Kernel.Counted s.kernel) :
    wp (pipealloc sb) (fun _ s' => books s' = books s) (fun _ => True) s := by
  simp only [pipealloc, wp_bind, wp_gets]
  cases hl : s.mem.freelist with
  | nil =>
      rw [kernelM, wp_zoom]
      refine ((pipealloc_takes h []).and (pipealloc_view _ s.kernel)).imp ?_
      rintro r k ⟨⟨hf, ha⟩, hv⟩
      refine congrArg₂ Prod.mk (funext fun g => ?_) ?_
      · simp only [ledger, hf, ha, taken]
      · simp only [procPages, hv]
  | cons q next =>
      simp only [kernelM, wp_bind, wp_zoom]
      refine ((pipealloc_takes h (q :: next)).and (pipealloc_view _ s.kernel)).imp ?_
      rintro r k ⟨⟨hf, ha⟩, hv⟩
      cases r with
      | none =>
          refine congrArg₂ Prod.mk (funext fun g => ?_) ?_
          · simp only [ledger, hf, ha, Option.isSome_none, taken]
          · simp only [procPages, hv]
      | some ff =>
          simp only [wp_bind, wp_update, wp_pure]
          refine congrArg₂ Prod.mk (funext fun g => ?_) ?_
          · simp only [ledger, hf, ha, Option.isSome_some, taken, hl, List.count_cons, beq_iff_eq]
            by_cases hg : q = g
            · subst hg
              simp only [if_true, update_self]
              push_cast
              omega
            · simp only [if_neg hg, update_of_ne (Ne.symm hg), Nat.add_zero]
          · simp only [procPages, hv]

theorem fdalloc_books (f : Fin nfile) : Keeps books (kernelM (Kernel.fdalloc p f)) :=
  kernelM_books (fdalloc_keeps setOfile_pipePages f) (fdalloc_keeps setOfile_view f)

/-- Wherever the stores go, they change nothing but the file table. -/
theorem storeBytes_keeps {β : Type} {g : Kernel.State → β} (hg : ∀ k ftable, g { k with ftable } = g k) (a : UInt64)
    (bs : List UInt8) : Keeps g (Kernel.storeBytes p a bs) := by
  induction bs generalizing a with
  | nil => exact .pure _
  | cons b bs ih =>
      refine .bind (.bind (.gets _) fun x => ?_) fun _ => ih _
      refine .ite (fun _ => .pure _) fun _ => .bind (.gets _) fun base => ?_
      dsimp only
      split
      next h =>
        refine .bind (.gets _) fun y => ?_
        cases y.poke ((a - base).toNat % 40) b with
        | none => exact .fail _
        | some y => exact .update fun k => hg k _
      next => exact .fail _

theorem sysPipe_books (h : Kernel.Counted s.kernel) (arg junk : UInt64) :
    wp (sysPipe kend sb p arg junk) (fun _ s' => books s' = books s) (fun _ => True) s := by
  simp only [sysPipe, kernelM, Kernel.proc, wp_bind, wp_zoom, wp_gets]
  refine wp_ite.mpr ⟨fun _ => rfl, fun _ => wp_bind.mpr ((pipealloc_books h).imp fun o s₁ h₁ => ?_)⟩
  rw [← h₁]
  cases o with
  | none => exact rfl
  | some ff =>
      refine Keeps.bind (fdalloc_books _) (fun o => ?_) s₁
      cases o with
      | none => exact .bind (fileclose_books _) fun _ => .bind (fileclose_books _) fun _ => .pure _
      | some fd0 =>
          refine .bind (fdalloc_books _) fun o => ?_
          cases o with
          | none =>
              exact .bind (setOfile_books _ _) fun _ => .bind (fileclose_books _) fun _ =>
                .bind (fileclose_books _) fun _ => .pure _
          | some fd1 =>
              exact .bind (kernelM_books (storeBytes_keeps (fun _ _ => rfl) _ _)
                (storeBytes_keeps (fun _ _ => rfl) _ _))
                fun _ => .pure _

end Pipe

section Exit

theorem cwd_keeps {β : Type} {g : Kernel.State → β} : Keeps g (Kernel.cwd p) := by
  refine .bind (.gets _) fun x => ?_
  cases x.cwd with
  | none => exact .fail _
  | some i => exact .pure _

theorem view_update {k : Kernel.State} {q : Fin nproc} {x : Kernel.Proc} :
    view { k with ptable := update k.ptable q x } = update (view k) q (x.sz, x.state) := by
  funext r
  by_cases hr : r = q
  · subst hr
    simp [view]
  · simp [view, hr]

theorem setProc_view (x : Kernel.Proc) (k : Kernel.State) :
    wp (Kernel.setProc p x) (fun _ k' =>
      view k' = update (view k) p (x.sz, x.state) ∧ pipePages k' = pipePages k) (fun _ => True) k :=
  ⟨view_update, rfl⟩

theorem setProc_pipePages (x : Kernel.Proc) : Keeps pipePages (Kernel.setProc p x) := .update fun _ => rfl

theorem setCwd_view (o : Option (Fin ninode)) : Keeps view (Kernel.setCwd p o) := fun k => by
  simp only [Kernel.setCwd, Kernel.proc, Kernel.setProc, wp_bind, wp_gets, wp_update]
  rw [view_update]
  exact update_eq_self p (view k)

theorem setCwd_pipePages (o : Option (Fin ninode)) : Keeps pipePages (Kernel.setCwd p o) :=
  .bind (.gets _) fun _ => setProc_pipePages _

theorem setProcState_view (st : Kernel.ProcState) (k : Kernel.State) :
    wp (Kernel.setProcState p st) (fun _ k' => view k' = update (view k) p ((view k p).1, st))
      (fun _ => True) k := by
  simp only [Kernel.setProcState, Kernel.proc, Kernel.setProc, wp_bind, wp_gets, wp_update]
  exact view_update

theorem setProcState_pipePages (st : Kernel.ProcState) : Keeps pipePages (Kernel.setProcState p st) :=
  .bind (.gets _) fun _ => setProc_pipePages _

theorem leave_pipePages : Keeps pipePages (leave sb p) :=
  .bind cwd_keeps fun _ => .bind (fsM_keeps (fun _ _ => rfl) _) fun _ => .bind (setCwd_pipePages _) fun _ =>
    .bind (.update fun _ => rfl) fun _ => setProcState_pipePages _

theorem view_congr {k : Kernel.State} {T : Fin nproc → Kernel.Proc} (h : ∀ q, (T q).sz = (k.ptable q).sz)
    (h' : ∀ q, (T q).state = (k.ptable q).state) : view { k with ptable := T } = view k :=
  funext fun q => congrArg₂ Prod.mk (h q) (h' q)

theorem leave_view (k : Kernel.State) :
    wp (leave sb p) (fun _ k' => view k' = update (view k) p ((view k p).1, .zombie))
      (fun _ => True) k := by
  refine wp_bind.mpr ((cwd_keeps (g := view) k).imp fun c k₁ h₁ => wp_bind.mpr
    ((fsM_keeps (g := view) (fun _ _ => rfl) _ k₁).imp fun _ k₂ h₂ => wp_bind.mpr
      ((setCwd_view none k₂).imp fun _ k₃ h₃ => ?_)))
  have hview : view k₃ = view k := h₃.trans (h₂.trans h₁)
  rw [wp_bind, wp_update, ← hview, ← view_congr (k := k₃)]
  · exact setProcState_view .zombie _
  · intro q
    split <;> rfl
  · intro q
    split <;> rfl

end Exit

section Fork

theorem dupFiles_keeps {β : Type} {g : Kernel.State → β} (p : Fin nproc) {np : Fin nproc}
    (hset : ∀ fd o, Keeps g (Kernel.setOfile np fd o))
    (hfile : ∀ k t, g { k with ftable := t } = g k) (fds : List (Fin nofile)) : Keeps g
    (Kernel.dupFiles p np fds) := by
  induction fds with
  | nil => exact .pure _
  | cons fd fds ih =>
      refine .bind (.gets _) fun x => ?_
      cases x.ofile fd with
      | none => exact ih
      | some f =>
          refine .bind (.bind (.gets _) fun y => .ite (fun _ => .fail _) fun _ => .update fun k => hfile k _)
            fun _ => ?_
          exact .bind (hset fd (some f)) fun _ => ih

theorem fork_fails {k : Kernel.State} {mem : Kernel.Kalloc} :
    wp (Kernel.fork p mem false) (fun _ k' => view k' = view k ∧ pipePages k' = pipePages k) (fun _ => True) k := by
  have hundo {k : Kernel.State} {np : Fin nproc} {x : Kernel.Proc} (hfree : (k.ptable np).state = .unused)
      (hx : x.sz = (k.ptable np).sz) (pid : Nat) :
      wp (Kernel.setProcState np .unused) (fun _ k' => view k' = view k ∧ pipePages k' = pipePages k)
        (fun _ => True)
        { k with ptable := update k.ptable np x, nextpid := pid } := by
    simp only [Kernel.setProcState, Kernel.proc, Kernel.setProc, wp_bind, wp_gets, wp_update, update_self,
      update_idem]
    refine ⟨?_, rfl⟩
    have := view_update (k := k) (q := np) (x := { x with state := .unused })
    refine this.trans (update_eq_self_iff.mpr ?_)
    exact congrArg₂ Prod.mk hx hfree.symm
  simp only [Kernel.fork, Kernel.allocproc, wp_bind, wp_gets]
  cases hf : Kernel.freeProc k.ptable with
  | none => exact ⟨rfl, rfl⟩
  | some np =>
      have hfree := Kernel.freeProc_spec hf
      simp only [Kernel.proc, Kernel.setProc, wp_bind, wp_gets, wp_update]
      cases mem with
      | page q =>
          simp only [Kernel.kalloc, wp_pure, Bool.false_eq_true, if_false, wp_bind]
          refine (hundo hfree ?_ _).imp fun _ _ h => h
          rfl
      | null =>
          simp only [Kernel.kalloc, wp_pure, wp_bind]
          refine (hundo hfree ?_ _).imp fun _ _ h => h
          rfl
      | exhausted => exact trivial

theorem fork_tail {k : Kernel.State} {np : Fin nproc} :
    wp (do
        Kernel.dupFiles p np (List.finRange nofile)
        let c ← Kernel.cwd p
        let c ← Kernel.fsM (Fs.idupM c)
        Kernel.setCwd np (some c)
        Kernel.setProcState np .runnable
        let n ← Kernel.proc np
        pure (n.pid : Int))
      (fun _ k' => view k' = update (view k) np ((view k np).1, .runnable) ∧ pipePages k' = pipePages k)
      (fun _ => True) k := by
  have hfiles := ((dupFiles_keeps p (setOfile_view (p := np)) (fun _ _ => rfl) (List.finRange nofile) k).and
    (dupFiles_keeps p setOfile_pipePages (fun _ _ => rfl) (List.finRange nofile) k))
  refine hfiles.bind fun _ k₁ ⟨hv₁, hp₁⟩ => ((cwd_keeps (g := id) k₁)).bind fun c k₂ h₂ => ?_
  obtain rfl : k₂ = k₁ := h₂
  refine ((fsM_keeps (g := view) (fun _ _ => rfl) _ k₂).and (fsM_keeps (g := pipePages) (fun _ _ => rfl) _ k₂)).bind
    fun c k₃ ⟨hv₃, hp₃⟩ => ?_
  refine ((setCwd_view _ k₃).and (setCwd_pipePages _ k₃)).bind fun _ k₄ ⟨hv₄, hp₄⟩ => ?_
  refine ((setProcState_view _ k₄).and (setProcState_pipePages _ k₄)).bind fun _ k₅ ⟨hv₅, hp₅⟩ => ⟨?_, ?_⟩
  · rw [hv₅, hv₄, hv₃, hv₁]
  · rw [hp₅, hp₄, hp₃, hp₁]

theorem fork_succeeds {k : Kernel.State} {q : Nat} {np : Fin nproc} (hf : Kernel.freeProc k.ptable = some np) :
    wp (Kernel.fork p (.page q) true) (fun _ k' =>
      view k' = update (view k) np ((view k p).1, .runnable) ∧ pipePages k' = pipePages k)
        (fun _ => True) k := by
  have halloc : Kernel.allocproc (.page q) k = .ok (some np, { k with
      ptable := update k.ptable np { k.ptable np with state := .embryo, pid := k.nextpid },
      nextpid := k.nextpid + 1 }) := by
    rw [Kernel.allocproc, bind_ok (a := k.ptable) (t := k) rfl, hf]
    rfl
  rw [Kernel.fork, wp_bind_ok halloc]
  have hv := view_update (k := { k with nextpid := k.nextpid + 1 }) (q := np)
    (x := { k.ptable np with state := .embryo, pid := k.nextpid })
  generalize hk₁ : ({ k with
      ptable := update k.ptable np { k.ptable np with state := .embryo, pid := k.nextpid },
      nextpid := k.nextpid + 1 } : Kernel.State) = k₁ at hv ⊢
  have hp₁ : pipePages k₁ = pipePages k := by rw [← hk₁]; rfl
  have hsz : (view k₁ p).1 = (view k p).1 := by
    rw [hv]
    by_cases h : p = np
    · subst h
      rw [update_self]
      rfl
    · rw [update_of_ne h]
      rfl
  simp only [if_true]
  refine (wp_bind_ok (a := k₁.ptable p) (t := k₁) rfl).mpr ((wp_bind_ok (a := k₁.ptable np) (t := k₁) rfl).mpr ?_)
  refine (setProc_view _ k₁).bind ?_
  rintro _ k₂ ⟨hv₂, hp₂⟩
  refine fork_tail.imp ?_
  rintro _ k' ⟨hv', hp'⟩
  refine ⟨?_, ?_⟩
  · rw [hv', hv₂, hv, update_idem, update_idem, update_self]
    exact congrArg _ (congrArg₂ Prod.mk hsz rfl)
  · rw [hp', hp₂, hp₁]

theorem wait_view {k : Kernel.State} {q : Fin nproc}
    (hq : (List.finRange nproc).find? (fun q => (k.ptable q).parent = some p ∧ (k.ptable q).state = .zombie) =
    some q) :
    wp (Kernel.wait p) (fun _ k' =>
      view k' = update (view k) q ((view k q).1, .unused) ∧ pipePages k' = pipePages k)
        (fun _ => True) k := by
  simp only [Kernel.wait, wp_bind, wp_gets, hq, Kernel.setProc, wp_update, wp_pure]
  exact ⟨view_update, rfl⟩

theorem wait_fails {k : Kernel.State}
    (hq : (List.finRange nproc).find? (fun q => (k.ptable q).parent = some p ∧ (k.ptable q).state = .zombie) =
    none) :
    wp (Kernel.wait p) (fun _ k' => k' = k) (fun _ => True) k := by
  simp only [Kernel.wait, wp_bind, wp_gets, hq]
  exact wp_ite.mpr ⟨fun _ => rfl, fun _ => trivial⟩

end Fork

end Xv6.Machine
