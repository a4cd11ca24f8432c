import Xv6.Machine.Pages

namespace Xv6.Machine

open Lib Lib.Exec Lib.UpdateSum Finset

variable {kend : Nat} {sb : Fs.Layout} {p : Fin nproc} {s s' : State} {pool : Finset Nat}

section Calls

theorem Placed.fresh (h : Placed kend pool s) : (firstPage s.mem.freelist).Fresh s.kernel := by
  cases hl : s.mem.freelist with
  | nil => trivial
  | cons q next =>
      show s.kernel.kallocs q = s.kernel.kfrees q
      have hone := h.once q
      have hle : held s q ≤ 1 := by
        rw [hone]
        split <;> omega
      simp only [held, ledger, hl, List.count_cons_self] at hle
      by_cases hu : Kernel.InUse s.kernel.ftable q
      · have := h.counted.files.pipes.used q hu
        omega
      · exact h.counted.files.pipes.unused q hu

theorem placed_of_wp {α : Type} {m : MM α} (hb : wp m (fun _ s' => Booked kend pool s') (fun _ => True) s)
    (hc : wp m (fun _ s' => Kernel.Counted s'.kernel) (fun _ => True) s) :
    wp m (fun _ s' => Placed kend pool s') (fun _ => True) s := (hb.and hc).imp fun _ _ h => ⟨h.1, h.2⟩

theorem sysPipe_placed (h : Placed kend pool s) (hp : ¬ (s.kernel.ptable p).Dead) {arg junk : UInt64}
    (hptr : Kernel.UserPtr (s.kernel.ptable p).sz (Kernel.argptr (s.kernel.ptable p).sz arg junk 8).2 8) :
    wp (sysPipe kend sb p arg junk) (fun _ s' => Placed kend pool s') (fun _ => True) s := by
  refine placed_of_wp ((sysPipe_books h.counted arg junk).imp fun _ _ => h.of_books) ?_
  refine wp_iff.mpr ⟨fun r t ht => ?_, fun _ _ => trivial⟩
  exact (wp_iff.mp (Kernel.sysPipe_counted h.counted hp hptr h.fresh)).1 r _ (sysPipe_refines ht)

theorem exit_placed (h : Placed kend pool s) (hp : ¬ (s.kernel.ptable p).Dead) :
    wp (exit kend sb p) (fun _ s' => Placed kend pool s') (fun _ => True) s :=
  placed_of_wp (exit_booked h.toBooked fun hu => hp (.inl hu)) (exit_refines.wp (Kernel.exit_counted h.counted))

/-- A call is made by a process that has not exited, and the pointer through which `pipe` stores is one to the
memory of the process. -/
def Call.Ready (s : State) (a : Fin nproc × Call) : Prop :=
  ¬ (s.kernel.ptable a.1).Dead ∧ match a.2 with
    | .pipe arg junk =>
        Kernel.UserPtr (s.kernel.ptable a.1).sz (Kernel.argptr (s.kernel.ptable a.1).sz arg junk 8).2 8
    | _ => True

instance (s : State) (a : Fin nproc × Call) : Decidable (Call.Ready s a) := by
  unfold Call.Ready
  refine @instDecidableAnd _ _ _ ?_
  split <;> infer_instance

theorem Call.run_placed [Fs.Devsw] (hk : 0 < kend) (h : Placed kend pool s) {c : Call}
    (hc : Call.Ready s (p, c)) : wp (c.run kend sb p) (fun _ s' => Placed kend pool s') (fun _ => True) s := by
  have hp : ¬ (s.kernel.ptable p).Dead := hc.1
  cases c with
  | fork =>
      exact placed_of_wp (fork_booked h.toBooked) (fork_refines.wp fun a =>
        Kernel.fork_counted h.counted hp a.1 a.2)
  | exec path argv =>
      exact placed_of_wp (sysExec_booked h.toBooked path argv)
        ((sysExec_refines path argv).wp fun b => Kernel.sysExec_counted h.counted path _ _)
  | sbrk n => exact growproc_placed hk h n
  | pipe arg junk => exact sysPipe_placed h hp hc.2
  | close fd =>
      exact placed_of_wp ((sysClose_books fd s).imp fun _ _ => h.of_books)
        ((sysClose_refines fd).wp (Kernel.sysClose_counted h.counted hp fd))
  | exit => exact (exit_placed h hp).bind fun _ _ h' => h'
  | wait => exact placed_of_wp (wait_booked h.toBooked) (wait_refines.wp (Kernel.wait_counted h.counted))

theorem Call.of_step [Fs.Devsw] {a : Fin nproc × Call} {Q : State → Prop}
    (hst : Call.step kend sb s a = some s')
    (hrun : wp (a.2.run kend sb a.1) (fun _ t => Q t) (fun _ => True) s) : Q s' := by
  rw [Call.step] at hst
  rw [wp] at hrun
  split at hst
  next hm =>
    cases hst
    rw [hm] at hrun
    exact hrun
  next => cases hst

theorem Call.step_placed [Fs.Devsw] (hk : 0 < kend) (h : Placed kend pool s) {a : Fin nproc × Call}
    (ha : Call.Ready s a) (hst : Call.step kend sb s a = some s') : Placed kend pool s' :=
  Call.of_step hst (Call.run_placed hk h ha)

end Calls

/-- The places that a page is in: the free list, kernel stacks, page tables with the pages that they map, and the
buffer of a pipe that is open. -/
def places (s : State) (g : Nat) : Nat :=
  s.mem.freelist.count g + #{p | s.kstack p = some g} + ∑ p, (s.pgdir p).elim 0 (Vm.pageCount g) +
    if Kernel.InUse s.kernel.ftable g then 1 else 0

theorem Placed.places_eq (h : Placed kend pool s) (g : Nat) : places s g = if g ∈ pool then 1 else 0 := by
  have hone : held s g = ((if g ∈ pool then 1 else 0 : Nat) : Int) := by
    rw [h.once g]
    split <;> rfl
  simp only [held, ledger, kstacks, pgtables] at hone
  rw [places]
  by_cases hu : Kernel.InUse s.kernel.ftable g
  · have := h.counted.files.pipes.used g hu
    rw [if_pos hu]
    omega
  · have := h.counted.files.pipes.unused g hu
    rw [if_neg hu]
    omega

/-- In every run of the calls every page of the pool stays in one place. -/
theorem page_frames [Fs.Devsw] {cs : List (Fin nproc × Call)} (hk : 0 < kend) (h : Placed kend pool s)
    (hcs : Runs.Along (Call.step kend sb) Call.Ready s cs) (hrun : Runs.run (Call.step kend sb) s cs = some s') :
    Placed kend pool s' ∧ ∀ g, places s' g = if g ∈ pool then 1 else 0 := by
  have h' : Placed kend pool s' :=
    Runs.run_invariant (Placed kend pool) (fun _ _ _ hs ha hst => Call.step_placed hk hs ha hst) h hcs hrun
  exact ⟨h', h'.places_eq⟩

section Userinit

def inituvm (pgdir : Vm.Pgdir) : Vm.VmM Vm.Pgdir := do
  match ← Vm.kalloc with
  | none => Vm.panic .trap
  | some mem => do
      let (pgdir, _) ← Vm.mappages pgdir 4096 ⟨mem, true⟩
      pure pgdir

def userinit : MM Unit := do
  match ← vmM Vm.kalloc with
  | none => panic .trap
  | some kstack => do
      setKstack 0 (some kstack)
      match ← vmM Vm.setupkvm with
      | none => panic .userinit
      | some pgdir => do
          let pgdir ← vmM (inituvm pgdir)
          setPgdir 0 (some pgdir)

def bare (disk : Disk) (free : List Nat) : State :=
  ⟨Kernel.boot disk, ⟨free⟩, fun _ => none, fun _ => none, []⟩

theorem vmM_ok {α : Type} {m : Vm.VmM α} {a : α} (h : vmM m s = .ok (a, s')) :
    ∃ m', m s.mem = .ok (a, m') ∧ s' = { s with mem := m' } := by
  rw [vmM, Exec.zoom] at h
  split at h
  next a m' hm =>
    cases h
    exact ⟨m', hm, rfl⟩
  next => cases h

theorem inituvm_ok {t t' : Vm.Pgdir} {l : List Nat} {m : Vm.Mem} (h : inituvm t ⟨l⟩ = .ok (t', m)) :
    Vm.Kept t l t' m.freelist := by
  obtain ⟨o, u, hk, hrest⟩ := bind_eq_ok.mp h
  obtain ⟨f, rfl, rfl⟩ := Vm.kalloc_ok hk
  obtain ⟨r, v, hmap, hrest⟩ := bind_eq_ok.mp hrest
  obtain ⟨hlt, hfree, hlack, rfl, rfl⟩ := Vm.mappages_ok (k := 1) (by decide) (by decide) hmap
  cases hrest
  exact Vm.install_kept hlt hfree hlack

theorem userinit_placed {disk : Disk} {free : List Nat} (hnd : free.Nodup)
    (hin : ∀ g ∈ free, kend ≤ g ∧ g < Vm.npages) :
    wp userinit (fun _ s => Placed kend free.toFinset s) (fun _ => True) (bare disk free) := by
  refine wp_iff.mpr ⟨fun _ s h => ?_, fun _ _ => trivial⟩
  obtain ⟨o, s₁, hs₁, h⟩ := bind_eq_ok.mp h
  obtain ⟨m₁, hk, rfl⟩ := vmM_ok hs₁
  obtain ⟨ks, rfl, hl⟩ := Vm.kalloc_ok hk
  obtain ⟨_, s₂, hs₂, h⟩ := bind_eq_ok.mp h
  cases hs₂
  obtain ⟨o, s₃, hs₃, h⟩ := bind_eq_ok.mp h
  obtain ⟨m₃, hset, rfl⟩ := vmM_ok hs₃
  obtain ⟨f, rfl, hl₁⟩ := Vm.setupkvm_ok hset
  obtain ⟨t, s₄, hs₄, h⟩ := bind_eq_ok.mp h
  obtain ⟨m₄, hinit, rfl⟩ := vmM_ok hs₄
  have hkept := inituvm_ok hinit
  cases h
  refine ⟨⟨fun g hg => hin g (List.mem_toFinset.mp hg), fun g => ?_, fun q t' ht' => ?_, fun q => ?_,
    fun q hq => ?_⟩, Kernel.counted_boot disk⟩
  · have hst := kstacks_update (p := 0) (bare disk free).kstack (some ks) g
    have htab := pgtables_update (p := 0) (bare disk free).pgdir (some t) g
    have hc := hkept.count g
    have hfree : free.count g = m₃.freelist.count g + (if f = g then 1 else 0) + if ks = g then 1 else 0 := by
      rw [hl, show m₁.freelist = f :: m₃.freelist from hl₁, List.count_cons, List.count_cons]
      simp only [beq_iff_eq]
    have hone : (free.count g : Int) = if g ∈ free.toFinset then 1 else 0 := by
      rw [List.Nodup.count hnd]
      simp only [List.mem_toFinset]
      split <;> rfl
    have hst₀ : kstacks (bare disk free).kstack g = 0 := by simp [kstacks, bare]
    have htab₀ : pgtables (bare disk free).pgdir g = 0 := by simp [pgtables, bare]
    have hled : (bare disk free).kernel.kallocs g = 0 ∧ (bare disk free).kernel.kfrees g = 0 := ⟨rfl, rfl⟩
    have hks₀ : (bare disk free).kstack 0 = none := rfl
    have hpd₀ : (bare disk free).pgdir 0 = none := rfl
    rw [← hone]
    simp only [held, ledger, hst₀, htab₀, hks₀, hpd₀, Vm.pageCount_blank, Option.elim_some, Option.elim_none,
      Option.some.injEq, reduceCtorEq, if_false] at hst htab hc ⊢
    by_cases hks : ks = g
    · simp only [if_pos hks] at hst hfree
      omega
    · simp only [if_neg hks] at hst hfree
      omega
  · by_cases hq : q = 0
    · subst hq
      simp only [Function.update_self, Option.some.injEq] at ht'
      exact ht' ▸ (Vm.lowOnly_blank f).of_sameTop hkept.top
    · simp only [Function.update_of_ne hq, bare, reduceCtorEq] at ht'
  · by_cases hq : q = 0
    · subst hq
      simp only [view, bare, Kernel.boot, Function.update_self]
      decide
    · simp only [view, bare, Kernel.boot, Function.update_of_ne hq]
      decide
  · have hq0 : q ≠ 0 := by
      rintro rfl
      cases hq
    simp [bare, hq0]

theorem userinit_kernel : Keeps State.kernel userinit := by
  refine .bind (vmM_keeps _) fun o => ?_
  cases o with
  | none => exact .fail _
  | some ks =>
      refine .bind (.update fun _ => rfl) fun _ => .bind (vmM_keeps _) fun o => ?_
      cases o with
      | none => exact .fail _
      | some t => exact .bind (vmM_keeps _) fun _ => .update fun _ => rfl

theorem userinit_boot {disk : Disk} {pages : List Nat} {u : Unit} {s : State}
    (h : userinit (bare disk pages) = .ok (u, s)) : s.kernel = Kernel.boot disk :=
  (wp_iff.mp (userinit_kernel (bare disk pages))).1 _ _ h

attribute [local instance] Fs.noDevices

/-- A pipe, a child that grows, closes and exits, and a program that is not there. -/
theorem page_frames_family :
    let cs : List (Fin nproc × Call) :=
      [(0, .pipe 4096 0), (0, .fork), (1, .sbrk 9000), (1, .close 0), (1, .exec (some [120]) (some [])), (1, .exit),
        (0, .wait), (0, .close 0), (0, .close 1), (0, .sbrk (-4000))]
    ∃ s s', userinit (bare Kernel.emptyImage (List.range' 16 40)) = .ok ((), s) ∧
      Runs.run (Call.step 16 Mkfs.sb) s cs = some s' ∧ ∀ g, places s' g =
        if g ∈ (List.range' 16 40).toFinset then 1 else 0 := by
  intro cs
  obtain ⟨⟨⟩, s, hs, hrun⟩ := ok_of_any (m := userinit) (s := bare Kernel.emptyImage (List.range' 16 40))
    (p := fun r => Runs.alongB (Call.step 16 Mkfs.sb) (fun s a => decide (Call.Ready s a)) r.2 cs &&
      (Runs.run (Call.step 16 Mkfs.sb) r.2 cs).isSome) (by decide +kernel)
  rw [Bool.and_eq_true] at hrun
  obtain ⟨s', hs'⟩ := Option.isSome_iff_exists.mp hrun.2
  have hplaced : Placed 16 (List.range' 16 40).toFinset s :=
    (wp_iff.mp (userinit_placed List.nodup_range' (by decide))).1 _ _ hs
  have halong := Runs.along_of_alongB _ (fun _ _ h => of_decide_eq_true h) hrun.1
  exact ⟨s, s', hs, hs', (page_frames (by decide) hplaced halong hs').2⟩

/-- A process larger than the low half of the address of the file table opens a pipe there and closes its ends. -/
def pipeOverFiles : List (Fin nproc × Call) :=
  [(0, .sbrk 0x112000), (0, .pipe 0xFFFF800000113648 0), (0, .close 0), (0, .close 1)]

theorem booked_pipeOverFiles (hk : 0 < kend) (h : Placed kend pool s) (hp : ¬ (s.kernel.ptable 0).Dead)
    (hrun : Runs.run (Call.step kend sb) s pipeOverFiles = some s') : Booked kend pool s' := by
  obtain ⟨s₁, hsbrk, hrun⟩ := Runs.run_cons.mp hrun
  obtain ⟨s₂, hpipe, hrun⟩ := Runs.run_cons.mp hrun
  obtain ⟨s₃, hclose, hrun⟩ := Runs.run_cons.mp hrun
  obtain ⟨s₄, hclose', hrun⟩ := Runs.run_cons.mp hrun
  cases hrun
  have h₁ : Placed kend pool s₁ := Call.step_placed hk h ⟨hp, trivial⟩ hsbrk
  have h₂ : Booked kend pool s₂ :=
    Call.of_step hpipe ((sysPipe_books h₁.counted _ _).imp fun _ _ => h₁.of_books)
  have h₃ : Booked kend pool s₃ := Call.of_step hclose ((sysClose_books _ s₂).imp fun _ _ => h₂.of_books)
  exact Call.of_step hclose' ((sysClose_books _ s₃).imp fun _ _ => h₃.of_books)

/-- The page is no longer free and was never freed, and no file refers to it. -/
theorem Booked.places_eq_zero {g : Nat} (h : Booked kend pool s) (hfree : s.mem.freelist.count g = 0)
    (htaken : s.kernel.kallocs g = s.kernel.kfrees g + 1) (hu : ¬ Kernel.InUse s.kernel.ftable g) :
    places s g = 0 := by
  have hle : held s g ≤ 1 := by
    rw [h.once g]
    split <;> omega
  simp only [held, ledger, kstacks, pgtables] at hle
  rw [places, if_neg hu]
  omega

/-- `pipe` stores its descriptors 0 and 1 over the type and the count of the read end, so when both ends are
closed, the pipe's page is in no place. -/
theorem pipe_loses_page :
    ∃ s s', userinit (bare Kernel.emptyImage (List.range' 16 300)) = .ok ((), s) ∧
      Placed 16 (List.range' 16 300).toFinset s ∧ Runs.run (Call.step 16 Mkfs.sb) s pipeOverFiles = some s' ∧
      296 ∈ List.range' 16 300 ∧ places s' 296 = 0 := by
  have hany : (userinit (bare Kernel.emptyImage (List.range' 16 300))).toOption.any fun r =>
      (Runs.run (Call.step 16 Mkfs.sb) r.2 pipeOverFiles).any fun s' => s'.mem.freelist.count 296 = 0 ∧
        s'.kernel.kallocs 296 = s'.kernel.kfrees 296 + 1 ∧ ¬ Kernel.InUse s'.kernel.ftable 296 := by
    decide +kernel
  obtain ⟨u, s, hs, hrun⟩ := ok_of_any hany
  obtain ⟨s', hs', hlost⟩ := (Option.any_eq_true _ _).mp hrun
  obtain ⟨hfree, htaken, hu⟩ := of_decide_eq_true hlost
  have hplaced : Placed 16 (List.range' 16 300).toFinset s :=
    (wp_iff.mp (userinit_placed List.nodup_range' (by decide +kernel))).1 _ _ hs
  have hp : ¬ (s.kernel.ptable 0).Dead := by
    rw [userinit_boot hs]
    decide
  have hbooked := booked_pipeOverFiles (by decide) hplaced hp hs'
  exact ⟨s, s', hs, hplaced, hs', by decide +kernel, hbooked.places_eq_zero hfree htaken hu⟩

end Userinit

end Xv6.Machine
