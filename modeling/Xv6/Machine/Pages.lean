import Xv6.Machine.Ledger

namespace Xv6.Machine

open Lib Lib.UpdateSum Finset
open Lib.Exec hiding update
open Function (update update_of_ne update_self)

variable {kend : Nat} {sb : Fs.Layout} {p : Fin nproc} {s s₁ s' : State} {t t' : Vm.Pgdir} {pool : Finset Nat}

def kstacks (ks : Fin nproc → Option Nat) (g : Nat) : Nat := #{p | ks p = some g}

def pgtables (pd : Fin nproc → Option Vm.Pgdir) (g : Nat) : Nat := ∑ p, (pd p).elim 0 (Vm.pageCount g)

def held (s : State) (g : Nat) : Int := ledger s g + kstacks s.kstack g + pgtables s.pgdir g

/-- Every page of the pool is in one place; the sizes are those of user memory, user pages are below the kernel's
half, and a free slot of the process table has no pages. -/
structure Booked (kend : Nat) (pool : Finset Nat) (s : State) : Prop where
  within : ∀ g ∈ pool, kend ≤ g ∧ g < Vm.npages
  once : ∀ g, held s g = if g ∈ pool then 1 else 0
  low : ∀ p t, s.pgdir p = some t → Vm.LowOnly t
  sized : ∀ p, Vm.pages (view s.kernel p).1 ≤ 2 ^ 35
  idle : ∀ p, (view s.kernel p).2 = .unused → s.kstack p = none ∧ s.pgdir p = none

structure Placed (kend : Nat) (pool : Finset Nat) (s : State) : Prop extends Booked kend pool s where
  counted : Kernel.Counted s.kernel

theorem kstacks_update (ks : Fin nproc → Option Nat) (o : Option Nat) (g : Nat) :
    kstacks (update ks p o) g + (if ks p = some g then 1 else 0) = kstacks ks g + if o =
      some g then 1 else 0 :=
  card_update (fun o => o = some g) ks p o

theorem pgtables_update (pd : Fin nproc → Option Vm.Pgdir) (o : Option Vm.Pgdir) (g : Nat) :
    pgtables (update pd p o) g + (pd p).elim 0 (Vm.pageCount g) = pgtables pd g +
      o.elim 0 (Vm.pageCount g) :=
  sum_update (fun o : Option Vm.Pgdir => o.elim 0 (Vm.pageCount g)) pd p o

theorem held_congr (h : books s' = books s) : held s' = held s := by
  obtain ⟨h1, h2⟩ := Prod.mk.inj h
  obtain ⟨h2, h3⟩ := Prod.mk.inj h2
  obtain ⟨h3, -⟩ := Prod.mk.inj h3
  funext g
  simp only [held, h1, h2, h3]

theorem Booked.of_books (h : Booked kend pool s) (hb : books s' = books s) : Booked kend pool s' := by
  obtain ⟨-, hproc⟩ := Prod.mk.inj hb
  obtain ⟨hks, hproc⟩ := Prod.mk.inj hproc
  obtain ⟨hpd, hv⟩ := Prod.mk.inj hproc
  refine ⟨h.within, fun g => ?_, ?_, ?_, ?_⟩
  · rw [held_congr hb]
    exact h.once g
  · rw [hpd]
    exact h.low
  · rw [hv]
    exact h.sized
  · rw [hv, hks, hpd]
    exact h.idle

theorem Placed.frames (h : Placed kend pool s) (hp : s.pgdir p = some t) : Vm.Frames kend s.mem.freelist t := by
  have hle (g : Nat) : (s.mem.freelist.count g + Vm.pageCount g t : Int) ≤ held s g := by
    have hpipe : s.kernel.kfrees g ≤ s.kernel.kallocs g := by
      by_cases hu : Kernel.InUse s.kernel.ftable g
      · rw [h.counted.files.pipes.used g hu]
        omega
      · rw [h.counted.files.pipes.unused g hu]
    have htab := le_sum (fun o : Option Vm.Pgdir => o.elim 0 (Vm.pageCount g)) s.pgdir p
    rw [hp] at htab
    simp only [held, ledger, pgtables, Option.elim_some] at htab ⊢
    omega
  refine ⟨fun g => ?_, fun g hg => h.within g ?_⟩
  · have := hle g
    rw [h.once g] at this
    split at this <;> omega
  · by_contra hno
    have := hle g
    rw [h.once g, if_neg hno] at this
    omega

section Sbrk

theorem counted_setSz {k : Kernel.State} (h : Kernel.Counted k) (sz : UInt64) :
    Kernel.Counted { k with ptable := update k.ptable p { k.ptable p with sz } } := by
  have hset : Kernel.Holding (update k.ptable p { k.ptable p with sz }) [] [] k := .setProc h.files rfl rfl
  refine ⟨hset.of_ptable _, Kernel.settled_update h.procs ?_⟩
  exact ⟨(h.procs p).grown, (h.procs p).dead, (h.procs p).alive⟩

theorem growproc_placed (hk : 0 < kend) (h : Placed kend pool s) (n : Int64) :
    wp (growproc kend p n) (fun _ s' => Placed kend pool s') (fun _ => True) s := by
  simp only [growproc, pgdir, kernelM, vmM, Kernel.proc, wp_bind, wp_zoom, wp_gets]
  cases hp : s.pgdir p with
  | none => exact trivial
  | some t =>
      simp only [wp_pure, wp_bind, wp_zoom]
      refine wp_iff.mpr ⟨fun r m hm => ?_, fun _ _ => trivial⟩
      obtain ⟨hsz, hkept⟩ := Vm.growproc_ok hk (h.frames hp) (h.sized p) hm
      simp only [setPgdir, Kernel.setProc, wp_bind, wp_zoom, wp_update, wp_pure]
      refine ⟨⟨h.within, fun g => ?_, fun q t' ht' => ?_, fun q => ?_, fun q hq => ?_⟩, counted_setSz h.counted _⟩
      · have htab := pgtables_update (p := p) s.pgdir (some r.2.pgdir) g
        have hc := hkept.count g
        rw [hp] at htab
        simp only [Option.elim_some] at htab hc
        rw [← h.once g]
        simp only [held, ledger]
        omega
      · by_cases hq : q = p
        · subst hq
          simp only [update_self, Option.some.injEq] at ht'
          subst ht'
          exact (h.low q t hp).of_sameTop hkept.top
        · simp only [update_of_ne hq] at ht'
          exact h.low q t' ht'
      · rw [view_update]
        by_cases hq : q = p
        · subst hq
          simpa using hsz
        · simpa [hq] using h.sized q
      · rw [view_update] at hq
        by_cases hqp : q = p
        · subst hqp
          simp only [update_self] at hq
          have := (h.idle q hq).2
          rw [hp] at this
          cases this
        · simp only [update_of_ne hqp] at hq ⊢
          exact h.idle q hq

end Sbrk

section Exec

variable {ip : Fin ninode}

/-- State `s₁` is `s` but for a new page table, whose pages have come from the free list. -/
structure Building (s : State) (t : Vm.Pgdir) (s₁ : State) : Prop where
  procs : procPages s₁ = procPages s
  ledger : ∀ g, Machine.ledger s₁ g + Vm.pageCount g t = Machine.ledger s g
  low : Vm.LowOnly t

theorem Building.of_books {s₂ : State} (h : Building s t s₁) (hb : books s₂ = books s₁) : Building s t s₂ := by
  obtain ⟨h1, h2⟩ := Prod.mk.inj hb
  refine ⟨h2.trans h.procs, fun g => ?_, h.low⟩
  rw [h1]
  exact h.ledger g

theorem Building.of_kept {m : Vm.Mem} (h : Building s t s₁) (hk : Vm.Kept t s₁.mem.freelist t' m.freelist) :
    Building s t' { s₁ with mem := m } := by
  refine ⟨h.procs, fun g => ?_, h.low.of_sameTop hk.top⟩
  have h1 := h.ledger g
  have h2 := hk.count g
  simp only [Machine.ledger] at h1 ⊢
  omega

theorem fsM_books {α : Type} (m : Fs.FsM α) : Keeps books (fsM m) :=
  kernelM_books (fsM_keeps (fun _ _ => rfl) m) (fsM_keeps (fun _ _ => rfl) m)

theorem vmM_reads {α β : Type} {m : Vm.VmM α} {g : State → β} (h : Keeps id m) : Keeps g (vmM m) := by
  intro s
  rw [vmM, wp_zoom]
  refine (h s.mem).imp fun a m' hm => ?_
  obtain rfl : m' = s.mem := hm
  rfl

theorem walkpgdir_keeps (t : Vm.Pgdir) (va : UInt64) : Keeps id (Vm.walkpgdir t va) :=
  .ite (fun _ => .fail _) fun _ => .pure _

theorem store_books (pte : Option Vm.Pte) (bs : List UInt8) : Keeps books (store pte bs) :=
  .ite (fun _ => .pure _) fun _ => .update fun _ => rfl

theorem allocuvm_building {oldsz newsz : UInt64} (h : Building s t s₁) (hold : Vm.pages oldsz ≤ 2 ^ 35) :
    wp (vmM (Vm.allocuvm kend t oldsz newsz)) (fun q s₂ => Building s q.1 s₂ ∧ Vm.pages q.2 ≤ 2 ^ 35)
      (fun _ => True) s₁ := by
  rw [vmM, wp_zoom]
  refine wp_iff.mpr ⟨fun q m hm => ?_, fun _ _ => trivial⟩
  obtain ⟨-, hsz, hkept⟩ := Vm.allocuvm_ok hold hm
  exact ⟨h.of_kept hkept, hsz⟩

-- the elaborator must not run these when it looks at a goal
attribute [local irreducible] Vm.freevm Vm.allocuvm

theorem freevm_building (h : Building s t s₁) :
    wp (vmM (Vm.freevm kend (some t))) (fun _ s₂ => books s₂ = books s) (fun _ => True) s₁ := by
  rw [vmM, wp_zoom]
  refine wp_iff.mpr ⟨fun _ m hm => ?_, fun _ _ => trivial⟩
  refine congrArg₂ Prod.mk (funext fun g => ?_) h.procs
  have h1 := h.ledger g
  have h2 : m.freelist.count g = Vm.pageCount g t + s₁.mem.freelist.count g := Vm.freevm_ok h.low hm
  simp only [ledger] at h1 ⊢
  omega

theorem bad_books (h : Building s t s₁) : wp (bad kend t) (fun _ s₂ => books s₂ = books s) (fun _ => True) s₁ :=
  (freevm_building h).bind fun _ _ h' => h'

theorem copyoutLoop_keeps (t : Vm.Pgdir) (n : Nat) (va len : UInt64) : Keeps id (Vm.copyoutLoop t n va len) := by
  induction n generalizing va len with
  | zero => exact .pure _
  | succ n ih =>
      refine .ite (fun _ => .bind ?_ fun o => ?_) fun _ => .pure _
      · refine .bind (walkpgdir_keeps _ _) fun o => ?_
        rcases o with _ | _ | pte
        · exact .fail _
        · exact .pure _
        · exact .ite (fun _ => .pure _) fun _ => .pure _
      · cases o with
        | none => exact .pure _
        | some _ => exact ih _ _

theorem pushArgs_keeps (t : Vm.Pgdir) (argv : List Arg) (argc : Nat) (sp : UInt64) :
    Keeps id (pushArgs t argv argc sp) := by
  induction argv generalizing argc sp with
  | nil => exact .pure _
  | cons a argv ih =>
      refine .ite (fun _ => .pure _) fun _ => .bind (copyoutLoop_keeps _ _ _ _) fun b => ?_
      exact .ite (fun _ => ih _ _) fun _ => .pure _

theorem pushStack_keeps (t : Vm.Pgdir) (argv : List Arg) (sp : UInt64) : Keeps id (pushStack t argv sp) := by
  refine .bind (pushArgs_keeps _ _ _ _) fun o => ?_
  rcases o with _ | ⟨argc, sp⟩
  · exact .pure _
  · exact copyoutLoop_keeps _ _ _ _

theorem commit_booked {sz : UInt64} (h : Booked kend pool s) (hb : Building s t s₁) (hsz : Vm.pages sz ≤ 2 ^ 35) :
    wp (commit kend p t sz) (fun _ s' => Booked kend pool s') (fun _ => True) s₁ := by
  obtain ⟨hks, hpv⟩ := Prod.mk.inj hb.procs
  obtain ⟨hpd, hv⟩ := Prod.mk.inj hpv
  simp only [commit, setPgdir, kernelM, vmM, Kernel.proc, Kernel.setProc, wp_bind, wp_gets, wp_update,
    wp_zoom, wp_pure]
  rw [hpd]
  cases hp : s.pgdir p with
  | none =>
      rw [Vm.freevm_none]
      exact trivial
  | some old =>
      refine wp_iff.mpr ⟨fun _ m hm => ?_, fun _ _ => trivial⟩
      refine ⟨h.within, fun g => ?_, fun q t' ht' => ?_, fun q => ?_, fun q hq => ?_⟩
      · have hfree : m.freelist.count g = Vm.pageCount g old + s₁.mem.freelist.count g :=
          Vm.freevm_ok (h.low p old hp) hm
        have htab := pgtables_update (p := p) s.pgdir (some t) g
        have hledger := hb.ledger g
        rw [hp] at htab
        rw [← h.once g]
        simp only [held, ledger, hks, Option.elim_some] at htab hledger ⊢
        omega
      · by_cases hq : q = p
        · subst hq
          simp only [update_self, Option.some.injEq] at ht'
          exact ht' ▸ hb.low
        · simp only [update_of_ne hq] at ht'
          exact h.low q t' ht'
      · rw [view_update, hv]
        by_cases hq : q = p
        · subst hq
          simpa using hsz
        · simpa [hq] using h.sized q
      · rw [view_update, hv] at hq
        by_cases hqp : q = p
        · subst hqp
          have hst : (view s.kernel q).2 = .unused := by
            rw [← hv]
            simp only [update_self] at hq
            exact hq
          have := (h.idle q hst).2
          rw [hp] at this
          cases this
        · simp only [update_of_ne hqp, hks] at hq ⊢
          exact h.idle q hq

theorem clearpteu_building {uva : UInt64} (h : Building s t s₁) (hva : Vm.vpage uva < 2 ^ 35) :
    wp (vmM (Vm.clearpteu t uva)) (fun t' s₂ => Building s t' s₂) (fun _ => True) s₁ := by
  rw [vmM, wp_zoom]
  refine wp_iff.mpr ⟨fun t' m hm => ?_, fun _ _ => trivial⟩
  obtain ⟨rfl, hkept⟩ := Vm.clearpteu_ok hva hm
  exact h.of_kept hkept

theorem allocuvm_stack {sz : UInt64} (hb : Building s t s₁) (hsz : Sized sz) :
    wp (vmM (Vm.allocuvm kend t (Vm.pgroundup sz) (Vm.pgroundup sz + 8192))) (fun q s₂ =>
      (q.2 ≠ 0 → Vm.vpage (q.2 - 8192) < 2 ^ 35) ∧ Building s q.1 s₂ ∧ Vm.pages q.2 ≤ 2 ^ 35)
        (fun _ => True) s₁ := by
  rw [vmM, wp_zoom]
  refine wp_iff.mpr ⟨fun q m hm => ?_, fun _ _ => trivial⟩
  obtain ⟨heq, hle, hkept⟩ := Vm.allocuvm_ok hsz.round.2 hm
  refine ⟨fun h0 => ?_, hb.of_kept hkept, hle⟩
  have hround := hsz.toNat_round
  have hsmall := hsz.2
  have hsum : (Vm.pgroundup sz + 8192).toNat = Vm.pages sz * 4096 + 8192 := by
    rw [UInt64.toNat_add, hround]
    exact Nat.mod_eq_of_lt (by change Vm.pages sz * 4096 + 8192 < 2 ^ 64; omega)
  have heq : q.2 = Vm.pgroundup sz + 8192 := by
    rw [heq, Vm.allocSize] at h0 ⊢
    have hlt : ¬ Vm.pgroundup sz + 8192 < Vm.pgroundup sz := by
      rw [UInt64.lt_iff_toNat_lt]
      omega
    split at h0
    next => exact absurd rfl h0
    next hbase => rw [if_neg hbase, if_neg hlt]
  rw [heq, UInt64.add_sub_cancel, Vm.vpage_of_toNat hround]
  have : (q.2.toNat + 4095) / 4096 ≤ 2 ^ 35 := hle
  rw [heq, hsum] at this
  omega

theorem startImage_booked {argv : List Arg} {sz : UInt64} (h : Booked kend pool s) (hb : Building s t s₁)
    (hsz : Sized sz) : wp (startImage kend p argv t sz) (fun _ s' => Booked kend pool s') (fun _ => True) s₁ := by
  have hbad {t : Vm.Pgdir} {s₂ : State} (hb : Building s t s₂) :
      wp (bad kend t) (fun _ s' => Booked kend pool s') (fun _ => True) s₂ :=
    (bad_books hb).imp fun _ s' hs' => h.of_books hs'
  have hround := hsz.toNat_round
  refine (allocuvm_stack hb hsz).bind fun q s₂ ⟨hq, h₂, hsz₂⟩ => wp_ite.mpr ⟨fun _ => hbad h₂, fun h0 => ?_⟩
  refine (clearpteu_building h₂ (hq h0)).bind fun t' s₃ h₃ => ?_
  refine (vmM_reads (g := books) (pushStack_keeps _ _ _) s₃).bind fun pushed s₄ h₄ => ?_
  have hb₄ := h₃.of_books h₄
  exact wp_ite.mpr ⟨fun _ => commit_booked h hb₄ hsz₂, fun _ => hbad hb₄⟩

section

variable [Fs.Devsw]

theorem loadPages_books (t : Vm.Pgdir) (addr : UInt64) (offset sz : UInt32) (fuel : Nat) (i : UInt32) :
    Keeps books (loadPages sb ip t addr offset sz fuel i) := by
  induction fuel generalizing i with
  | zero => exact .pure _
  | succ fuel ih =>
      refine .ite (fun _ => .bind (vmM_reads (walkpgdir_keeps _ _)) fun o => ?_) fun _ => .pure _
      cases o with
      | none => exact .fail _
      | some pte =>
          exact .bind (fsM_books _) fun r => .bind (store_books _ _) fun _ => .ite (fun _ => .pure _) fun _ => ih _

theorem loadSegments_building {n : Nat} {off : UInt32} {sz : UInt64} (h : Building s t s₁)
    (hsz : Vm.pages sz ≤ 2 ^ 35) :
    wp (loadSegments kend sb ip n off t sz) (fun q s₂ => Building s q.1 s₂) (fun _ => True) s₁ := by
  induction n generalizing off t sz s₁ with
  | zero => exact h
  | succ n ih =>
      refine (fsM_books _ s₁).bind fun r s₂ h₂ => ?_
      have hb := h.of_books h₂
      refine wp_ite.mpr ⟨fun _ => hb, fun _ => wp_ite.mpr ⟨fun _ => ih hb hsz, fun _ => wp_ite.mpr
        ⟨fun _ => hb, fun _ =>
        wp_ite.mpr ⟨fun _ => hb, fun _ => (allocuvm_building hb hsz).bind fun q s₃ ⟨h₃, hsz₃⟩ => ?_⟩⟩⟩⟩
      refine wp_ite.mpr ⟨fun _ => h₃, fun _ => wp_ite.mpr ⟨fun _ => h₃, fun _ => ?_⟩⟩
      have hload : Keeps books (loaduvm sb q.1 (UInt64.ofNat (Bytes.field r.2 16 8)) ip
          (UInt32.ofNat (Bytes.field r.2 8 8)) (UInt64.ofNat (Bytes.field r.2 32 8)).toUInt32) :=
        .ite (fun _ => .fail _) fun _ => loadPages_books _ _ _ _ _ _
      refine (hload s₃).bind fun loaded s₄ h₄ => ?_
      have hb₄ := h₃.of_books h₄
      exact wp_ite.mpr ⟨fun _ => ih hb₄ hsz₃, fun _ => hb₄⟩

theorem loadImage_building (s : State) :
    wp (loadImage kend sb ip) (fun q s₁ => match q.1 with
      | none => books s₁ = books s
      | some t => Building s t s₁) (fun _ => True) s := by
  refine (fsM_books _ s).bind fun r s₁ h₁ => wp_ite.mpr ⟨fun _ => h₁, fun _ => wp_ite.mpr
    ⟨fun _ => h₁, fun _ => ?_⟩⟩
  rw [wp_bind, vmM, wp_zoom]
  refine wp_iff.mpr ⟨fun o m hm => ?_, fun _ _ => trivial⟩
  obtain ⟨f, rfl, hl⟩ := Vm.setupkvm_ok (l := s₁.mem.freelist) hm
  obtain ⟨hledger, hproc⟩ := Prod.mk.inj h₁
  have hb : Building s (Radix.blank 3 f) { s₁ with mem := m } := by
    refine ⟨hproc, fun g => ?_, Vm.lowOnly_blank f⟩
    rw [← hledger, Vm.pageCount_blank]
    simp only [ledger, hl, List.count_cons, beq_iff_eq]
    split <;> push_cast <;> omega
  exact wp_bind.mpr ((loadSegments_building hb (by decide)).imp fun q s₂ h₂ => h₂)

theorem exec_booked (h : Booked kend pool s) (path : List UInt8) (argv : List Arg) :
    wp (exec kend sb p path argv) (fun _ s' => Booked kend pool s') (fun _ => True) s := by
  refine (kernelM_books cwd_keeps cwd_keeps s).bind fun c s₁ h₁ => (fsM_books _ s₁).bind fun o s₂ h₂ => ?_
  have hb₂ := (h.of_books h₁).of_books h₂
  cases o with
  | none => exact hb₂
  | some ip =>
      refine (fsM_books _ s₂).bind fun _ s₃ h₃ => ((loadImage_building s₃).and (loadImage_returns.wp s₃)).bind
        fun q s₄ ⟨h₄, hsize⟩ => ?_
      have hb₃ := hb₂.of_books h₃
      have hput {s₅ : State} (h₅ : books s₅ = books s₃) :
          wp (do fsM (Fs.iunlockput sb ip); pure (-1) : MM Int) (fun _ s' => Booked kend pool s')
            (fun _ => True) s₅ :=
        (fsM_books _ s₅).bind fun _ s₆ h₆ => hb₃.of_books (h₆.trans h₅)
      obtain ⟨_ | t, _ | sz⟩ := q
      · exact hput h₄
      · exact absurd (hsize sz rfl).1 Bool.false_ne_true
      · exact (freevm_building h₄).bind fun _ s₅ h₅ => hput h₅
      · refine (fsM_books _ s₄).bind fun _ s₅ h₅ => ?_
        exact startImage_booked hb₃ (h₄.of_books h₅) (hsize sz rfl).2

theorem sysExec_booked (h : Booked kend pool s) (path : Option (List UInt8)) (argv : Option (List Arg)) :
    wp (sysExec kend sb p path argv) (fun _ s' => Booked kend pool s') (fun _ => True) s := by
  cases path with
  | none => exact h
  | some path =>
      cases argv with
      | none => exact h
      | some argv => exact exec_booked h path argv

end

end Exec

section Fork

theorem fork_booked (h : Booked kend pool s) :
    wp (fork kend p) (fun _ s' => Booked kend pool s') (fun _ => True) s := by
  have hfail {s : State} (h : Booked kend pool s) (mem : Kernel.Kalloc) :
      wp (kernelM (Kernel.fork p mem false)) (fun _ s' => Booked kend pool s') (fun _ => True) s := by
    rw [kernelM, wp_zoom]
    refine fork_fails.imp ?_
    rintro _ k ⟨hv, hpp⟩
    refine h.of_books (congrArg₂ Prod.mk (funext fun g => ?_) ?_)
    · obtain ⟨ha, hf⟩ := Prod.mk.inj hpp
      simp only [ledger, ha, hf]
    · simp only [procPages, hv]
  simp only [fork, wp_bind, wp_gets]
  cases hf : Kernel.freeProc s.kernel.ptable with
  | none => exact hfail h _
  | some np =>
      have hidle := h.idle np (Kernel.freeProc_spec hf)
      simp only [vmM, wp_bind, wp_zoom]
      refine wp_iff.mpr ⟨fun o m hm => ?_, fun _ _ => trivial⟩
      obtain ⟨ks, rfl, hl⟩ := Vm.kalloc_ok (l := s.mem.freelist) hm
      simp only [setKstack, pgdir, kernelM, Kernel.proc, wp_bind, wp_update, wp_gets, wp_zoom]
      cases hp : s.pgdir p with
      | none => exact trivial
      | some t =>
          simp only [wp_pure, wp_bind, wp_zoom]
          refine wp_iff.mpr ⟨fun o m₂ hm₂ => ?_, fun _ _ => trivial⟩
          obtain ⟨d, rfl, hcount, hlow⟩ := Vm.copyuvm_ok (l := m.freelist) hm₂
          simp only [setPgdir, wp_bind, wp_update, wp_zoom]
          refine (fork_succeeds hf).imp ?_
          rintro _ k ⟨hv, hpp⟩
          refine ⟨h.within, fun g => ?_, fun q t' ht' => ?_, fun q => ?_, fun q hq => ?_⟩
          · obtain ⟨ha, hfr⟩ := Prod.mk.inj hpp
            have hst := kstacks_update (p := np) s.kstack (some ks) g
            have htab := pgtables_update (p := np) s.pgdir (some d) g
            have hc := hcount g
            rw [hidle.1] at hst
            rw [hidle.2] at htab
            rw [← h.once g]
            simp only [held, ledger, ha, hfr, hl, List.count_cons, beq_iff_eq, Option.elim_some, Option.elim_none,
              Option.some.injEq, reduceCtorEq, if_false] at hst htab ⊢
            by_cases hks : ks = g
            · subst hks
              simp only [if_true] at hst ⊢
              push_cast
              omega
            · simp only [if_neg hks] at hst ⊢
              omega
          · by_cases hq : q = np
            · subst hq
              simp only [update_self, Option.some.injEq] at ht'
              exact ht' ▸ hlow
            · simp only [update_of_ne hq] at ht'
              exact h.low q t' ht'
          · rw [hv]
            by_cases hq : q = np
            · subst hq
              rw [update_self]
              exact h.sized p
            · rw [update_of_ne hq]
              exact h.sized q
          · rw [hv] at hq
            by_cases hqn : q = np
            · subst hqn
              rw [update_self] at hq
              cases hq
            · rw [update_of_ne hqn] at hq
              simp only [update_of_ne hqn]
              exact h.idle q hq

end Fork

section Wait

attribute [local irreducible] Vm.freevm

theorem wait_booked (h : Booked kend pool s) :
    wp (wait kend p) (fun _ s' => Booked kend pool s') (fun _ => True) s := by
  simp only [wait, wp_bind, wp_gets]
  cases hq : (List.finRange nproc).find?
      fun q => (s.kernel.ptable q).parent = some p ∧ (s.kernel.ptable q).state = .zombie with
  | none =>
      simp only [kernelM, wp_zoom]
      refine (wait_fails hq).imp fun _ k hk => ?_
      rw [hk]
      exact h
  | some q =>
      simp only [wp_bind, wp_gets]
      cases hks : s.kstack q with
      | none => exact trivial
      | some ks =>
          simp only [vmM, wp_bind, wp_zoom]
          refine wp_iff.mpr ⟨fun _ m hm => ?_, fun _ _ => trivial⟩
          obtain rfl : m = ⟨ks :: s.mem.freelist⟩ := Vm.kfree_ok hm
          simp only [setKstack, wp_update, wp_bind, wp_gets, wp_zoom]
          cases hpd : s.pgdir q with
          | none =>
              rw [Vm.freevm_none]
              exact trivial
          | some t =>
              refine wp_iff.mpr ⟨fun _ m₂ hm₂ => ?_, fun _ _ => trivial⟩
              simp only [setPgdir, kernelM, wp_update, wp_zoom]
              refine (wait_view hq).imp ?_
              rintro _ k ⟨hv, hpp⟩
              refine ⟨h.within, fun g => ?_, fun r t' ht' => ?_, fun r => ?_, fun r hr => ?_⟩
              · obtain ⟨ha, hfr⟩ := Prod.mk.inj hpp
                have hfree : m₂.freelist.count g = Vm.pageCount g t + (ks :: s.mem.freelist).count g :=
                  Vm.freevm_ok (h.low q t hpd) hm₂
                have hst := kstacks_update (p := q) s.kstack none g
                have htab := pgtables_update (p := q) s.pgdir none g
                rw [hks] at hst
                rw [hpd] at htab
                rw [← h.once g]
                simp only [held, ledger, ha, hfr, List.count_cons, beq_iff_eq, Option.elim_some, Option.elim_none,
                  Option.some.injEq, reduceCtorEq, if_false] at hst htab hfree ⊢
                by_cases hg : ks = g
                · simp only [if_pos hg] at hst hfree
                  omega
                · simp only [if_neg hg] at hst hfree
                  omega
              · by_cases hr : r = q
                · subst hr
                  simp at ht'
                · simp only [update_of_ne hr] at ht'
                  exact h.low r t' ht'
              · rw [hv]
                by_cases hr : r = q
                · subst hr
                  rw [update_self]
                  exact h.sized r
                · rw [update_of_ne hr]
                  exact h.sized r
              · rw [hv] at hr
                by_cases hrq : r = q
                · subst hrq
                  simp
                · rw [update_of_ne hrq] at hr
                  simp only [update_of_ne hrq]
                  exact h.idle r hr

theorem exit_booked (h : Booked kend pool s) (hp : (view s.kernel p).2 ≠ .unused) :
    wp (exit kend sb p) (fun _ s' => Booked kend pool s') (fun _ => True) s := by
  simp only [exit, wp_bind, wp_gets]
  refine wp_ite.mpr ⟨fun _ => trivial, fun _ => (closeFiles_books _ s).bind fun _ s₁ h₁ => ?_⟩
  have hb := h.of_books h₁
  have hview : view s₁.kernel = view s.kernel := (Prod.mk.inj (Prod.mk.inj (Prod.mk.inj h₁).2).2).2
  rw [kernelM, wp_zoom]
  refine ((leave_view s₁.kernel).and (leave_pipePages s₁.kernel)).imp ?_
  rintro _ k ⟨hv, hpp⟩
  refine ⟨h.within, fun g => ?_, hb.low, fun q => ?_, fun q hq => ?_⟩
  · obtain ⟨ha, hfr⟩ := Prod.mk.inj hpp
    rw [← hb.once g]
    simp only [held, ledger, ha, hfr]
  · rw [hv]
    by_cases hq : q = p
    · subst hq
      rw [update_self]
      exact hb.sized q
    · rw [update_of_ne hq]
      exact hb.sized q
  · rw [hv] at hq
    by_cases hqp : q = p
    · subst hqp
      rw [update_self] at hq
      cases hq
    · rw [update_of_ne hqp] at hq
      exact hb.idle q hq

end Wait

end Xv6.Machine
