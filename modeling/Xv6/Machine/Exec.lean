import Xv6.Machine.Frames
import Xv6.Machine.Segments

namespace Xv6.Machine

open Lib Lib.Bytes Lib.Exec Lib.Radix Vm

variable {kend : Nat} {sb : Fs.Layout} {p : Fin nproc} {ip : Fin ninode} {l l₀ : List Nat}
    {s₀ s : State} {t : Pgdir}
  {sz : UInt64} {argv : List Arg}

section Stack

theorem newImage_of_pages {sz' : UInt64} (h : NewImage kend l₀ sz t l) (hp : pages sz' = pages sz) :
    NewImage kend l₀ sz' t l :=
  ⟨h.frames, h.low, hp ▸ h.pos, hp ▸ h.user, hp ▸ h.unmapped, hp ▸ h.bare, hp ▸ h.used, h.count⟩

theorem alloc_stack (h : NewImage kend l₀ sz t l) :
    if l₀.length < imagePages (pagesOf sz.toNat + 2) then
      allocuvm kend t (pgroundup sz) (pgroundup sz + 8192) ⟨l⟩ = .error (.panic .outOfMemory)
    else ∃ (sz' : UInt64) (t' : Pgdir) (l' : List Nat), sz'.toNat = (pagesOf sz.toNat + 2) * 4096 ∧
      NewImage kend l₀ sz' t' l' ∧ allocuvm kend t (pgroundup sz) (pgroundup sz + 8192) ⟨l⟩ =
        .ok ((t', sz'), ⟨l'⟩) := by
  have hroom : pages sz ≤ 57345 := Frames.pages_le (x := ⟨sz, t⟩) h.frames h.synced
  have hsz : sz.toNat ≤ 57345 * 4096 := toNat_lt_of_pages_le hroom
  have hround : (pgroundup sz).toNat = pagesOf sz.toNat * 4096 := pgroundup_toNat (by omega)
  have hpages : pages (pgroundup sz) = pages sz := by
    show ((pgroundup sz).toNat + 4095) / 4096 = pagesOf sz.toNat
    omega
  have hle : pagesOf sz.toNat ≤ 57345 := hroom
  have hsum : (pgroundup sz + 8192).toNat = (pagesOf sz.toNat + 2) * 4096 := by
    have h8192 : (8192 : UInt64).toNat = 8192 := rfl
    rw [UInt64.toNat_add, hround, h8192, Nat.mod_eq_of_lt (by omega)]
    omega
  have hbase : pgroundup sz + 8192 < kernbase := by
    have hk : kernbase.toNat = 0xFFFF800000000000 := rfl
    rw [UInt64.lt_iff_toNat_lt, hsum, hk]
    omega
  have hnew := alloc_segment (newImage_of_pages h hpages) hbase
  rw [hround, hsum, max_eq_right (by omega),
    show pagesOf ((pagesOf sz.toNat + 2) * 4096) = pagesOf sz.toNat + 2 by unfold pagesOf pgsize; omega] at hnew
  exact hnew

theorem clearpteu_stack {K : Nat} {va : UInt64} (h : NewImage kend l₀ sz t l) (hsz : sz.toNat = K * 4096)
    (hK : 3 ≤ K)
    (hva : va.toNat = (K - 2) * 4096) :
    ∃ t', clearpteu t va ⟨l⟩ = .ok (t', ⟨l⟩) ∧ Stacked K t' ∧ ∀ f, pageCount f t' = pageCount f t := by
  have hpages : pages sz = K := by
    show (sz.toNat + 4095) / 4096 = K
    omega
  have hroom : pages sz ≤ 57345 := Frames.pages_le (x := ⟨sz, t⟩) h.frames h.synced
  have hpage : vpage va = K - 2 := vpage_of_toNat hva
  obtain ⟨f, hf⟩ := h.user (K - 2) (by omega) (by omega)
  refine ⟨Radix.set 3 t (K - 2) (some ⟨f, false⟩), ?_, ⟨?_, hK, by omega, fun k hk hk' => ?_, ?_⟩, fun g => ?_⟩
  · rw [clearpteu, bind_ok (walkpgdir_eq (by omega)), hpage, find_of_mapped hf]
    rfl
  · exact h.low.of_sameTop (sameTop_set (by omega))
  · by_cases hne : k = K - 2
    · subst hne
      refine ⟨f, ?_⟩
      rw [mapped, find_set_self (by rw [find_of_mapped hf]; rfl)]
      simp
    · obtain ⟨g, hg⟩ := h.user k hk (by omega)
      refine ⟨g, ?_⟩
      rw [mapped_set_of_ne (by omega) (by omega) hne, hg]
      simp [hne]
  · rw [mapped_set_of_ne (by omega) (by omega) (by omega)]
    exact h.unmapped 0 (by decide) (.inl rfl)
  · have := pageCount_set (f := g) (v := some ⟨f, false⟩) hf
    simpa using this

end Stack

section Start

attribute [local irreducible] Vm.freevm Vm.allocuvm

theorem bad_eq (h : ∀ f, 0 < pageCount f t → kend ≤ f ∧ f < npages) :
    ∃ s', bad kend t s = .ok (-1, s') ∧ s'.stores = s.stores := by
  obtain ⟨m, hm⟩ := freevm_total (l := s.mem.freelist) h
  exact ⟨{ s with mem := m }, by rw [bad, bind_ok (vmM_eq hm)]; rfl, rfl⟩

theorem commit_eq (sz : UInt64) {told : Pgdir} (hpd : s.pgdir p = some told)
    (h : ∀ f, 0 < pageCount f told → kend ≤ f ∧ f < npages) :
    ∃ s', commit kend p t sz s = .ok (0, s') ∧ s'.stores = s.stores := by
  obtain ⟨m, hm⟩ := freevm_total (l := s.mem.freelist) h
  let s₁ : State := { s with pgdir := Function.update s.pgdir p (some t) }
  let ptable := Function.update s.kernel.ptable p { s.kernel.ptable p with sz }
  let s₂ : State := { s₁ with kernel := { s.kernel with ptable } }
  refine ⟨{ s₂ with mem := m }, ?_, rfl⟩
  rw [commit, bind_ok (a := s.pgdir p) (t := s) rfl, hpd, bind_ok (a := ()) (t := s₁) rfl,
    bind_ok (a := s.kernel.ptable p) (t := s₁) rfl, bind_ok (a := ()) (t := s₂) rfl, bind_ok (vmM_eq (s := s₂) hm)]
  rfl

theorem startImage_eq (argv : List Arg) (h : NewImage kend l₀ sz t l) (hs : s.mem = ⟨l⟩) {told : Pgdir}
    (hpd : s.pgdir p = some told)
    (hold : ∀ f, 0 < pageCount f told → kend ≤ f ∧ f < npages) :
    if l₀.length < imagePages (pagesOf sz.toNat + 2) then startImage kend p argv t sz s =
      .error (.panic .outOfMemory)
    else if ArgsFit ((pagesOf sz.toNat + 1) * 4096) argv 0 ((pagesOf sz.toNat + 2) * 4096) then
      ∃ r s', startImage kend p argv t sz s = .ok (r, s') ∧ (r = 0 ∨ r = -1) ∧ s'.stores = s.stores
    else startImage kend p argv t sz s = .error (.panic .trap) := by
  have halloc := alloc_stack h
  rw [← hs] at halloc
  have hpos : 1 ≤ pagesOf sz.toNat := h.pos
  by_cases hroom : l₀.length < imagePages (pagesOf sz.toNat + 2)
  · rw [if_pos hroom] at halloc ⊢
    rw [startImage, bind_error (vmM_error halloc)]
  · rw [if_neg hroom] at halloc ⊢
    obtain ⟨sz', t', l', hsz', h', heq⟩ := halloc
    have hne : sz' ≠ 0 := by
      rintro rfl
      exact absurd h'.pos (by decide)
    have hguard : (sz' - 8192).toNat = (pagesOf sz.toNat + 2 - 2) * 4096 := by
      have h8192 : (8192 : UInt64).toNat = 8192 := rfl
      rw [UInt64.toNat_sub_of_le _ _ (UInt64.le_iff_toNat_le.mpr (by omega)), hsz', h8192]
      omega
    obtain ⟨t'', hclear, hstacked, hcount⟩ := clearpteu_stack h' hsz' (by omega) hguard
    have hpush := hstacked.pushStack_eq (l := l') argv hsz'
    rw [hsz', show pagesOf sz.toNat + 2 - 1 = pagesOf sz.toNat + 1 by omega] at hpush
    have hpool : ∀ f, 0 < pageCount f t'' → kend ≤ f ∧ f < npages := fun f hf => by
      rw [hcount] at hf
      exact h'.frames.pool f (by omega)
    rw [startImage, bind_ok (vmM_eq heq)]
    simp only
    rw [if_neg hne, bind_ok (vmM_eq hclear)]
    by_cases hfit : ArgsFit ((pagesOf sz.toNat + 1) * 4096) argv 0 ((pagesOf sz.toNat + 2) * 4096)
    · rw [if_pos hfit]
      obtain ⟨b, hb⟩ := hpush.1 hfit
      rw [bind_ok (vmM_eq hb)]
      cases b with
      | true =>
          obtain ⟨s', hs', hst⟩ := commit_eq (t := t'') (s := { s with mem := ⟨l'⟩ }) sz' hpd hold
          exact ⟨0, s', hs', .inl rfl, hst⟩
      | false =>
          obtain ⟨s', hs', hst⟩ := bad_eq (s := { s with mem := ⟨l'⟩ }) hpool
          exact ⟨-1, s', hs', .inr rfl, hst⟩
    · rw [if_neg hfit, bind_error (vmM_error (hpush.2 hfit))]

end Start

section Open

def State.setFs (s : State) (fs : Fs.State) : State := { s with kernel := { s.kernel with fs } }

theorem fsM_eq {α : Type} {m : Fs.FsM α} {a : α} {fs : Fs.State} (h : m s.kernel.fs = .ok (a, fs)) :
    fsM m s = .ok (a, s.setFs fs) := by
  rw [fsM, kernelM, Kernel.fsM, Exec.zoom, Exec.zoom, h]
  rfl

theorem Opened.iunlockput {fs : Fs.State} (h : Opened sb fs ip) :
    ∃ fs', Fs.iunlockput sb ip fs = .ok ((), fs') := by
  have hput := wp_iff.mp (Fs.iput_spec h.consistent h.ref)
  have hun : Fs.iunlock ip fs = .ok ((), fs) := by
    rw [Fs.iunlock, bind_ok (a := fs.icache ip) (t := fs) rfl, if_neg (by have := h.ref; omega)]
    rfl
  cases hr : Fs.iput sb ip fs with
  | error e => exact (hput.2 e hr).elim
  | ok q => exact ⟨q.2, by rw [Fs.iunlockput, bind_ok hun, hr]⟩

end Open

section Exec

attribute [local irreducible] Vm.freevm Vm.allocuvm

variable [Fs.Devsw] {path : List UInt8} {fs : Fs.State}

structure Opens (sb : Fs.Layout) (p : Fin nproc) (path : List UInt8) (s : State) (ip : Fin ninode)
    (fs : Fs.State) : Prop
    extends Opened sb fs ip where
  found : ∃ c fs₁, (s.kernel.ptable p).cwd = some c ∧ Fs.namei sb c path s.kernel.fs = .ok (some ip, fs₁) ∧
    Fs.ilock sb ip fs₁ = .ok ((), fs)

def File.IsElf (x : File) : Prop := 64 ≤ x.size ∧ field (x.read 0 64) 0 4 = 0x464C457F

instance (x : File) : Decidable x.IsElf := inferInstanceAs (Decidable (_ ∧ _))

def File.phnum (x : File) : Nat := field (x.read 0 64) 56 2

def File.phoff (x : File) : Nat := field (x.read 0 64) 32 8 % 2 ^ 32

def finish (room : Nat) (argv : List Arg) : Loading → Except Panic Bool
  | .halt e => .error e
  | .stop _ astray => .ok astray
  | .done sz astray =>
      if room < imagePages (pagesOf sz + 2) then .error .outOfMemory
      else if ArgsFit ((pagesOf sz + 1) * 4096) argv 0 ((pagesOf sz + 2) * 4096) then .ok astray
      else .error .trap

/-- How `exec` ends when there are `room` free pages: with a panic, or not, and then whether file bytes have gone to
physical page 0. -/
def outcome (x : File) (room : Nat) (argv : List Arg) : Except Panic Bool :=
  if ¬ x.IsElf then .ok false
  else if room = 0 then .error .outOfMemory
  else finish room argv (segments x room x.phnum x.phoff 4096 false)

def execFile (kend : Nat) (sb : Fs.Layout) (p : Fin nproc) (argv : List Arg) (ip : Fin ninode) : MM Int := do
  match ← loadImage kend sb ip with
  | (some pgdir, some sz) => do
      fsM (Fs.iunlockput sb ip)
      startImage kend p argv pgdir sz
  | (pgdir, _) => badFile kend sb pgdir ip

theorem exec_eq_execFile (h : Opens sb p path s ip fs) :
    exec kend sb p path argv s = execFile kend sb p argv ip (s.setFs fs) := by
  obtain ⟨c, fs₁, hc, hname, hlock⟩ := h.found
  have hcwd : kernelM (Kernel.cwd p) s = .ok (c, s) := by
    rw [kernelM, Exec.zoom, Kernel.cwd, Kernel.proc, bind_ok (a := s.kernel.ptable p) (t := s.kernel) rfl, hc]
    rfl
  rw [exec, bind_ok hcwd, bind_ok (fsM_eq hname)]
  simp only
  rw [bind_ok (fsM_eq (s := s.setFs fs₁) hlock)]
  rfl

theorem loadImage_elf (hop : Opened sb s.kernel.fs ip) (helf : (fileOf s.kernel.fs ip).IsElf) :
    loadImage kend sb ip s = (do
      match ← vmM setupkvm with
      | none => pure (none, none)
      | some pgdir => do
          let (pgdir, sz) ← loadSegments kend sb ip (fileOf s.kernel.fs ip).phnum
            (UInt32.ofNat (field ((fileOf s.kernel.fs ip).read 0 64) 32 8)) pgdir 4096
          pure (some pgdir, sz) : MM (Option Pgdir × Option UInt64)) s := by
  have hsize := hop.size_lt
  have hlen : 64 ≤ (fileOf s.kernel.fs ip).size := helf.1
  have hread := hop.fsM_readi 0 64
  rw [show (0 : UInt32).toNat = 0 from rfl, show (64 : UInt32).toNat = 64 from rfl,
    File.readi_of_le (by omega) (by omega)] at hread
  rw [loadImage, bind_ok hread]
  simp only [Nat.cast_ofNat, ne_eq, not_true_eq_false, if_false]
  rw [if_neg (not_not.mpr helf.2)]
  rfl

theorem loadImage_nil (hop : Opened sb s.kernel.fs ip) (helf : (fileOf s.kernel.fs ip).IsElf)
    (hl : s.mem.freelist = []) :
    loadImage kend sb ip s = .error (.panic .outOfMemory) := by
  have hset : setupkvm s.mem = .error (.panic .outOfMemory) := by
    rw [show s.mem = ⟨[]⟩ from congrArg Vm.Mem.mk hl]
    rfl
  rw [loadImage_elf hop helf, bind_error (vmM_error hset)]

theorem loadImage_cons (kend : Nat) {f : Nat} (hop : Opened sb s.kernel.fs ip)
    (helf : (fileOf s.kernel.fs ip).IsElf)
    (hl : s.mem.freelist = f :: l) :
    loadImage kend sb ip s = (loadSegments kend sb ip (fileOf s.kernel.fs ip).phnum
      (UInt32.ofNat (field ((fileOf s.kernel.fs ip).read 0 64) 32 8)) (blank 3 f) 4096 >>=
        fun q => pure (some q.1, q.2)) { s with mem := ⟨l⟩ } := by
  have hset : setupkvm s.mem = .ok (some (blank 3 f), ⟨l⟩) := by
    rw [show s.mem = ⟨f :: l⟩ from congrArg Vm.Mem.mk hl]
    rfl
  rw [loadImage_elf hop helf, bind_ok (vmM_eq hset)]

omit [Fs.Devsw] in
theorem badFile_eq (kend : Nat) {o : Option Pgdir} (hop : Opened sb s.kernel.fs ip)
    (h : ∀ t ∈ o, ∀ f, 0 < pageCount f t → kend ≤ f ∧ f < npages) :
    ∃ s', badFile kend sb o ip s = .ok (-1, s') ∧ s'.stores = s.stores := by
  obtain ⟨fs', hput⟩ := hop.iunlockput
  cases o with
  | none =>
      refine ⟨s.setFs fs', ?_, rfl⟩
      show (fsM (Fs.iunlockput sb ip) >>= fun _ => pure (-1)) s = _
      rw [bind_ok (fsM_eq hput)]
      rfl
  | some t =>
      obtain ⟨m, hm⟩ := freevm_total (l := s.mem.freelist) (h t rfl)
      refine ⟨State.setFs { s with mem := m } fs', ?_, rfl⟩
      show (vmM (freevm kend (some t)) >>= fun _ => fsM (Fs.iunlockput sb ip) >>= fun _ => pure (-1)) s = _
      rw [bind_ok (vmM_eq hm), bind_ok (fsM_eq (s := { s with mem := m }) hput)]
      rfl

def Ends (l₀ : List Nat) (w₀ : List Store) : Except Panic Bool → Except Halt (Int × State) → Prop
  | .error e, r => r = .error (.panic e)
  | .ok astray, r => ∃ i s' w, r = .ok (i, s') ∧ (i = 0 ∨ i = -1) ∧ s'.stores = w ++ w₀ ∧
      (astray = false ↔ ∀ v ∈ w, v.Fine l₀)

theorem execFile_eq (hk : 0 < kend) (hop : Opened sb s.kernel.fs ip) (hd : s.mem.freelist.Nodup)
    (hpool : ∀ g ∈ s.mem.freelist, kend ≤ g ∧ g < npages) {told : Pgdir} (hpd : s.pgdir p = some told)
    (hold : ∀ f, 0 < pageCount f told → kend ≤ f ∧ f < npages) :
    Ends s.mem.freelist s.stores (outcome (fileOf s.kernel.fs ip) s.mem.freelist.length argv)
      (execFile kend sb p argv ip s) := by
  have hsize := hop.size_lt
  have hread := hop.fsM_readi 0 64
  rw [show (0 : UInt32).toNat = 0 from rfl, show (64 : UInt32).toNat = 64 from rfl] at hread
  by_cases helf : (fileOf s.kernel.fs ip).IsElf
  · rw [outcome, if_neg (not_not.mpr helf), execFile]
    cases hl : s.mem.freelist with
    | nil =>
        rw [List.length_nil, if_pos rfl, bind_error (loadImage_nil hop helf hl)]
        rfl
    | cons f l =>
        rw [hl] at hd hpool
        have hzero : 0 ∉ f :: l := fun h0 => by
          have := hpool 0 h0
          omega
        have hseg := loadSegments_eq hzero hop (fileOf s.kernel.fs ip).phnum
          (UInt32.ofNat (field ((fileOf s.kernel.fs ip).read 0 64) 32 8)) (newImage_blank hd hpool)
          (show Reached (f :: l) s l false { s with mem := ⟨l⟩ } from ⟨[], rfl, by simp⟩)
        rw [UInt32.toNat_ofNat'] at hseg
        change Loading.Describes _ _ _ (segments _ _ _ (fileOf s.kernel.fs ip).phoff 4096 _) _ at hseg
        have himage := loadImage_cons kend hop helf hl
        rw [if_neg (by simp)]
        generalize segments (fileOf s.kernel.fs ip) (f :: l).length (fileOf s.kernel.fs ip).phnum
          (fileOf s.kernel.fs ip).phoff 4096 false = L at hseg ⊢
        cases L with
        | halt e =>
            rw [bind_error hseg] at himage
            rw [bind_error himage]
            rfl
        | stop sz astray =>
            obtain ⟨sz', t, l', s', hsz, h', hs', hrun⟩ := hseg
            rw [bind_ok hrun] at himage
            rw [bind_ok himage]
            obtain ⟨w, rfl, hw⟩ := hs'.stores
            obtain ⟨s₂, hs₂, hst⟩ := badFile_eq kend (o := some t)
              (s := State.addStores { s with mem := ⟨l'⟩ } w) hop (by
                rintro _ ⟨⟩ g hg
                exact h'.frames.pool g (by omega))
            exact ⟨-1, s₂, w, hs₂, .inr rfl, hst, hw⟩
        | done sz astray =>
            obtain ⟨sz', t, l', s', hsz, h', hs', hrun⟩ := hseg
            rw [bind_ok hrun] at himage
            rw [bind_ok himage]
            obtain ⟨w, rfl, hw⟩ := hs'.stores
            obtain ⟨fs', hput⟩ := hop.iunlockput
            have hstart := startImage_eq (p := p) argv h'
              (s := (State.addStores { s with mem := ⟨l'⟩ } w).setFs fs') rfl hpd hold
            rw [hsz] at hstart
            show Ends _ _ (if _ then _ else if _ then _ else _) ((fsM (Fs.iunlockput sb ip) >>=
              fun _ => startImage kend p argv t sz') _)
            rw [bind_ok (fsM_eq (s := State.addStores { s with mem := ⟨l'⟩ } w) hput)]
            by_cases hroom : (f :: l).length < imagePages (pagesOf sz + 2)
            · rw [if_pos hroom] at hstart ⊢
              exact hstart
            · rw [if_neg hroom] at hstart ⊢
              by_cases hfit : ArgsFit ((pagesOf sz + 1) * 4096) argv 0 ((pagesOf sz + 2) * 4096)
              · rw [if_pos hfit] at hstart ⊢
                obtain ⟨r, s₂, hs₂, hr, hst⟩ := hstart
                exact ⟨r, s₂, w, hs₂, hr, hst, hw⟩
              · rw [if_neg hfit] at hstart ⊢
                exact hstart
  · have hnone : loadImage kend sb ip s = .ok ((none, none), s) := by
      rw [loadImage, bind_ok hread]
      by_cases hlen : 64 ≤ (fileOf s.kernel.fs ip).size
      · rw [File.readi_of_le (by omega) (by omega)]
        simp only [Nat.cast_ofNat, ne_eq, not_true_eq_false, if_false]
        rw [if_pos fun hmagic => helf ⟨hlen, hmagic⟩]
        rfl
      · have hfst := File.readi_fst (fileOf s.kernel.fs ip) 0 64 (by omega) (by omega)
        generalize (fileOf s.kernel.fs ip).readi 0 64 = q at hfst
        obtain ⟨r, bs⟩ := q
        have hr : r ≠ 64 := fun hr => by
          have := hfst.mp hr
          omega
        simp only [if_pos hr]
        rfl
    obtain ⟨s', hs', hst⟩ := badFile_eq kend (o := none) hop (by simp)
    rw [outcome, if_pos helf, execFile, bind_ok hnone]
    exact ⟨-1, s', [], hs', .inr rfl, hst, by simp⟩

end Exec

end Xv6.Machine
