import Xv6.Fs.DirCalls
import Xv6.Kernel.RefCounts

namespace Xv6.Kernel

open Lib Lib.Exec Lib.RefCount Finset

variable {sb : Fs.Layout} {k k' : State} {T T' : Fin nproc → Proc} {fh fh' : List (Fin nfile)} {L L' : List Fs.Hold}
  {x : Fs.Hold} {s : Fs.State} {f : Fin nfile} {p : Fin nproc} {j : Nat}

abbrev State.tree (sb : Fs.Layout) (k : State) : Fs.Tree := Fs.tree sb k.fs.disk

abbrev refs (T : Fin nproc → Proc) (k : State) (i : Fin ninode) : Nat := opens k.ftable i + cwds T i

abbrev inums (s : Fs.State) (i : Fin ninode) : Nat := (s.icache i).inum

/-- What a file refers to is in use, and it is no directory if the file can be written. -/
def File.Sound (t : Fs.Tree) (J : Fin ninode → Nat) (x : File) : Prop :=
  x.type = .inode → (t (J x.ip)).type ≠ 0 ∧ (x.writable = true → (t (J x.ip)).type ≠ Fs.tDir)

/-- The state in a call that holds references to the files `fh` and the inodes `L`, where `T` is what the process
table is going to be. -/
structure Kept (sb : Fs.Layout) (T : Fin nproc → Proc) (fh : List (Fin nfile)) (L : List Fs.Hold) (k : State) :
    Prop where
  files : Holding T fh (L.map Fs.Hold.ip) k
  held : Fs.Held sb (refs T k) (inums k.fs) L k.fs
  shaped : Fs.Shaped sb.ninodes (k.tree sb)
  sound : ∀ f, (k.ftable f).Sound (k.tree sb) (inums k.fs)
  cwd : ∀ p i, (T p).cwd = some i → (k.tree sb (inums k.fs i)).type = Fs.tDir

structure Between (sb : Fs.Layout) (k : State) : Prop where
  kept : Kept sb k.ptable [] [] k
  procs : ∀ p, (k.ptable p).Settled
  root : rootino < sb.ninodes

theorem Between.counted (h : Between sb k) : Counted k := ⟨h.kept.files, h.procs⟩

theorem opens_pos (hf : (k.ftable f).type = .inode) : 0 < opens k.ftable (k.ftable f).ip :=
  card_pos.mpr ⟨f, by simp [hf]⟩

namespace Kept

theorem fs (h : Kept sb T fh L k) (hs : Fs.Held sb (refs T k) (inums k.fs) L' s)
    (hT : Fs.Shaped sb.ninodes (Fs.tree sb s.disk))
    (hkeep : ∀ j, Fs.Pinned (refs T k) (inums k.fs) L' j → (k.tree sb j).type ≠ 0 →
      (Fs.tree sb s.disk j).type = (k.tree sb j).type) : Kept sb T fh L' { k with fs := s } := by
  have hbase (i) (hi : 0 < refs T k i) : inums s i = inums k.fs i ∧ ((k.tree sb (inums k.fs i)).type ≠ 0 →
      (Fs.tree sb s.disk (inums s i)).type = (k.tree sb (inums k.fs i)).type) := by
    have hi' : inums s i = inums k.fs i := hs.base i hi
    rw [hi']
    exact ⟨rfl, hkeep _ (.inl ⟨i, hi, rfl⟩)⟩
  refine ⟨⟨h.files.files, ⟨hs.exact, fun i m hi hm hk => ?_⟩, h.files.idle, ?_⟩, ?_, hT, fun f hf => ?_,
    fun p i hi => ?_⟩
  · exact hs.consistent.cache.unique i m hi hm (congrArg Prod.snd hk)
  · exact ⟨h.files.pipes.one, h.files.pipes.opened, h.files.pipes.used, h.files.pipes.unused⟩
  · exact ⟨hs.consistent, hs.exact, fun _ _ => rfl, hs.held, hs.named⟩
  · have hpos : 0 < opens k.ftable (k.ftable f).ip := opens_pos hf
    obtain ⟨hi, htype⟩ := hbase (k.ftable f).ip (by dsimp only [refs]; omega)
    obtain ⟨h0, hw⟩ := h.sound f hf
    have htype := htype h0
    exact ⟨fun hz => h0 (htype.symm.trans hz), fun hwr hd => hw hwr (htype.symm.trans hd)⟩
  · have hpos := cwds_pos hi
    obtain ⟨-, htype⟩ := hbase i (by dsimp only [refs]; omega)
    have hdir := h.cwd p i hi
    rw [show ({ k with fs := s } : State).tree sb = Fs.tree sb s.disk from rfl]
    exact (htype (by rw [hdir]; decide)).trans hdir

theorem tables (h : Kept sb T fh L k) (hf : Holding T' fh' (L'.map Fs.Hold.ip) k') (hfs : k'.fs = k.fs)
    (hL : ∀ x ∈ L', x ∈ L ∨ inums k.fs x.ip = x.inum ∧ x.locked = false)
    (hsound : ∀ f, (k'.ftable f).Sound (k.tree sb) (inums k.fs))
    (hcwd : ∀ p i, (T' p).cwd = some i → (k.tree sb (inums k.fs i)).type = Fs.tDir) : Kept sb T' fh' L' k' := by
  refine ⟨hf, ?_, ?_, ?_, ?_⟩
  · have hexact := hf.inodes.exact
    rw [hfs] at hexact ⊢
    refine ⟨h.held.consistent, hexact, fun _ _ => rfl, fun x hx => ?_, h.held.named⟩
    rcases hL x hx with hx | ⟨hi, hl⟩
    · exact h.held.held x hx
    · exact ⟨hi, fun hl' => absurd (hl.symm.trans hl') nofun⟩
  · rw [State.tree, hfs]
    exact h.shaped
  · rw [State.tree, hfs]
    exact hsound
  · rw [State.tree, hfs]
    exact hcwd

end Kept

/-- From `k` to `k'` references have been given up, and inodes may have vanished with them. -/
structure Shrunk (sb : Fs.Layout) (k k' : State) : Prop where
  swept : Fs.Swept (Fs.Used k'.fs) (k.tree sb) (k'.tree sb)
  used : ∀ j, Fs.Used k'.fs j → Fs.Used k.fs j

theorem Shrunk.of_fs (h : k'.fs = k.fs) : Shrunk sb k k' := by
  refine ⟨?_, fun j => by rw [h]; exact id⟩
  rw [State.tree, State.tree, h]
  exact Fs.Swept.refl _ _

theorem Shrunk.trans {k'' : State} (h : Shrunk sb k k') (h' : Shrunk sb k' k'') : Shrunk sb k k'' :=
  ⟨(h.swept.mono h'.used).trans h'.swept, fun j hj => h.used j (h'.used j hj)⟩

theorem wp_fsM {α : Type} {m : Fs.FsM α} {Q : α → State → Prop} {X : Halt → Prop} :
    wp (fsM m) Q X k ↔ wp m (fun a s => Q a { k with fs := s }) X k.fs := wp_zoom _ _

theorem Kept.drop (h : Kept sb T fh (x :: L) k) (hs : Fs.Held sb (refs T k) (inums k.fs) L s)
    (hd : s.disk = k.fs.disk ∨ Fs.Vanished (refs T k) (inums k.fs) L x.inum (k.tree sb) (Fs.tree sb s.disk)) :
    Kept sb T fh L { k with fs := s } ∧ Shrunk sb k { k with fs := s } := by
  have hswept : Fs.Swept (Fs.Pinned (refs T k) (inums k.fs) L) (k.tree sb) (Fs.tree sb s.disk) := by
    rcases hd with hd | hd
    · rw [hd]
      exact Fs.Swept.refl _ _
    · exact hd.swept fun x hx => hx
  refine ⟨h.fs hs (h.shaped.swept hswept) fun j hj _ => by rw [hswept.of_pinned hj], ?_, fun j hj => ?_⟩
  · exact hswept.held hs fun x hx => .inl hx
  · exact h.held.pinned_iff.mp ((hs.pinned_iff.mpr hj).mono fun x hx => List.mem_cons_of_mem _ hx)

/-- What giving up the reference `x` does. Nothing vanishes if another reference remains. -/
def Dropped (sb : Fs.Layout) (T : Fin nproc → Proc) (fh : List (Fin nfile)) (L : List Fs.Hold) (x : Fs.Hold)
    (k k' : State) :
    Prop :=
  Kept sb T fh L k' ∧ Shrunk sb k k' ∧
    (((k.tree sb x.inum).Orphan → Fs.Pinned (refs T k) (inums k.fs) L x.inum) → k'.fs.disk = k.fs.disk) ∧
    (∀ j, Fs.Pinned (refs T k) (inums k.fs) L j ↔ Fs.Used k'.fs j) ∧ ∃ fs, k' = { k with fs }

theorem Kept.dropped (h : Kept sb T fh (x :: L) k) (hs : Fs.Held sb (refs T k) (inums k.fs) L s)
    (hd : s.disk = k.fs.disk ∨ Fs.Vanished (refs T k) (inums k.fs) L x.inum (k.tree sb) (Fs.tree sb s.disk)) :
    Dropped sb T fh L x k { k with fs := s } := by
  obtain ⟨hkept, hshrunk⟩ := h.drop hs hd
  exact ⟨hkept, hshrunk, fun hpin => hd.resolve_right fun hv => hv.1 (hpin hv.2.1), fun _ => hs.pinned_iff, s, rfl⟩

theorem iput_kept (h : Kept sb T fh (x :: L) k) :
    wp (fsM (Fs.iput sb x.ip)) (fun _ k' => Dropped sb T fh L x k k') (fun _ => False) k :=
  wp_fsM.mpr <| (Fs.iput_held h.held).imp fun _ _ ⟨hs, hd⟩ => h.dropped hs hd

theorem iunlockput_kept (h : Kept sb T fh (x :: L) k) :
    wp (fsM (Fs.iunlockput sb x.ip)) (fun _ k' => Dropped sb T fh L x k k') (fun _ => False) k :=
  wp_fsM.mpr <| (Fs.iunlockput_held h.held).imp fun _ _ ⟨hs, hd⟩ => h.dropped hs hd

theorem sound_update {t : Fs.Tree} {J : Fin ninode → Nat} {c : Fin nfile → File} {y : File}
    (h : ∀ g, (c g).Sound t J)
    (hy : y.Sound t J) (g : Fin nfile) : (Function.update c f y g).Sound t J :=
  (Function.forall_update_iff c fun _ x => x.Sound t J).mpr ⟨hy, fun g _ => h g⟩ g

theorem pipeclose_total (q : Nat) (w : Bool) : wp (pipeclose q w) (fun _ _ => True) (fun _ => False) k := by
  simp only [pipeclose, pipe, setPipe, wp_bind, wp_gets, wp_update]
  exact wp_ite.mpr ⟨fun _ => trivial, fun _ => trivial⟩

theorem fileclose_kept (h : Kept sb T (f :: fh) L k) :
    wp (fileclose sb f) (fun _ k' => Kept sb T fh L k' ∧ Shrunk sb k k' ∧ k'.ptable = k.ptable)
      (fun _ => False) k := by
  have hpos : 0 < (k.ftable f).ref := h.files.files.pos List.mem_cons_self
  simp only [fileclose, file, wp_bind, wp_gets]
  rw [if_neg (by omega)]
  have hold (x) (hx : x ∈ L) : x ∈ L ∨ inums k.fs x.ip = x.inum ∧ x.locked = false := .inl hx
  by_cases hgt : (k.ftable f).ref - 1 > 0
  · rw [if_pos hgt]
    refine ⟨h.tables (h.files.setRef hgt h.files.files.drop) rfl hold ?_ h.cwd, .of_fs rfl, rfl⟩
    exact sound_update h.sound (h.sound f)
  · have hr : (k.ftable f).ref = 1 := by omega
    rw [if_neg hgt]
    simp only [setFile, wp_bind, wp_update]
    change wp _ _ _ { k with ftable := Function.update k.ftable f (k.ftable f).closed }
    have hclosed : (k.ftable f).closed.Sound (k.tree sb) (inums k.fs) := fun ht => nomatch ht
    have hsound := sound_update (f := f) h.sound hclosed
    unfold closeLast
    split
    next ht =>
      have hf : Holding T fh (L.map Fs.Hold.ip)
          { k with ftable := Function.update k.ftable f (k.ftable f).closed } := by
        refine h.files.free hr (h.files.pipes.close_other ?_) rfl rfl fun i => ?_
        · rw [ht]; simp
        · simp [ht]
      exact ⟨h.tables hf rfl hold hsound h.cwd, .of_fs rfl, rfl⟩
    next ht =>
      refine ((pipeclose_spec h.files.pipes ⟨ht, rfl, rfl⟩).conj (pipeclose_total _ _)).mono
        (fun _ k' ⟨⟨hp, _, _, hk⟩, _⟩ => ?_) fun _ he => he.2
      have hf : Holding T fh (L.map Fs.Hold.ip) k' := by
        refine h.files.free hr hp (by rw [hk]) (by rw [hk]) fun i => ?_
        simp [ht]
      have hfs : k'.fs = k.fs := by rw [hk]
      refine ⟨h.tables hf hfs hold ?_ h.cwd, .of_fs hfs, by rw [hk]⟩
      rw [hk]
      exact hsound
    next ht =>
      set x : Fs.Hold := ⟨(k.ftable f).ip, inums k.fs (k.ftable f).ip, false⟩
      set k₁ : State := { k with ftable := Function.update k.ftable f (k.ftable f).closed }
      have hf : Holding T fh ((x :: L).map Fs.Hold.ip) k₁ := by
        refine h.files.free hr (h.files.pipes.close_other ?_) rfl rfl fun i => ?_
        · rw [ht]; simp
        · show List.count i ((k.ftable f).ip :: L.map Fs.Hold.ip) = _
          by_cases hi : (k.ftable f).ip = i
          · rw [hi, List.count_cons_self, if_pos ⟨ht, rfl⟩]
          · rw [List.count_cons_of_ne hi, if_neg (fun hc => hi hc.2), Nat.add_zero]
      have h₁ : Kept sb T fh (x :: L) k₁ := by
        refine h.tables hf rfl (fun y hy => ?_) hsound h.cwd
        rcases List.mem_cons.mp hy with rfl | hy
        · exact .inr ⟨rfl, rfl⟩
        · exact .inl hy
      refine (iput_kept h₁).imp fun _ k' ⟨hk', hshrunk, _, _, fs, he⟩ => ⟨hk', ⟨hshrunk.swept, hshrunk.used⟩,
        by rw [he]⟩

theorem fileclose_none (ht : (k.ftable f).type = .none) (hr : (k.ftable f).ref = 1) :
    wp (fileclose sb f) (fun _ k' => k' = { k with ftable := Function.update k.ftable f (k.ftable f).closed })
      (fun _ => False) k := by
  simp only [fileclose, file, wp_bind, wp_gets]
  rw [hr, if_neg (by decide), if_neg (by decide)]
  simp only [setFile, wp_bind, wp_update, closeLast, ht, wp_pure]
  rfl

theorem filealloc_total : wp filealloc (fun r _ => r = freeFile k.ftable) (fun _ => False) k := by
  simp only [filealloc, wp_bind, wp_gets]
  cases freeFile k.ftable with
  | none => exact rfl
  | some f => exact rfl

theorem fdalloc_total (p : Fin nproc) (f : Fin nfile) :
    wp (fdalloc p f) (fun r _ => r = freeFd (k.ptable p).ofile) (fun _ => False) k := by
  simp only [fdalloc, proc, wp_bind, wp_gets]
  cases freeFd (k.ptable p).ofile with
  | none => exact rfl
  | some fd => exact rfl

def CanOpen (k : State) (p : Fin nproc) : Prop := freeFile k.ftable ≠ none ∧ freeFd (k.ptable p).ofile ≠ none

theorem openFile_kept {ip : Fin ninode} {n : Nat} {omode : UInt32} (h : Kept sb k.ptable [] [⟨ip, n, true⟩] k)
    (hs : ∀ p, (k.ptable p).Settled) (hp : ¬ (k.ptable p).Dead) (hw : omode ≠ 0 → (k.tree sb n).type ≠ Fs.tDir) :
    wp (openFile sb p ip omode) (fun r k' => Kept sb k'.ptable [] [] k' ∧ (∀ p, (k'.ptable p).Settled) ∧
      Shrunk sb k k' ∧
      (((k.tree sb n).Orphan → Fs.Pinned (refs k.ptable k) (inums k.fs) [] n) → k'.fs.disk = k.fs.disk) ∧
      (∀ j, Fs.Pinned (refs k.ptable k) (inums k.fs) [] j → Fs.Used k'.fs j) ∧
      (CanOpen k p ∧ 0 ≤ r ∧ k'.fs = k.fs ∨ ¬ CanOpen k p ∧ r = -1)) (fun _ => False) k := by
  refine ((filealloc_spec h.files).and_safe filealloc_total).andThen ?_
  rintro r k₁ ⟨hk₁, hr₁⟩
  cases r with
  | none =>
      obtain rfl := hk₁
      refine (iunlockput_kept h).andThen ?_
      rintro _ k' ⟨h', hshrunk, hsame, hused, fs, hk'⟩
      have hp' : k'.ptable = k₁.ptable := by rw [hk']
      exact ⟨by rw [hp']; exact h', by rw [hp']; exact hs, hshrunk, hsame, fun j => (hused j).mp,
        .inr ⟨fun hc => hc.1 hr₁.symm, rfl⟩⟩
  | some f =>
      obtain ⟨hf0, hft, hf₁, hk₁⟩ := hk₁
      have hp₁ : k₁.ptable = k.ptable := by rw [hk₁]
      have hfs₁ : k₁.fs = k.fs := by rw [hk₁]
      have hsound₁ (g) : (k₁.ftable g).Sound (k.tree sb) (inums k.fs) := by
        rw [hk₁]
        exact sound_update h.sound (show ((k.ftable f).setRef 1).Sound _ _ from h.sound f) g
      have h₁ : Kept sb k.ptable [f] [⟨ip, n, true⟩] k₁ := h.tables hf₁ hfs₁ (fun x hx => .inl hx) hsound₁ h.cwd
      refine ((fdalloc_spec p f).and_safe (fdalloc_total p f)).andThen ?_
      rintro r k₂ ⟨hk₂, hr₂⟩
      rw [hp₁] at hr₂
      cases r with
      | none =>
          obtain rfl := hk₂
          have hfile : k₂.ftable f = (k.ftable f).setRef 1 := by
            rw [hk₁]
            exact Function.update_self ..
          have hclose := (fileclose_kept h₁).and_safe
            (fileclose_none (by rw [hfile]; exact hft) (by rw [hfile]; rfl))
          refine hclose.andThen ?_
          rintro _ k₃ ⟨⟨h₃, hshrunk₃, hp₃⟩, hk₃⟩
          have hfs₃ : k₃.fs = k.fs := by rw [hk₃, hk₁]
          have hrefs : refs k.ptable k₃ = refs k.ptable k := by
            have hopens : opens k₃.ftable = opens k.ftable := by
              rw [hk₃, hk₁]
              dsimp only
              rw [Function.update_idem]
              exact opens_of_ne (by rw [hft]; decide) (fun h => by cases h)
            funext i
            rw [refs, hopens]
          refine (iunlockput_kept h₃).andThen ?_
          rintro _ k' ⟨h', hshrunk, hsame, hused, fs, hk'⟩
          have hp' : k'.ptable = k.ptable := by rw [hk', hp₃, hp₁]
          rw [hrefs, hfs₃] at hused
          refine ⟨by rw [hp']; exact h', by rw [hp']; exact hs, ?_, ?_, fun j => (hused j).mp,
            .inr ⟨fun hc => hc.2 hr₂.symm, rfl⟩⟩
          · exact (Shrunk.of_fs hfs₁).trans (hshrunk₃.trans hshrunk)
          · rw [hrefs, State.tree, hfs₃] at hsame
            exact hsame
      | some fd =>
          obtain ⟨hfree, rfl⟩ := hk₂
          rw [hp₁] at hfree ⊢
          have hcan : CanOpen k p :=
            ⟨by rw [← hr₁]; exact Option.some_ne_none _, by rw [← hr₂]; exact Option.some_ne_none _⟩
          set T := Function.update k.ptable p ((k.ptable p).setOfile fd (some f)) with hT
          have h₂ : Holding T [] [ip] { k₁ with ptable := T } := (Files.install h₁.files hfree).of_ptable T
          have hfile : k₁.ftable f = (k.ftable f).setRef 1 := by
            rw [hk₁]
            exact Function.update_self ..
          have hlock : wp (Fs.iunlock ip) (fun _ t => t = k₁.fs) (fun _ => False) k₁.fs :=
            Fs.iunlock_held h₁.held List.mem_cons_self
          refine wp_bind.mpr <| wp_fsM.mpr <| hlock.imp fun _ t ht => ?_
          simp only [file, setFile, wp_bind, wp_gets, wp_update, wp_pure]
          rw [ht]
          set y : File := { k₁.ftable f with
            type := .inode
            ip
            off := 0
            readable := decide (omode &&& oWronly = 0)
            writable := decide (omode &&& oWronly ≠ 0 ∨ omode &&& oRdwr ≠ 0) } with hy
          have h₃ : Holding T [] [] { k₁ with ptable := T, ftable := Function.update k₁.ftable f y } := by
            refine Files.openInode h₂ ?_ ?_ ⟨rfl, rfl, rfl⟩
            · rw [hfile]
              exact hft
            · rw [hfile]
              exact Nat.one_ne_zero
          have hmem : (⟨ip, n, true⟩ : Fs.Hold) ∈ [(⟨ip, n, true⟩ : Fs.Hold)] := List.mem_singleton_self _
          have hinum : inums k.fs ip = n := (h.held.held _ hmem).1
          have hysound : y.Sound (k.tree sb) (inums k.fs) := by
            intro _
            rw [show y.ip = ip from rfl, hinum]
            refine ⟨h.held.type_ne hmem rfl, fun hwr => hw fun h0 => ?_⟩
            have hmode : decide (omode &&& oWronly ≠ 0 ∨ omode &&& oRdwr ≠ 0) = true := hwr
            rw [h0] at hmode
            exact absurd hmode (by decide)
          have hcwd (q) : (T q).cwd = (k.ptable q).cwd := by
            rw [hT]
            by_cases hq : q = p
            · rw [hq, Function.update_self]
              rfl
            · rw [Function.update_of_ne hq]
          refine ⟨h.tables h₃ hfs₁ (fun x hx => (by cases hx)) (sound_update hsound₁ hysound) fun q i hi =>
            h.cwd q i ?_, ?_,
            .of_fs hfs₁, fun _ => by rw [hfs₁], fun m hm => ?_, .inl ⟨hcan, Int.natCast_nonneg _, hfs₁⟩⟩
          · rw [← hcwd q]
            exact hi
          · exact settled_update hs ((hs p).setOfile hp fd _)
          · show Fs.Used k₁.fs m
            rw [hfs₁]
            exact h.held.pinned_iff.mp (hm.mono fun x hx => (by cases hx))

end Xv6.Kernel
