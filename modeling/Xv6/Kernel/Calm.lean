import Xv6.Kernel.TreeCalls

namespace Xv6.Kernel

open Lib Lib.RefCount Finset
open Lib.Exec hiding update
open Function (update update_idem update_of_ne update_self)

variable {sb : Fs.Layout} {k k' k'' : State} {T : Fin nproc → Proc} {fh : List (Fin nfile)} {L : List Fs.Hold}
  {s : Fs.State} {f : Fin nfile} {p np : Fin nproc} {c : Fin ninode} {x : File}

def File.Like (x y : File) : Prop := y.type = .inode → x.type = .inode ∧ y.ip = x.ip ∧ y.writable = x.writable

theorem File.Like.refl (x : File) : x.Like x := fun h => ⟨h, rfl, rfl⟩

theorem File.Like.trans {x y z : File} (h : x.Like y) (h' : y.Like z) : x.Like z := by
  intro hz
  obtain ⟨hy, hi, hw⟩ := h' hz
  obtain ⟨hx, hi', hw'⟩ := h hy
  exact ⟨hx, hi.trans hi', hw.trans hw'⟩

/-- The tables refer to no inode to which they have not referred before. -/
structure Tame (k k' : State) : Prop where
  files : ∀ f, (k.ftable f).Like (k'.ftable f)
  cwd : ∀ q i, (k'.ptable q).cwd = some i → ∃ q', (k.ptable q').cwd = some i

namespace Tame

theorem refl (k : State) : Tame k k := ⟨fun _ => .refl _, fun q _ h => ⟨q, h⟩⟩

theorem trans (h : Tame k k') (h' : Tame k' k'') : Tame k k'' := by
  refine ⟨fun f => (h.files f).trans (h'.files f), fun q i hi => ?_⟩
  obtain ⟨q', hq'⟩ := h'.cwd q i hi
  exact h.cwd q' i hq'

theorem setFile (hft : k'.ftable = update k.ftable f x) (hp : k'.ptable = k.ptable)
    (hx : (k.ftable f).Like x) :
    Tame k k' := by
  refine ⟨fun g => ?_, fun q i hi => ⟨q, by rw [← hp]; exact hi⟩⟩
  rw [hft]
  by_cases hg : g = f
  · rw [hg, update_self]
    exact hx
  · rw [update_of_ne hg]
    exact .refl _

theorem setCwd {y : Proc} (hp : k'.ptable = update k.ptable p y) (hft : k'.ftable = k.ftable)
    (hy : ∀ i, y.cwd = some i → ∃ q, (k.ptable q).cwd = some i) : Tame k k' := by
  refine ⟨fun f => by rw [hft]; exact .refl _, fun q i hi => ?_⟩
  rw [hp] at hi
  by_cases hq : q = p
  · rw [hq, update_self] at hi
    exact hy i hi
  · rw [update_of_ne hq] at hi
    exact ⟨q, hi⟩

theorem setProc {y : Proc} (hp : k'.ptable = update k.ptable p y) (hft : k'.ftable = k.ftable)
    (hy : y.cwd = (k.ptable p).cwd) : Tame k k' := .setCwd hp hft fun _ hi => ⟨p, hy.symm.trans hi⟩

theorem ne_inode (h : Tame k k') (hf : (k.ftable f).type ≠ .inode) : (k'.ftable f).type ≠ .inode :=
  fun ht => hf (h.files f ht).1

end Tame

structure Calm (sb : Fs.Layout) (k k' : State) : Prop where
  held : ∃ L, Fs.Held sb (refs k.ptable k) (inums k.fs) L k'.fs
  tree : k'.tree sb = k.tree sb
  tame : Tame k k'

theorem Calm.tables (h : Calm sb k k') (ht : Tame k' k'') (hfs : k''.fs = k'.fs) : Calm sb k k'' := by
  obtain ⟨hheld, htree, htame⟩ := h
  refine ⟨?_, ?_, htame.trans ht⟩
  · rw [hfs]
    exact hheld
  · rw [State.tree, hfs]
    exact htree

theorem Calm.fs (h : Calm sb k k') (hs : Fs.Held sb (refs k.ptable k) (inums k.fs) L s)
    (ht : Fs.tree sb s.disk = k.tree sb) : Calm sb k { k' with fs := s } :=
  ⟨⟨L, hs⟩, ht, h.tame.files, h.tame.cwd⟩

namespace Between

theorem calm (h : Between sb k) : Calm sb k k := ⟨⟨[], h.kept.held⟩, rfl, .refl k⟩

theorem of_calm (h : Between sb k) (hc : Counted k') (hk : Calm sb k k') : Between sb k' := by
  obtain ⟨⟨L, hs⟩, htree, htame⟩ := hk
  have hinum (i) (hi : 0 < refs k.ptable k i) : inums k'.fs i = inums k.fs i := hs.base i hi
  refine ⟨⟨hc.files, ⟨hs.consistent, hc.files.inodes.exact, fun _ _ => rfl, fun x hx =>
    (List.not_mem_nil hx).elim, hs.named⟩, ?_, fun f hf => ?_, fun q i hi => ?_⟩, hc.procs, h.root⟩
  · rw [htree]
    exact h.kept.shaped
  · obtain ⟨hf', hip, hw⟩ := htame.files f hf
    have hpos : 0 < opens k.ftable (k.ftable f).ip := opens_pos hf'
    rw [htree, hip, hinum _ (by dsimp only [refs]; omega), hw]
    exact h.kept.sound f hf'
  · obtain ⟨q', hq'⟩ := htame.cwd q i hi
    have hpos := cwds_pos hq'
    rw [htree, hinum _ (by dsimp only [refs]; omega)]
    exact h.kept.cwd q' i hq'

end Between

def ShortDir (e : Halt) : Prop :=
  e = .panic .dirlookupRead ∨ e = .panic .dirlinkRead ∨ e = .panic .isdirempty ∨ e = .panic .unlinkWritei

instance (e : Halt) : Decidable (ShortDir e) := inferInstanceAs (Decidable (_ ∨ _ ∨ _ ∨ _))

/-- How a call can stop: no directory is damaged, and an inode that is locked though it is free has been found by
a path. -/
def Stops (t : Fs.Tree) (cwd : Nat) (e : Halt) : Prop :=
  ¬ ShortDir e ∧ (e = .panic .ilockNoType → ∃ n, (Fs.Reach t rootino n ∨ Fs.Reach t cwd n) ∧ (t n).type = 0)

theorem Stops.of_ne {t : Fs.Tree} {cwd : Nat} {e : Halt} (h : ¬ ShortDir e) (h' : e ≠ .panic .ilockNoType) :
    Stops t cwd e :=
  ⟨h, fun he => absurd he h'⟩

theorem stops_pathPanic {t : Fs.Tree} {cwd : Nat} {path : List UInt8} {e : Halt}
    (h : Fs.PathPanic t (Fs.startOf path cwd) e) : Stops t cwd e := by
  rcases h with h | ⟨rfl, n, hreach, h0⟩
  · rcases h with rfl | rfl | rfl | rfl <;> exact .of_ne (by decide) (by decide)
  · refine ⟨by decide, fun _ => ⟨n, ?_, h0⟩⟩
    rw [Fs.startOf] at hreach
    split at hreach
    · exact .inl hreach
    · exact .inr hreach

theorem stops_unlinkPanic {t : Fs.Tree} {cwd : Nat} {path : List UInt8} {e : Halt}
    (h : Fs.UnlinkPanic t (Fs.startOf path cwd) e) : Stops t cwd e := by
  rcases h with h | ⟨rfl, -⟩
  · exact stops_pathPanic h
  · exact .of_ne (by decide) (by decide)

section Tables

theorem argfd_total (p : Fin nproc) (n : Int) : wp (argfd p n) (fun _ _ => True) (fun _ => False) k := by
  simp only [argfd, proc, wp_bind, wp_gets]
  split
  next => exact wp_ite.mpr ⟨fun _ => trivial, fun _ => trivial⟩
  next => trivial

theorem filedup_tame (f : Fin nfile) :
    wp (filedup f) (fun _ k' => Tame k k' ∧ k'.fs = k.fs ∧ k'.ptable = k.ptable)
      (fun e => e = .panic .filedup) k := by
  simp only [filedup, file, setFile, wp_bind, wp_gets]
  exact wp_ite.mpr ⟨fun _ => rfl, fun _ => ⟨Tame.setFile rfl rfl fun ht => ⟨ht, rfl, rfl⟩, rfl, rfl⟩⟩

theorem fdalloc_tame (p : Fin nproc) (f : Fin nfile) :
    wp (fdalloc p f) (fun _ k' => Tame k k' ∧ k'.fs = k.fs ∧ k'.ftable = k.ftable ∧
      (k'.ptable p).sz = (k.ptable p).sz) (fun _ => False) k := by
  simp only [fdalloc, proc, wp_bind, wp_gets]
  cases freeFd (k.ptable p).ofile with
  | none => exact ⟨.refl k, rfl, rfl, rfl⟩
  | some fd =>
      refine ⟨Tame.setProc rfl rfl rfl, rfl, rfl, ?_⟩
      dsimp only
      rw [update_self]

theorem sysDup_tame (p : Fin nproc) (n : Int) :
    wp (sysDup p n) (fun _ k' => Tame k k' ∧ k'.fs = k.fs) (fun e => e = .panic .filedup) k := by
  refine ((argfd_spec p n).and_safe (argfd_total p n)).andThen fun r k₀ ⟨⟨hk, _⟩, _⟩ => ?_
  rw [hk]
  cases r with
  | none => exact ⟨.refl k, rfl⟩
  | some r =>
      refine (fdalloc_tame p r.2).andThen fun o k₁ ⟨h₁, hfs₁, _⟩ => ?_
      cases o with
      | none => exact ⟨h₁, hfs₁⟩
      | some fd =>
          exact (filedup_tame r.2).bind fun _ k₂ ⟨h₂, hfs₂, _⟩ => ⟨h₁.trans h₂, hfs₂.trans hfs₁⟩

theorem fileclose_tame (ht : (k.ftable f).type ≠ .inode) :
    wp (fileclose sb f) (fun _ k' => Tame k k' ∧ k'.fs = k.fs) (fun e => e = .panic .fileclose) k := by
  simp only [fileclose, file, setFile, wp_bind, wp_gets]
  refine wp_ite.mpr ⟨fun _ => rfl, fun _ => wp_ite.mpr ⟨fun _ => ?_, fun _ => ?_⟩⟩
  · exact ⟨Tame.setFile rfl rfl fun hi => ⟨hi, rfl, rfl⟩, rfl⟩
  · simp only [wp_bind, wp_update]
    set k₁ : State :=
      { k with ftable := update k.ftable f { k.ftable f with ref := 0, type := .none } } with hk₁
    have h₁ : Tame k k₁ := Tame.setFile rfl rfl fun hi => nomatch hi
    unfold closeLast
    split
    next => exact ⟨h₁, rfl⟩
    next =>
      simp only [pipeclose, pipe, setPipe, wp_bind, wp_gets, wp_update]
      exact wp_ite.mpr ⟨fun _ => ⟨⟨h₁.files, h₁.cwd⟩, rfl⟩, fun _ => ⟨⟨h₁.files, h₁.cwd⟩, rfl⟩⟩
    next hi => exact absurd hi ht

def Idle (k : State) : Prop := ∀ f, (k.ftable f).ref = 0 → (k.ftable f).type = .none

theorem filealloc_tame (h : Idle k) :
    wp filealloc (fun r k' => (Tame k k' ∧ k'.fs = k.fs) ∧ Idle k' ∧ ∀ f, r = some f → (k'.ftable f).type ≠ .inode)
      (fun _ => False) k := by
  simp only [filealloc, wp_bind, wp_gets]
  cases hf : freeFile k.ftable with
  | none => exact ⟨⟨.refl k, rfl⟩, h, fun f hf => by cases hf⟩
  | some f =>
      have h0 : (k.ftable f).ref = 0 := by simpa [freeFile] using List.find?_some hf
      simp only [file, setFile, wp_bind, wp_gets, wp_update, wp_pure]
      have htame : Tame k { k with ftable := update k.ftable f { k.ftable f with ref := 1 } } :=
        Tame.setFile rfl rfl fun ht => ⟨ht, rfl, rfl⟩
      refine ⟨⟨htame, trivial⟩, fun g hg => ?_, fun g hg => ?_⟩
      · by_cases hgf : g = f
        · subst hgf
          simp at hg
        · simp only [update_of_ne hgf] at hg ⊢
          exact h g hg
      · rw [← Option.some.inj hg]
        exact htame.ne_inode (by rw [h f h0]; decide)

theorem closeIf_tame {o : Option (Fin nfile)} (ht : ∀ f, o = some f → (k.ftable f).type ≠ .inode) :
    wp (closeIf sb o) (fun _ k' => Tame k k' ∧ k'.fs = k.fs) (fun e => e = .panic .fileclose) k := by
  cases o with
  | none => exact ⟨.refl k, rfl⟩
  | some f => exact fileclose_tame (ht f rfl)

theorem pipeallocBad_tame (f0 f1 : Option (Fin nfile)) (h0 : ∀ f, f0 = some f → (k.ftable f).type ≠ .inode)
    (h1 : ∀ f, f1 = some f → (k.ftable f).type ≠ .inode) :
    wp (pipeallocBad sb f0 f1) (fun r k' => r = none ∧ Tame k k' ∧ k'.fs = k.fs)
      (fun e => e = .panic .fileclose) k :=
  (closeIf_tame h0).bind fun _ _ ⟨hk, hfs⟩ => (closeIf_tame fun f hf => hk.ne_inode (h1 f hf)).bind
    fun _ _ ⟨hk', hfs'⟩ =>
    ⟨rfl, hk.trans hk', hfs'.trans hfs⟩

def TablePanic (e : Halt) : Prop :=
  e = .panic .filedup ∨ e = .panic .fileclose ∨ e = .panic .outOfMemory ∨ e = .asleep

theorem TablePanic.stops {t : Fs.Tree} {cwd : Nat} {e : Halt} (h : TablePanic e) : Stops t cwd e := by
  rcases h with rfl | rfl | rfl | rfl <;> exact .of_ne (by decide) (by decide)

theorem pipealloc_tame (h : Idle k) (mem : Kalloc) :
    wp (pipealloc sb mem) (fun r k' => (Tame k k' ∧ k'.fs = k.fs) ∧
        ∀ f g, r = some (f, g) → (k'.ftable f).type ≠ .inode ∧ (k'.ftable g).type ≠ .inode) TablePanic k := by
  have hbad {k₁ : State} {f0 f1 : Option (Fin nfile)} (h₁ : Tame k k₁ ∧ k₁.fs = k.fs)
      (h0 : ∀ f, f0 = some f → (k₁.ftable f).type ≠ .inode) (h1 : ∀ f, f1 = some f → (k₁.ftable f).type ≠ .inode) :
      wp (pipeallocBad sb f0 f1) (fun r k' => (Tame k k' ∧ k'.fs = k.fs) ∧
        ∀ f g, r = some (f, g) → (k'.ftable f).type ≠ .inode ∧ (k'.ftable g).type ≠ .inode) TablePanic k₁ := by
    refine (pipeallocBad_tame f0 f1 h0 h1).mono ?_ fun e he => .inr (.inl he)
    rintro r k' ⟨hr, hk, hfs⟩
    rw [hr]
    exact ⟨⟨h₁.1.trans hk, hfs.trans h₁.2⟩, fun f g hfg => by cases hfg⟩
  refine (filealloc_tame h).andThen ?_
  rintro r k₁ ⟨h₁, hidle₁, hr₁⟩
  cases r with
  | none => exact hbad h₁ (fun f hf => by cases hf) (fun f hf => by cases hf)
  | some f =>
      refine (filealloc_tame hidle₁).andThen ?_
      rintro r k₂ ⟨⟨h₂, hfs₂⟩, _, hr₂⟩
      have hf₂ : (k₂.ftable f).type ≠ .inode := h₂.ne_inode (hr₁ f rfl)
      have h₂ : Tame k k₂ ∧ k₂.fs = k.fs := ⟨h₁.1.trans h₂, hfs₂.trans h₁.2⟩
      cases r with
      | none => exact hbad h₂ (fun g hg => Option.some.inj hg ▸ hf₂) (fun f hf => by cases hf)
      | some g =>
          cases mem with
          | exhausted => exact .inr (.inr (.inl rfl))
          | null => exact wp_bind.mpr (hbad h₂ (fun g hg => Option.some.inj hg ▸ hf₂) hr₂)
          | page q =>
              simp only [kalloc, pipe, setPipe, file, setFile, wp_bind, wp_gets, wp_update, wp_pure]
              set x : File := { k₂.ftable f with type := .pipe, readable := true, writable := false, pipe := q }
              have h₃ : Tame k₂ { k₂ with ftable := update k₂.ftable f x } :=
                .setFile rfl rfl (fun h => by cases h)
              have h₄ {k₄ : State} {y : File} (hft : k₄.ftable = update (update k₂.ftable f x)
                g y)
                  (hp : k₄.ptable = k₂.ptable) (hfs : k₄.fs = k₂.fs) (hy : y.type = .pipe) :
                  (Tame k k₄ ∧ k₄.fs = k.fs) ∧
                  ∀ e e', some (f, g) = some (e, e') → (k₄.ftable e).type ≠ .inode ∧ (k₄.ftable e').type ≠
                    .inode := by
                have h₄ : Tame k₂ k₄ := h₃.trans (.setFile hft hp fun hi => (by cases hy.symm.trans hi))
                refine ⟨⟨h₂.1.trans h₄, hfs.trans h₂.2⟩, fun e e' he => ?_⟩
                cases he
                exact ⟨h₄.ne_inode hf₂, h₄.ne_inode (hr₂ g rfl)⟩
              exact h₄ rfl rfl rfl rfl

theorem sysPipe_tame (h : Counted k) {arg junk : UInt64} {mem : Kalloc} (hmem : mem.Fresh k)
    (hptr : UserPtr (k.ptable p).sz (argptr (k.ptable p).sz arg junk 8).2 8) :
    wp (sysPipe sb p arg junk mem) (fun _ k' => Tame k k' ∧ k'.fs = k.fs) TablePanic k := by
  have hclose {k₁ : State} {f g : Fin nfile} (h₁ : Tame k k₁ ∧ k₁.fs = k.fs) (hf : (k₁.ftable f).type ≠ .inode)
      (hg : (k₁.ftable g).type ≠ .inode) :
      wp (do fileclose sb f; fileclose sb g; pure (-1)) (fun (_ : Int) k' => Tame k k' ∧
        k'.fs = k.fs) TablePanic k₁ := by
    refine wp_bind.mpr <| (fileclose_tame hf).mono (fun _ k₂ ⟨h₂, hfs₂⟩ => ?_) fun e he => .inr (.inl he)
    refine wp_bind.mpr <| (fileclose_tame (h₂.ne_inode hg)).mono (fun _ k₃ ⟨h₃, hfs₃⟩ => ?_) fun e he =>
      .inr (.inl he)
    exact ⟨h₁.1.trans (h₂.trans h₃), hfs₃.trans (hfs₂.trans h₁.2)⟩
  simp only [sysPipe, proc, wp_bind, wp_gets]
  refine wp_ite.mpr ⟨fun _ => ⟨.refl k, rfl⟩, fun _ => wp_bind.mpr <|
    ((pipealloc_tame h.files.idle mem).conj (pipealloc_spec h.files hmem)).mono ?_ fun _ => And.left⟩
  rintro r k₁ ⟨⟨h₁, hr₁⟩, hp₁, -⟩
  cases r with
  | none => exact h₁
  | some r =>
      obtain ⟨rf, wf⟩ := r
      obtain ⟨hrf, hwf⟩ := hr₁ rf wf rfl
      refine (fdalloc_tame p rf).andThen fun r k₂ ⟨h₂, hfs₂, _, hsz₂⟩ => ?_
      have hrf₂ := h₂.ne_inode hrf
      have hwf₂ := h₂.ne_inode hwf
      have h₂ : Tame k k₂ ∧ k₂.fs = k.fs := ⟨h₁.1.trans h₂, hfs₂.trans h₁.2⟩
      cases r with
      | none => exact hclose h₂ hrf₂ hwf₂
      | some fd₀ =>
          refine (fdalloc_tame p wf).andThen fun r k₃ ⟨h₃, hfs₃, _, hsz₃⟩ => ?_
          have hrf₃ := h₃.ne_inode hrf₂
          have hwf₃ := h₃.ne_inode hwf₂
          have h₃ : Tame k k₃ ∧ k₃.fs = k.fs := ⟨h₂.1.trans h₃, hfs₃.trans h₂.2⟩
          cases r with
          | none =>
              simp only [setOfile, proc, setProc, wp_bind, wp_gets, wp_update]
              have h₄ : Tame k₃
                  { k₃ with ptable := update k₃.ptable p ((k₃.ptable p).setOfile fd₀ none) } :=
                .setProc rfl rfl rfl
              exact wp_bind.mp (hclose ⟨h₃.1.trans h₄, h₃.2⟩ (h₄.ne_inode hrf₃) (h₄.ne_inode hwf₃))
          | some fd₁ =>
              have hsz : (k₃.ptable p).sz = (k.ptable p).sz := by rw [hsz₃, hsz₂, hp₁]
              refine wp_bind.mpr ((wp_congr (n := pure ()) (storeBytes_user ?_)).mpr h₃)
              rw [hsz]
              exact hptr

theorem wait_tame (p : Fin nproc) : wp (wait p) (fun _ k' => Tame k k' ∧ k'.fs = k.fs) TablePanic k := by
  simp only [wait, wp_bind, wp_gets]
  split
  next => exact ⟨.setProc rfl rfl rfl, rfl⟩
  next => exact wp_ite.mpr ⟨fun _ => ⟨.refl k, rfl⟩, fun _ => .inr (.inr (.inr rfl))⟩

theorem allocproc_stops (mem : Kalloc) : wp (allocproc mem) (fun _ _ => True) TablePanic k := by
  simp only [allocproc, wp_bind, wp_gets]
  cases freeProc k.ptable with
  | none => trivial
  | some np =>
      cases mem with
      | page q => trivial
      | null => trivial
      | exhausted => exact .inr (.inr (.inl rfl))

theorem dupFiles_tame (p np : Fin nproc) (fds : List (Fin nofile)) :
    wp (dupFiles p np fds) (fun _ k' => (Tame k k' ∧ k'.fs = k.fs) ∧ ∀ q, (k'.ptable q).cwd = (k.ptable q).cwd)
      TablePanic k := by
  induction fds generalizing k with
  | nil => exact ⟨⟨.refl k, rfl⟩, fun _ => rfl⟩
  | cons fd fds ih =>
      simp only [dupFiles, proc, wp_bind, wp_gets]
      split
      next => exact ih
      next f _ =>
        refine wp_bind.mpr <| (filedup_tame f).mono ?_ fun e he => .inl he
        rintro _ k₁ ⟨h₁, hfs₁, hp₁⟩
        simp only [setOfile, proc, setProc, wp_bind, wp_gets, wp_update]
        have h₂ : Tame k₁
            { k₁ with ptable := update k₁.ptable np ((k₁.ptable np).setOfile fd (some f)) } :=
          .setProc rfl rfl rfl
        refine ih.imp ?_
        rintro _ k' ⟨⟨h', hfs'⟩, hcwd⟩
        refine ⟨⟨h₁.trans (h₂.trans h'), hfs'.trans hfs₁⟩, fun q => ?_⟩
        rw [hcwd q]
        dsimp only
        by_cases hq : q = np
        · rw [hq, update_self, hp₁]
        · rw [update_of_ne hq, hp₁]

theorem fork_calm (h : Between sb k) (hp : ¬ (k.ptable p).Dead) (mem : Kalloc) (copied : Bool) :
    wp (fork p mem copied) (fun _ k' => Calm sb k k') TablePanic k := by
  obtain ⟨c, hc, -, hpos⟩ := cwd_live h hp
  refine wp_bind.mpr <| ((allocproc_spec mem).conj (allocproc_stops mem)).mono ?_ fun e he => he.2
  rintro r k₁ ⟨⟨n, hk₁⟩, _⟩
  cases r with
  | none =>
      obtain ⟨q, x, -, hx, -, rfl⟩ := hk₁
      exact h.calm.tables (.setProc rfl rfl hx) rfl
  | some np =>
      obtain ⟨hu, pid, rfl⟩ := hk₁
      have hne : p ≠ np := by
        rintro rfl
        exact hp (.inl hu)
      refine wp_ite.mpr ⟨fun _ => ?_, fun _ => ?_⟩
      · simp only [proc, setProc, wp_bind, wp_gets, wp_update, update_self, update_idem, update_of_ne hne]
        set y : Proc := { k.ptable np with state := .embryo, pid, sz := (k.ptable p).sz, parent := some p } with hy
        have h₁ : Tame k { k with ptable := update k.ptable np y, nextpid := n } := .setProc rfl rfl rfl
        refine (dupFiles_tame p np (List.finRange nofile)).imp ?_
        rintro _ k₂ ⟨⟨h₂, hfs₂⟩, hcwd₂⟩
        have hc₂ : (k₂.ptable p).cwd = some c := by
          rw [hcwd₂ p]
          exact (congrArg Proc.cwd (update_of_ne hne y k.ptable)).trans hc
        have hs := h.kept.held.take (h.kept.held.base_pos hpos) rfl
        have hcalm : Calm sb k { k₂ with fs := k.fs.setRef c ((k.fs.icache c).ref + 1) } :=
          (h.calm.tables (h₁.trans h₂) hfs₂).fs hs rfl
        simp only [cwd, proc, wp_bind, wp_gets, hc₂, wp_pure, wp_fsM, Fs.idupM, wp_update, setCwd,
          setProcState, setProc, update_self, update_idem]
        rw [hfs₂]
        exact hcalm.tables (.setCwd rfl rfl fun i hi => ⟨p, hc₂.trans hi⟩) rfl
      · simp only [setProcState, proc, setProc, wp_bind, wp_gets, wp_update, wp_pure, update_self, update_idem]
        exact h.calm.tables (.setProc rfl rfl rfl) rfl

end Tables

def LoadPanic (e : Halt) : Prop := e = .asleep ∨ e = .panic .loaduvmExist ∨ e = .panic .loaduvmAligned

theorem LoadPanic.stops {t : Fs.Tree} {cwd : Nat} {e : Halt} (h : LoadPanic e) : Stops t cwd e := by
  rcases h with rfl | rfl | rfl <;> exact .of_ne (by decide) (by decide)

def Leaves (sb : Fs.Layout) (k k' : State) : Prop :=
  Between sb k' ∧ Fs.Swept (Fs.Used k'.fs) (k.tree sb) (k'.tree sb)

theorem Kept.of_ptable (h : Kept sb T fh L k) (T' : Fin nproc → Proc) : Kept sb T fh L { k with ptable := T' } :=
  h.tables (h.files.of_ptable T') rfl (fun _ hx => .inl hx) h.sound h.cwd

section Close

variable {fd : Fin nofile}

theorem Kept.uninstall (h : Kept sb k.ptable fh L k) (hfd : (k.ptable p).ofile fd = some f) :
    Kept sb (update k.ptable p ((k.ptable p).setOfile fd none)) (f :: fh) L k := by
  refine h.tables (h.files.uninstall hfd) rfl (fun _ hx => .inl hx) h.sound fun q i hi => ?_
  by_cases hq : q = p
  · rw [hq, update_self] at hi
    exact h.cwd p i hi
  · rw [update_of_ne hq] at hi
    exact h.cwd q i hi

theorem sysClose_leaves (h : Between sb k) (hp : ¬ (k.ptable p).Dead) (n : Int) :
    wp (sysClose sb p n) (fun _ k' => Leaves sb k k') (fun _ => False) k := by
  refine ((argfd_spec p n).and_safe (argfd_total p n)).andThen fun r k₀ ⟨⟨hk, hr⟩, _⟩ => ?_
  rw [hk]
  cases r with
  | none => exact ⟨h, Fs.Swept.refl _ _⟩
  | some r =>
      obtain ⟨fd, f⟩ := r
      simp only [setOfile, proc, setProc, wp_bind, wp_gets, wp_update]
      refine (fileclose_kept ((h.kept.uninstall (hr fd f rfl)).of_ptable _)).imp fun _ k' ⟨h', hshrunk, hp'⟩ =>
        ⟨⟨?_, ?_, h.root⟩, ?_⟩
      · rw [hp']
        exact h'
      · rw [hp']
        exact settled_update h.procs ((h.procs p).setOfile hp fd none)
      · exact hshrunk.swept

theorem exit_kept (h : Between sb k) (hp : ¬ (k.ptable p).Dead) :
    wp (exit sb p) (fun _ k' => ∃ T k₁, Kept sb T [] [] k₁ ∧ Shrunk sb k k₁ ∧ k'.fs = k₁.fs ∧
      k'.ftable = k₁.ftable ∧
        ∀ q, (k'.ptable q).cwd = (T q).cwd) (fun e => e = .panic .initExiting) k := by
  obtain ⟨c, hc, -, -⟩ := cwd_live h hp
  simp only [exit, wp_bind, wp_gets]
  refine wp_ite.mpr ⟨fun _ => rfl, fun _ => ?_⟩
  refine (closeFiles_rule (I := fun k' => Kept sb k'.ptable [] [] k' ∧ Shrunk sb k k') (E := fun _ => False)
    (fun k' fd f h' hf => (fileclose_kept (h'.1.uninstall hf)).imp fun _ _ h₁ =>
      ⟨h₁.2.2, h₁.1.of_ptable _, h'.2.trans ⟨h₁.2.1.swept, h₁.2.1.used⟩⟩)
    (List.finRange nofile) ⟨h.kept, .of_fs rfl⟩).andThen ?_
  rintro _ k₁ ⟨⟨h₁, hshrunk₁⟩, o, hp₁, ho⟩
  have hc₁ : (k₁.ptable p).cwd = some c := by
    rw [hp₁, update_self]
    exact hc
  have h₂ : Kept sb (update k₁.ptable p { k₁.ptable p with cwd := none }) [] [⟨c, inums k₁.fs c, false⟩] k₁ := by
    refine h₁.tables (Files.setCwd h₁.files rfl fun i => ?_) rfl (fun y hy => ?_) h₁.sound fun q i hi => ?_
    · simp [hc₁, List.count_singleton]
    · rw [List.mem_singleton.mp hy]
      exact .inr ⟨rfl, rfl⟩
    · by_cases hq : q = p
      · rw [hq, update_self] at hi
        cases hi
      · rw [update_of_ne hq] at hi
        exact h₁.cwd q i hi
  simp only [cwd, proc, wp_bind, wp_gets, hc₁, wp_pure]
  refine (iput_kept h₂).mono ?_ fun _ => False.elim
  rintro _ k₂ ⟨h₃, hshrunk₂, _, _, fs, hk₂⟩
  have hp₂ : k₂.ptable = k₁.ptable := by rw [hk₂]
  simp only [setCwd, setProcState, proc, setProc, wp_bind, wp_gets, wp_update, hp₂]
  refine ⟨_, k₂, h₃, hshrunk₁.trans hshrunk₂, rfl, rfl, fun q => ?_⟩
  by_cases hq : q = p
  · subst hq
    simp only [update_self]
    split <;> rfl
  · simp only [update_of_ne hq]
    split <;> rfl

theorem exit_leaves (h : Between sb k) (hp : ¬ (k.ptable p).Dead) :
    wp (exit sb p) (fun _ k' => Leaves sb k k') (fun e => e = .panic .initExiting) k := by
  refine ((exit_counted h.counted).conj (exit_kept h hp)).mono (fun _ k' ⟨hcount, T, k₁, h₁, hshrunk, hfs,
    hft, hcwd⟩ => ?_)
    fun e he => he.2
  refine ⟨⟨h₁.tables hcount.files hfs (fun _ hx => .inl hx) ?_ fun q i hi => ?_, hcount.procs, h.root⟩, ?_⟩
  · rw [hft]
    exact h₁.sound
  · rw [hcwd q] at hi
    exact h₁.cwd q i hi
  · rw [hfs, State.tree, State.tree, hfs]
    exact hshrunk.swept

end Close

section Image

variable [Fs.Devsw] {ip : Fin ninode} {n : Nat} {b J : Fin ninode → Nat}

theorem readi_held (h : Fs.Held sb b J L s) {x : Fs.Hold} (hx : x ∈ L) (hl : x.locked = true) (off n : UInt32) :
    wp (Fs.readi sb x.ip off n) (fun r t => t = s ∧ r.2.length ≤ n.toNat) (fun e => e = .asleep) s := by
  by_cases hdev : (s.icache x.ip).type = Fs.tDev
  · simp only [Fs.readi, Fs.inode, wp_bind, wp_gets]
    rw [if_pos hdev, Fs.devRead]
    refine wp_ite.mpr ⟨fun _ => ?_, fun _ => ⟨rfl, Nat.zero_le _⟩⟩
    split
    next => exact ⟨rfl, Nat.zero_le _⟩
    next g hg =>
      cases hr : g off n with
      | none => exact rfl
      | some r => exact ⟨rfl, Fs.Devsw.read_le _ g off n r hg hr⟩
  · have hf := h.consistent.filled_cached (h.ref_pos hx) ((h.held x hx).2 hl)
    refine (Fs.readi_filled hf hdev).mono ?_ fun _ => False.elim
    rintro r t ⟨ht, ⟨rfl, -⟩ | ⟨-, -, -, hr⟩⟩
    · exact ⟨ht, Nat.zero_le _⟩
    · rw [hr, List.length_map, List.length_range]
      exact ⟨ht, min_le_left _ _⟩

theorem readi_same {x : Fs.Hold} (h : Fs.Held sb b J L k.fs) (hx : x ∈ L) (hl : x.locked = true) (off n : UInt32) :
    wp (fsM (Fs.readi sb x.ip off n)) (fun _ k' => k' = k) LoadPanic k := by
  refine wp_fsM.mpr ((readi_held h hx hl off n).mono (fun _ t ht => ?_) fun _ => .inl)
  rw [ht.1]

theorem loadImage_same {x : Fs.Hold} (h : Fs.Held sb b J L k.fs) (hx : x ∈ L) (hl : x.locked = true)
    (env : ExecEnv) :
    wp (loadImage sb env x.ip) (fun _ k' => k' = k) LoadPanic k := by
  refine loadImage_rule (I := (· = k)) (fun k₁ off n hk₁ => ?_) (.inr (.inl rfl)) (.inr (.inr rfl)) rfl env
  rw [hk₁]
  exact readi_same h hx hl off n

theorem exec_calm (h : Between sb k) (hp : ¬ (k.ptable p).Dead) (hc : (k.ptable p).cwd = some c) (path : List UInt8)
    (env : ExecEnv) :
    wp (exec sb p path env) (fun _ k' => Calm sb k k') (Stops (k.tree sb) (inums k.fs c)) k := by
  obtain ⟨c', hc', hcwd, hpos⟩ := cwd_live h hp
  obtain rfl := Option.some.inj (hc.symm.trans hc')
  refine hcwd.andThen fun r k₀ ⟨hr, hk₀⟩ => ?_
  rw [hr, hk₀]
  refine wp_bind.mpr <| wp_fsM.mpr <| (Fs.namei_held h.kept.held h.kept.shaped hpos h.root path).mono
    (fun r s₁ ⟨⟨hd₁, hr⟩, _⟩ => ?_) fun e ⟨he, _⟩ => stops_pathPanic he.pathPanic
  have htree₁ : Fs.tree sb s₁.disk = k.tree sb := by rw [hd₁]
  cases hwalk : Fs.walk (k.tree sb) (Fs.startOf path (inums k.fs c)) (Fs.elems path) with
  | none =>
      rw [hwalk] at hr
      obtain ⟨rfl, h₁⟩ := hr
      exact h.calm.fs h₁ htree₁
  | some n =>
      rw [hwalk] at hr
      obtain ⟨ip, rfl, h₁⟩ := hr
      have hmem : (⟨ip, n, true⟩ : Fs.Hold) ∈ [(⟨ip, n, true⟩ : Fs.Hold)] := List.mem_cons_self
      refine wp_bind.mpr <| wp_fsM.mpr <| (Fs.ilock_held h₁).mono (fun _ s₂ ⟨h₂, hd₂⟩ => ?_) fun e ⟨he, h0⟩ => ?_
      · have hload : wp (loadImage sb env ip) _ _ { k with fs := s₂ } := loadImage_same h₂ hmem rfl env
        refine wp_bind.mpr <| hload.mono (fun image k₃ hk₃ => ?_) fun e he => he.stops
        rw [hk₃]
        have hput : wp (Fs.iunlockput sb ip) _ _ s₂ :=
          Fs.iunlockput_pinned h₂ fun ho => h.kept.held.pinned (by rw [hd₂, hd₁] at ho; exact ho)
        refine wp_bind.mpr <| wp_fsM.mpr <| hput.mono (fun _ s₄ ⟨h₄, hd₄⟩ => ?_) fun _ => False.elim
        have hcalm : Calm sb k { k with fs := s₄ } := h.calm.fs h₄ (by rw [hd₄, hd₂, hd₁])
        cases image with
        | none => exact hcalm
        | some sz =>
            dsimp only
            split
            next => exact hcalm
            next sz _ => exact hcalm.tables (.setProc rfl rfl rfl) rfl
      · rw [htree₁] at h0
        have hpanic : Fs.PathPanic (k.tree sb) (Fs.startOf path (inums k.fs c)) e :=
          .inr ⟨he, n, Fs.walk_reach hwalk, h0⟩
        exact stops_pathPanic hpanic

theorem sysChdir_leaves (h : Between sb k) (hp : ¬ (k.ptable p).Dead) (hc : (k.ptable p).cwd = some c)
    (path : List UInt8) :
    wp (sysChdir sb p (some path)) (fun _ k' => Leaves sb k k') (Stops (k.tree sb) (inums k.fs c)) k := by
  obtain ⟨c', hc', hcwd, hpos⟩ := cwd_live h hp
  obtain rfl := Option.some.inj (hc.symm.trans hc')
  refine hcwd.andThen ?_
  rintro r k₀ ⟨hr, hk₀⟩
  rw [hr, hk₀]
  have hsame {s : Fs.State} (hs : Fs.Held sb (refs k.ptable k) (inums k.fs) [] s)
    (ht : Fs.tree sb s.disk = k.tree sb) :
      Leaves sb k { k with fs := s } := by
    refine ⟨⟨h.kept.same hs ht, h.procs, h.root⟩, ?_⟩
    rw [show ({ k with fs := s } : State).tree sb = k.tree sb from ht]
    exact Fs.Swept.refl _ _
  refine wp_bind.mpr <| wp_fsM.mpr <| (Fs.namei_held h.kept.held h.kept.shaped hpos h.root path).mono
    ?_ (by rintro e ⟨he, _⟩; exact stops_pathPanic he.pathPanic)
  rintro r s₁ ⟨⟨hd₁, hr⟩, _⟩
  have htree₁ : Fs.tree sb s₁.disk = k.tree sb := by rw [hd₁]
  cases hwalk : Fs.walk (k.tree sb) (Fs.startOf path (inums k.fs c)) (Fs.elems path) with
  | none =>
      rw [hwalk] at hr
      obtain ⟨rfl, h₁⟩ := hr
      exact hsame h₁ htree₁
  | some n =>
      rw [hwalk] at hr
      obtain ⟨ip, rfl, h₁⟩ := hr
      have hmem : (⟨ip, n, true⟩ : Fs.Hold) ∈ [(⟨ip, n, true⟩ : Fs.Hold)] := List.mem_cons_self
      refine wp_bind.mpr <| wp_fsM.mpr <| (Fs.ilock_held h₁).mono ?_ ?_
      · rintro _ s₂ ⟨h₂, hd₂⟩
        have htree₂ : Fs.tree sb s₂.disk = k.tree sb := by rw [hd₂, hd₁]
        have htype : (s₂.icache ip).type = (k.tree sb n).type := htree₂ ▸ h₂.type_eq hmem rfl
        simp only [Fs.inode, wp_bind, wp_fsM, wp_gets]
        rw [htype]
        refine wp_ite.mpr ⟨fun _ => ?_, fun hdir => ?_⟩
        · have hput : wp (Fs.iunlockput sb ip) _ _ s₂ :=
            Fs.iunlockput_pinned h₂ fun ho => h.kept.held.pinned (by rw [htree₂] at ho; exact ho)
          refine wp_bind.mpr <| wp_fsM.mpr <| hput.mono ?_ fun _ => False.elim
          rintro _ s₃ ⟨h₃, hd₃⟩
          exact hsame h₃ (by rw [hd₃, htree₂])
        · have hdir : (k.tree sb n).type = Fs.tDir := not_not.mp hdir
          have hlock : wp (Fs.iunlock ip) (fun _ t => t = s₂) (fun _ => False) s₂ := Fs.iunlock_held h₂ hmem
          refine wp_bind.mpr <| wp_fsM.mpr <| hlock.mono (fun _ t ht => ?_) fun _ => False.elim
          rw [ht]
          set T : Fin nproc → Proc := update k.ptable p { k.ptable p with cwd := some ip } with hT
          have h₃ : Kept sb k.ptable [] [⟨ip, n, true⟩] { k with fs := s₂ } := h.kept.same h₂ htree₂
          have h₄ : Kept sb T [] [⟨c, inums k.fs c, false⟩] { k with fs := s₂ } := by
            refine h₃.tables (Files.setCwd h₃.files rfl fun i => ?_) rfl (fun y hy => ?_) h₃.sound fun q i hi => ?_
            · simp only [List.map_cons, List.map_nil, hc, Option.some.injEq, List.count_singleton, beq_iff_eq]
              exact Nat.add_comm _ _
            · rw [List.mem_singleton.mp hy]
              exact .inr ⟨h₂.base c hpos, rfl⟩
            · by_cases hq : q = p
              · rw [hT, hq, update_self] at hi
                rw [← Option.some.inj hi, show ({ k with fs := s₂ } : State).tree sb = k.tree sb from htree₂,
                  show inums s₂ ip = n from (h₂.held _ hmem).1]
                exact hdir
              · rw [hT, update_of_ne hq] at hi
                exact h₃.cwd q i hi
          refine (iput_kept h₄).andThen ?_
          rintro _ k₄ ⟨h₅, hshrunk, _, _, fs, hk₄⟩
          have hp₄ : update k₄.ptable p { k₄.ptable p with cwd := some ip } = T := by rw [hk₄]
          simp only [setCwd, proc, setProc, wp_bind, wp_gets, wp_update, wp_pure]
          refine ⟨⟨?_, ?_, h.root⟩, ?_⟩
          · rw [hp₄]
            exact h₅.of_ptable T
          · rw [hp₄]
            exact settled_update h.procs ⟨(h.procs p).grown, fun hd => absurd hd hp, fun _ => rfl⟩
          · rw [← htree₂]
            exact hshrunk.swept
      · rintro e ⟨he, h0⟩
        rw [htree₁] at h0
        have hpanic : Fs.PathPanic (k.tree sb) (Fs.startOf path (inums k.fs c)) e :=
          .inr ⟨he, n, Fs.walk_reach hwalk, h0⟩
        exact stops_pathPanic hpanic

end Image

end Xv6.Kernel
