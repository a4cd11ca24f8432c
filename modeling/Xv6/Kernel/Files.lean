import Xv6.Fs.Refs
import Xv6.Kernel.Model
import Xv6.Lib.UpdateSum

namespace Xv6.Kernel

open Lib Lib.RefCount Lib.UpdateSum Finset
open Lib.Exec hiding update
open Function (update update_of_ne update_self)

variable {sb : Fs.Layout} {k k' : State} {B : Fin nfile → Nat} {C : Fin ninode → Nat} {fh : List (Fin nfile)}
  {ih : List (Fin ninode)} {f : Fin nfile} {t : Fin nfile → File} {x : File}

/-- File `f` is the read end or the write end of a pipe. -/
def IsEnd (t : Fin nfile → File) (q : Nat) (w : Bool) (f : Fin nfile) : Prop :=
  (t f).type = .pipe ∧ (t f).pipe = q ∧ (t f).writable = w

instance (t : Fin nfile → File) (q : Nat) (w : Bool) (f : Fin nfile) : Decidable (IsEnd t q w f) :=
  inferInstanceAs (Decidable (_ ∧ _ ∧ _))

def Pipe.opened (x : Pipe) (w : Bool) : Bool := if w then x.writeopen else x.readopen

def InUse (t : Fin nfile → File) (q : Nat) : Prop := ∃ w f, IsEnd t q w f

instance (t : Fin nfile → File) (q : Nat) : Decidable (InUse t q) := inferInstanceAs (Decidable (∃ _ _, _))

/-- A pipe that is in use has at most one file for each end, its flags say which it has, and its page
has been allocated and not freed; all other pages have been freed as often as allocated. -/
structure PipesOk (k : State) : Prop where
  one : ∀ q w f g, IsEnd k.ftable q w f → IsEnd k.ftable q w g → f = g
  opened : ∀ q, InUse k.ftable q → ∀ w, (k.pipes q).opened w = true ↔ ∃ f, IsEnd k.ftable q w f
  used : ∀ q, InUse k.ftable q → k.kallocs q = k.kfrees q + 1
  unused : ∀ q, ¬ InUse k.ftable q → k.kallocs q = k.kfrees q

def opens (t : Fin nfile → File) (i : Fin ninode) : Nat := #{f | (t f).type = .inode ∧ (t f).ip = i}

/-- The file table and the inode cache count their references exactly, given that the process table has
the references `B` to files and `C` to inodes, and that `fh` and `ih` are held. -/
structure Files (B : Fin nfile → Nat) (C : Fin ninode → Nat) (fh : List (Fin nfile)) (ih : List (Fin ninode))
    (k : State) : Prop where
  files : Exact (fun f => (k.ftable f).ref) B fh
  inodes : Fs.Acc (fun i => opens k.ftable i + C i) ih k.fs
  idle : ∀ f, (k.ftable f).ref = 0 → (k.ftable f).type = .none
  pipes : PipesOk k

def File.setRef (x : File) (n : Nat) : File := { x with ref := n }

def File.closed (x : File) : File := { x with ref := 0, type := .none }

theorem PipesOk.of_isEnd (h : PipesOk k) (ht : ∀ q w f, IsEnd t q w f ↔ IsEnd k.ftable q w f) :
    PipesOk { k with ftable := t } := by
  have hu (q) : InUse t q ↔ InUse k.ftable q := exists_congr fun w => exists_congr fun f => ht q w f
  refine ⟨fun q w f g hf hg => h.one q w f g ((ht ..).mp hf) ((ht ..).mp hg), fun q hq w => ?_,
    fun q hq => h.used q ((hu q).mp hq), fun q hq => h.unused q (mt (hu q).mpr hq)⟩
  exact (h.opened q ((hu q).mp hq) w).trans (exists_congr fun f => (ht q w f).symm)

theorem isEnd_update {q : Nat} {w : Bool} {g : Fin nfile} (hf : (t f).type ≠ .pipe) (hx : x.type ≠ .pipe) :
    IsEnd (update t f x) q w g ↔ IsEnd t q w g := by
  by_cases hg : g = f
  · subst hg
    simp [IsEnd, hf, hx]
  · simp [IsEnd, hg]

theorem isEnd_ref {q n : Nat} {w : Bool} {g : Fin nfile} :
    IsEnd (update t f ((t f).setRef n)) q w g ↔ IsEnd t q w g := by
  by_cases hg : g = f
  · subst hg
    simp [IsEnd, File.setRef]
  · simp [IsEnd, hg]

theorem opens_update (i : Fin ninode) :
    opens (update t f x) i + (if (t f).type = .inode ∧ (t f).ip = i then 1 else 0) =
      opens t i + (if x.type = .inode ∧ x.ip = i then 1 else 0) :=
  card_update (fun x : File => x.type = .inode ∧ x.ip = i) t f x

theorem opens_of_eq (hx : x.type = (t f).type) (hi : x.ip = (t f).ip) :
    opens (update t f x) = opens t := by
  funext i
  have := opens_update (t := t) (f := f) (x := x) i
  rw [hx, hi] at this
  omega

theorem opens_of_ne (ht : (t f).type ≠ .inode) (hx : x.type ≠ .inode) :
    opens (update t f x) = opens t := by
  funext i
  have := opens_update (t := t) (f := f) (x := x) i
  simpa [ht, hx] using this

theorem ref_update {n : Nat} (hx : x.ref = n) :
    (fun g => (update t f x g).ref) = update (fun g => (t g).ref) f n := by
  funext g
  by_cases hg : g = f
  · subst hg; simp [hx]
  · simp [hg]

theorem Files.setRef {fh' : List (Fin nfile)} {n : Nat} (h : Files B C fh ih k) (hn : 0 < n)
    (hx : Exact (update (fun g => (k.ftable g).ref) f n) B fh') :
    Files B C fh' ih { k with ftable := update k.ftable f ((k.ftable f).setRef n) } := by
  refine ⟨?_, ?_, fun g hg => ?_, h.pipes.of_isEnd fun _ _ _ => isEnd_ref⟩
  · rw [ref_update rfl]
    exact hx
  · have ho : opens (update k.ftable f ((k.ftable f).setRef n)) = opens k.ftable := opens_of_eq rfl rfl
    simp only [ho]
    exact h.inodes
  · by_cases hgf : g = f
    · subst hgf
      simp only [update_self, File.setRef] at hg
      omega
    · simp only [update_of_ne hgf] at hg ⊢
      exact h.idle g hg

theorem Files.fs {α : Type} {m : Fs.FsM α} {I : α → List (Fin ninode)} (h : Files B C fh ih k)
    (hm : ∀ b, Fs.Acc b ih k.fs → wp m (fun r s => Fs.Acc b (I r) s) (fun _ => True) k.fs) :
    wp (fsM m) (fun r k' => Files B C fh (I r) k' ∧ ∃ fs, k' = { k with fs }) (fun _ => True) k := by
  rw [fsM, wp_zoom]
  refine (hm _ h.inodes).imp fun r s hs => ⟨⟨h.files, hs, h.idle, ?_⟩, s, rfl⟩
  exact ⟨h.pipes.one, h.pipes.opened, h.pipes.used, h.pipes.unused⟩

theorem filealloc_spec (h : Files B C fh ih k) :
    wp filealloc (fun r k' => match r with
        | none => k' = k
        | some f => (k.ftable f).ref = 0 ∧ (k.ftable f).type = .none ∧ Files B C (f :: fh) ih k' ∧
            k' = { k with ftable := update k.ftable f ((k.ftable f).setRef 1) })
      (fun _ => True) k := by
  simp only [filealloc, wp_bind, wp_gets]
  cases hf : freeFile k.ftable with
  | none => exact rfl
  | some f =>
      have h0 : (k.ftable f).ref = 0 := by simpa [freeFile] using List.find?_some hf
      simp only [file, setFile, wp_bind, wp_gets, wp_update, wp_pure]
      refine ⟨h0, h.idle f h0, h.setRef Nat.one_pos ?_, rfl⟩
      have := h.files.take f
      rwa [h0] at this

theorem filedup_spec (h : Files B C fh ih k) (f : Fin nfile) :
    wp (filedup f) (fun _ k' => Files B C (f :: fh) ih k' ∧ k'.ptable = k.ptable) (fun _ => True) k := by
  simp only [filedup, file, wp_bind, wp_gets]
  refine wp_ite.mpr ⟨fun _ => trivial, fun _ => ⟨h.setRef (Nat.succ_pos _) (h.files.take f), rfl⟩⟩

theorem Files.free (h : Files B C (f :: fh) ih k) (hr : (k.ftable f).ref = 1) (hp : PipesOk k')
    (hft : k'.ftable = update k.ftable f (k.ftable f).closed) (hfs : k'.fs = k.fs)
    {ih' : List (Fin ninode)}
    (hi : ∀ i, ih'.count i = ih.count i + if (k.ftable f).type = .inode ∧ (k.ftable f).ip = i then 1 else 0) :
    Files B C fh ih' k' := by
  refine ⟨?_, ?_, fun g hg => ?_, hp⟩
  · rw [hft, ref_update rfl]
    have := h.files.drop
    rwa [hr] at this
  · rw [hfs]
    refine ⟨h.inodes.exact.move fun i => ?_, h.inodes.unique⟩
    have := opens_update (t := k.ftable) (f := f) (x := (k.ftable f).closed) i
    simp only [File.closed, reduceCtorEq, false_and, if_false] at this
    rw [hft, hi i]
    simp only [File.closed]
    omega
  · rw [hft] at hg ⊢
    by_cases hgf : g = f
    · subst hgf; simp [File.closed]
    · simp only [update_of_ne hgf] at hg ⊢
      exact h.idle g hg

theorem PipesOk.close_other (h : PipesOk k) (hf : (k.ftable f).type ≠ .pipe) :
    PipesOk { k with ftable := update k.ftable f (k.ftable f).closed } :=
  h.of_isEnd fun _ _ _ => isEnd_update hf (by simp [File.closed])

theorem isEnd_closed {q : Nat} {w : Bool} {g : Fin nfile} :
    IsEnd (update t f (t f).closed) q w g ↔ IsEnd t q w g ∧ g ≠ f := by
  by_cases hg : g = f
  · subst hg
    simp [IsEnd, File.closed]
  · simp [IsEnd, hg]

def Pipe.close (x : Pipe) (w : Bool) : Pipe :=
  if w then { x with writeopen := false } else { x with readopen := false }

theorem opened_close (x : Pipe) (w v : Bool) : (x.close w).opened v = (x.opened v && decide (v ≠ w)) := by
  cases w <;> cases v <;> simp [Pipe.close, Pipe.opened]

theorem pipe_closed (x : Pipe) : x.readopen = false ∧ x.writeopen = false ↔ ∀ w, x.opened w = false := by
  simp [Pipe.opened, Bool.forall_bool]

theorem pipeclose_spec {q : Nat} {w : Bool} (h : PipesOk k) (hf : IsEnd k.ftable q w f) :
    wp (pipeclose q w) (fun _ k' => PipesOk k' ∧ ∃ pipes kfrees, k' = { k with
        ftable := update k.ftable f (k.ftable f).closed, pipes, kfrees }) (fun _ => True)
      { k with ftable := update k.ftable f (k.ftable f).closed } := by
  have huse : InUse k.ftable q := ⟨w, f, hf⟩
  have hopen (v) : ((k.pipes q).close w).opened v = true ↔
      ∃ g, IsEnd (update k.ftable f (k.ftable f).closed) q v g := by
    rw [opened_close, Bool.and_eq_true, h.opened q huse, decide_eq_true_iff]
    constructor
    · rintro ⟨⟨g, hg⟩, hv⟩
      refine ⟨g, isEnd_closed.mpr ⟨hg, ?_⟩⟩
      rintro rfl
      exact hv (hg.2.2.symm.trans hf.2.2)
    · rintro ⟨g, hg⟩
      obtain ⟨hg, hne⟩ := isEnd_closed.mp hg
      refine ⟨⟨g, hg⟩, ?_⟩
      rintro rfl
      exact hne (h.one q v g f hg hf)
  have hother (r) (hr : r ≠ q) (v g) :
      IsEnd (update k.ftable f (k.ftable f).closed) r v g ↔ IsEnd k.ftable r v g := by
    rw [isEnd_closed]
    refine and_iff_left_of_imp fun hg => ?_
    rintro rfl
    exact hr (hg.2.1.symm.trans hf.2.1)
  have hused (r) (hr : r ≠ q) : InUse (update k.ftable f (k.ftable f).closed) r ↔ InUse k.ftable r :=
    exists_congr fun v => exists_congr fun g => hother r hr v g
  have hone (r v g g') (hg : IsEnd (update k.ftable f (k.ftable f).closed) r v g)
      (hg' : IsEnd (update k.ftable f (k.ftable f).closed) r v g') : g = g' :=
    h.one r v g g' (isEnd_closed.mp hg).1 (isEnd_closed.mp hg').1
  have hflags (r) (hr : InUse (update k.ftable f (k.ftable f).closed) r) (v) :
      (update k.pipes q ((k.pipes q).close w) r).opened v = true ↔
        ∃ g, IsEnd (update k.ftable f (k.ftable f).closed) r v g := by
    by_cases hrq : r = q
    · subst hrq
      rw [update_self]
      exact hopen v
    · rw [update_of_ne hrq, h.opened r ((hused r hrq).mp hr)]
      exact exists_congr fun g => (hother r hrq v g).symm
  simp only [pipeclose, pipe, setPipe, wp_bind, wp_gets, wp_update]
  change wp (if ((k.pipes q).close w).readopen = false ∧ ((k.pipes q).close w).writeopen = false then _ else _)
    _ _ _
  rw [wp_ite, pipe_closed]
  refine ⟨fun hc => ⟨⟨hone, hflags, fun r hr => ?_, fun r hr => ?_⟩, _, _, rfl⟩,
    fun hc => ⟨⟨hone, hflags, fun r hr => ?_, fun r hr => ?_⟩, _, _, rfl⟩⟩
  · have hrq : r ≠ q := by
      rintro rfl
      obtain ⟨v, g, hg⟩ := hr
      exact absurd ((hopen v).mpr ⟨g, hg⟩) (by rw [hc v]; exact Bool.false_ne_true)
    simp only [update_of_ne hrq]
    exact h.used r ((hused r hrq).mp hr)
  · by_cases hrq : r = q
    · subst hrq
      simp only [update_self]
      exact h.used r huse
    · simp only [update_of_ne hrq]
      exact h.unused r (mt (hused r hrq).mpr hr)
  · by_cases hrq : r = q
    · subst hrq
      exact h.used r huse
    · exact h.used r ((hused r hrq).mp hr)
  · by_cases hrq : r = q
    · subst hrq
      simp only [not_forall, Bool.not_eq_false] at hc
      obtain ⟨v, hv⟩ := hc
      exact absurd ⟨v, (hopen v).mp hv⟩ hr
    · exact h.unused r (mt (hused r hrq).mpr hr)

theorem fileclose_spec (h : Files B C (f :: fh) ih k) :
    wp (fileclose sb f) (fun _ k' => Files B C fh ih k' ∧ k'.ptable = k.ptable) (fun _ => True) k := by
  simp only [fileclose, file, wp_bind, wp_gets]
  refine wp_ite.mpr ⟨fun _ => trivial, fun hpos => wp_ite.mpr ⟨fun hgt => ?_, fun hle => ?_⟩⟩
  · exact ⟨h.setRef hgt h.files.drop, rfl⟩
  · have hr : (k.ftable f).ref = 1 := by omega
    simp only [setFile, wp_bind, wp_update]
    change wp _ _ _ { k with ftable := update k.ftable f (k.ftable f).closed }
    unfold closeLast
    split
    next ht =>
      refine ⟨h.free hr (h.pipes.close_other ?_) rfl rfl fun i => ?_, rfl⟩
      · rw [ht]; simp
      · simp [ht]
    next ht =>
      refine (pipeclose_spec h.pipes ⟨ht, rfl, rfl⟩).imp ?_
      rintro _ k' ⟨hp, _, _, hk⟩
      refine ⟨?_, by rw [hk]⟩
      refine h.free hr hp (by rw [hk]) (by rw [hk]) fun i => ?_
      simp [ht]
    next ht =>
      have hf : Files B C fh ((k.ftable f).ip :: ih)
          { k with ftable := update k.ftable f (k.ftable f).closed } := by
        refine h.free hr (h.pipes.close_other ?_) rfl rfl fun i => ?_
        · rw [ht]; simp
        · by_cases hi : (k.ftable f).ip = i
          · rw [hi, List.count_cons_self, if_pos ⟨ht, rfl⟩]
          · rw [List.count_cons_of_ne hi, if_neg (fun hc => hi hc.2), Nat.add_zero]
      refine (hf.fs (I := fun _ => ih) fun b hb => Fs.iput_acc hb).imp
        (by rintro _ k' ⟨hk, fs, he⟩; exact ⟨hk, by rw [he]⟩)

theorem closeIf_spec {o : Option (Fin nfile)} (h : Files B C (o.toList ++ fh) ih k) :
    wp (closeIf sb o) (fun _ k' => Files B C fh ih k' ∧ k'.ptable = k.ptable) (fun _ => True) k := by
  cases o with
  | none => exact ⟨h, rfl⟩
  | some f => exact fileclose_spec h

theorem pipeallocBad_spec (f0 f1 : Option (Fin nfile)) (h : Files B C (f0.toList ++ (f1.toList ++ fh)) ih k) :
    wp (pipeallocBad sb f0 f1) (fun r k' => r = none ∧ Files B C fh ih k' ∧ k'.ptable = k.ptable)
      (fun _ => True) k :=
  (closeIf_spec h).bind fun _ _ hk => (closeIf_spec hk.1).bind fun _ _ hk' => ⟨rfl, hk'.1, hk'.2.trans hk.2⟩

theorem PipesOk.alloc {q : Nat} {f g : Fin nfile} {x y : File} (h : PipesOk k) (hfg : f ≠ g)
    (hf : (k.ftable f).type ≠ .pipe) (hg : (k.ftable g).type ≠ .pipe) (hq : k.kallocs q = k.kfrees q)
    (hx : x.type = .pipe ∧ x.pipe = q ∧ x.writable = false) (hy : y.type = .pipe ∧ y.pipe = q ∧ y.writable = true)
    {z : Pipe} (hz : ∀ w, z.opened w = true) :
    PipesOk { k with
      ftable := update (update k.ftable f x) g y
      pipes := update k.pipes q z
      kallocs := update k.kallocs q (k.kallocs q + 1) } := by
  have hfree : ¬ InUse k.ftable q := fun hu => by
    have := h.used q hu
    omega
  have hend (r w e) : IsEnd (update (update k.ftable f x) g y) r w e ↔
      IsEnd k.ftable r w e ∨ (r = q ∧ e = if w then g else f) := by
    by_cases heg : e = g
    · subst heg
      simp only [IsEnd, update_self, hy, hg, false_and, false_or]
      cases w with
      | false => simp [Ne.symm hfg]
      | true => simp [eq_comm]
    · by_cases hef : e = f
      · subst hef
        simp only [IsEnd, update_of_ne hfg, update_self, hx, hf, false_and, false_or]
        cases w with
        | false => simp [eq_comm]
        | true => simp [heg]
      · simp only [IsEnd, update_of_ne heg, update_of_ne hef]
        cases w <;> simp [heg, hef]
  have hused (r) (hr : r ≠ q) : InUse (update (update k.ftable f x) g y) r ↔
    InUse k.ftable r := by
    simp only [InUse, hend, hr, false_and, or_false]
  refine ⟨fun r w e e' he he' => ?_, fun r hr w => ?_, fun r hr => ?_, fun r hr => ?_⟩
  · rcases (hend ..).mp he with hold | ⟨hr, hnew⟩ <;> rcases (hend ..).mp he' with hold' | ⟨hr', hnew'⟩
    · exact h.one r w e e' hold hold'
    · exact absurd ⟨w, e, hr' ▸ hold⟩ hfree
    · exact absurd ⟨w, e', hr ▸ hold'⟩ hfree
    · rw [hnew, hnew']
  · by_cases hrq : r = q
    · subst hrq
      simp only [update_self, hz, true_iff]
      exact ⟨_, (hend r w _).mpr (.inr ⟨rfl, rfl⟩)⟩
    · simp only [update_of_ne hrq, hend, hrq, false_and, or_false]
      exact h.opened r ((hused r hrq).mp hr) w
  · by_cases hrq : r = q
    · subst hrq
      simp only [update_self]
      omega
    · simp only [update_of_ne hrq]
      exact h.used r ((hused r hrq).mp hr)
  · have hrq : r ≠ q := by
      rintro rfl
      exact hr ⟨true, g, (hend r true g).mpr (.inr ⟨rfl, rfl⟩)⟩
    simp only [update_of_ne hrq]
    exact h.unused r (mt (hused r hrq).mpr hr)

theorem Files.endpoints {f g : Fin nfile} {x y : File} (h : Files B C fh ih k) (hfg : f ≠ g)
    (hf : (k.ftable f).type = .none ∧ (k.ftable f).ref = 1) (hg : (k.ftable g).type = .none ∧ (k.ftable g).ref = 1)
    {pipes : Nat → Pipe} {kallocs : Nat → Nat}
    (hp : PipesOk { k with ftable := update (update k.ftable f x) g y, pipes, kallocs })
    (hx : x.type = .pipe ∧ x.ref = 1) (hy : y.type = .pipe ∧ y.ref = 1) :
    Files B C fh ih { k with ftable := update (update k.ftable f x) g y, pipes, kallocs } := by
  refine ⟨h.files.congr fun e => ?_, ?_, fun e he => ?_, hp⟩
  · by_cases heg : e = g
    · subst heg
      simp [hy.2, hg.2]
    · by_cases hef : e = f
      · subst hef
        simp [hfg, hx.2, hf.2]
      · simp [heg, hef]
  · have ho : opens (update (update k.ftable f x) g y) = opens k.ftable := by
      rw [opens_of_ne, opens_of_ne]
      · simp [hf.1]
      · simp [hx.1]
      · rw [update_of_ne hfg.symm]
        simp [hg.1]
      · simp [hy.1]
    simp only [ho]
    exact h.inodes
  · by_cases heg : e = g
    · subst heg
      simp [hy.2] at he
    · by_cases hef : e = f
      · subst hef
        simp [hfg, hx.2] at he
      · simp only [update_of_ne heg, update_of_ne hef] at he ⊢
        exact h.idle e he

/-- A page that `kalloc` returns for a pipe is not in use as one. -/
def Kalloc.Fresh (k : State) : Kalloc → Prop
  | .page q => k.kallocs q = k.kfrees q
  | _ => True

theorem pipealloc_spec (h : Files B C fh ih k) {mem : Kalloc} (hmem : mem.Fresh k) :
    wp (pipealloc sb mem) (fun r k' => k'.ptable = k.ptable ∧ match r with
        | none => Files B C fh ih k'
        | some (f, g) => Files B C (f :: g :: fh) ih k') (fun _ => True) k := by
  refine (filealloc_spec h).bind fun r k₁ hk₁ => ?_
  cases r with
  | none =>
      obtain rfl := hk₁
      exact (pipeallocBad_spec none none h).imp fun r k' ⟨hr, hk', hp⟩ => ⟨hp, by rw [hr]; exact hk'⟩
  | some f =>
      obtain ⟨hf0, hft, h₁, hk₁⟩ := hk₁
      refine (filealloc_spec h₁).bind fun r k₂ hk₂ => ?_
      cases r with
      | none =>
          obtain rfl := hk₂
          refine (pipeallocBad_spec (some f) none h₁).imp fun r k' ⟨hr, hk', hp⟩ => ⟨?_, ?_⟩
          · rw [hp, hk₁]
          · rw [hr]; exact hk'
      | some g =>
          obtain ⟨hg0, hgt, h₂, hk₂⟩ := hk₂
          have hfg : f ≠ g := by
            rintro rfl
            rw [hk₁] at hg0
            simp [File.setRef] at hg0
          have h₂ : Files B C (f :: g :: fh) ih k₂ := ⟨h₂.files.perm (.swap ..), h₂.inodes, h₂.idle, h₂.pipes⟩
          have hp₂ : k₂.ptable = k.ptable := by rw [hk₂, hk₁]
          cases mem with
          | exhausted => exact trivial
          | null =>
              refine wp_bind.mpr ((pipeallocBad_spec (some f) (some g) h₂).imp
                fun r k' ⟨hr, hk', hp⟩ => ⟨hp.trans hp₂, ?_⟩)
              rw [hr]; exact hk'
          | page q =>
              have hf₂ : (k₂.ftable f).type = .none ∧ (k₂.ftable f).ref = 1 := by
                rw [hk₂, hk₁]
                simp [File.setRef, hfg, hft]
              have hg₂ : (k₂.ftable g).type = .none ∧ (k₂.ftable g).ref = 1 := by
                rw [hk₂]
                exact ⟨by simpa [File.setRef] using hgt, by simp [File.setRef]⟩
              have hq : k₂.kallocs q = k₂.kfrees q := by
                rw [hk₂, hk₁]
                exact hmem
              simp only [kalloc, pipe, setPipe, file, setFile, wp_bind, wp_gets, wp_update, wp_pure]
              refine ⟨hp₂, h₂.endpoints hfg hf₂ hg₂
                (h₂.pipes.alloc hfg ?_ ?_ hq ⟨rfl, rfl, rfl⟩ ⟨rfl, rfl, rfl⟩ ?_) ⟨rfl, hf₂.2⟩ ⟨rfl, ?_⟩⟩
              · simp [hf₂.1]
              · simp [hg₂.1]
              · intro w
                cases w <;> rfl
              · rw [update_of_ne hfg.symm]
                exact hg₂.2

end Xv6.Kernel
