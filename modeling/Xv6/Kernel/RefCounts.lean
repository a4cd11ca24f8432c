import Xv6.Kernel.Files
import Xv6.Lib.Runs
import Xv6.Mkfs.WellFormed

namespace Xv6.Kernel

open Lib Lib.RefCount Lib.UpdateSum Finset
open Lib.Exec hiding update
open Function (update update_eq_self update_idem update_of_ne update_self)

variable {sb : Fs.Layout} {k k' : State} {f : Fin nfile} {fd : Fin nofile} {p np : Fin nproc} {x : Proc}
  {T : Fin nproc → Proc} {fh : List (Fin nfile)} {ih : List (Fin ninode)}

def slots (T : Fin nproc → Proc) (f : Fin nfile) : Nat := ∑ p, #{fd | (T p).ofile fd = some f}

def cwds (T : Fin nproc → Proc) (i : Fin ninode) : Nat := #{p | (T p).cwd = some i}

theorem slots_eq (T : Fin nproc → Proc) (f : Fin nfile) :
    slots T f = #{a : Fin nproc × Fin nofile | (T a.1).ofile a.2 = some f} := by
  simp only [slots, card_filter, Fintype.sum_prod_type]

theorem cwds_eq (T : Fin nproc → Proc) (i : Fin ninode) : cwds T i = #{p | (T p).cwd = some i} := rfl

def Proc.Dead (x : Proc) : Prop := x.state = .unused ∨ x.state = .zombie

instance (x : Proc) : Decidable x.Dead := inferInstanceAs (Decidable (_ ∨ _))

/-- A process as it is between system calls: not half made; a dead one has no files. -/
structure Proc.Settled (x : Proc) : Prop where
  grown : x.state ≠ .embryo
  dead : x.Dead → (∀ fd, x.ofile fd = none) ∧ x.cwd = none
  alive : ¬ x.Dead → x.cwd.isSome

structure Counted (k : State) : Prop where
  files : Files (slots k.ptable) (cwds k.ptable) [] [] k
  procs : ∀ p, (k.ptable p).Settled

/-- `Counted`, while a call holds references, and relative to what the process table is going to be. -/
abbrev Holding (T : Fin nproc → Proc) (fh : List (Fin nfile)) (ih : List (Fin ninode)) (k : State) : Prop :=
  Files (slots T) (cwds T) fh ih k

def Proc.setOfile (x : Proc) (fd : Fin nofile) (f : Option (Fin nfile)) : Proc :=
  { x with ofile := update x.ofile fd f }

theorem slots_setOfile (T : Fin nproc → Proc) (p : Fin nproc) (fd : Fin nofile) (o : Option (Fin nfile))
    (f : Fin nfile) :
    slots (update T p ((T p).setOfile fd o)) f + (if (T p).ofile fd = some f then 1 else 0) =
      slots T f + (if o = some f then 1 else 0) := by
  have h₁ : slots (update T p ((T p).setOfile fd o)) f + #{fd | (T p).ofile fd = some f} =
      slots T f + #{fd' | ((T p).setOfile fd o).ofile fd' = some f} :=
    sum_update (fun x : Proc => #{fd | x.ofile fd = some f}) T p ((T p).setOfile fd o)
  have h₂ : #{fd' | ((T p).setOfile fd o).ofile fd' = some f} + (if (T p).ofile fd = some f then 1 else 0) =
      #{fd | (T p).ofile fd = some f} + (if o = some f then 1 else 0) :=
    card_update (fun a => a = some f) (T p).ofile fd o
  omega

theorem slots_congr (hx : x.ofile = (T p).ofile) : slots (update T p x) = slots T := by
  funext f
  have := sum_update (fun x : Proc => #{fd | x.ofile fd = some f}) T p x
  simp only [slots, hx] at this ⊢
  omega

theorem cwds_update (i : Fin ninode) :
    cwds (update T p x) i + (if (T p).cwd = some i then 1 else 0) =
      cwds T i + (if x.cwd = some i then 1 else 0) :=
  card_update (fun x : Proc => x.cwd = some i) T p x

theorem cwds_congr (hx : x.cwd = (T p).cwd) : cwds (update T p x) = cwds T := by
  funext i
  have := cwds_update (T := T) (p := p) (x := x) i
  rw [hx] at this
  omega

theorem Files.of_eq {B : Fin nfile → Nat} {C : Fin ninode → Nat} (h : Files B C fh ih k) (hfs : k'.fs = k.fs)
    (hft : k'.ftable = k.ftable) (hp : k'.pipes = k.pipes) (ha : k'.kallocs = k.kallocs)
    (hf : k'.kfrees = k.kfrees) : Files B C fh ih k' := by
  refine ⟨?_, ?_, ?_, ?_, ?_, ?_, ?_⟩ <;> rw [hft]
  · exact h.files
  · rw [hfs]; exact h.inodes
  · exact h.idle
  · exact h.pipes.one
  · rw [hp]; exact h.pipes.opened
  · rw [ha, hf]; exact h.pipes.used
  · rw [ha, hf]; exact h.pipes.unused

theorem Files.of_ptable {B : Fin nfile → Nat} {C : Fin ninode → Nat} (h : Files B C fh ih k)
    (T' : Fin nproc → Proc) :
    Files B C fh ih { k with ptable := T' } := h.of_eq rfl rfl rfl rfl rfl

theorem Files.install (h : Holding T (f :: fh) ih k) (hfd : (T p).ofile fd = none) :
    Holding (update T p ((T p).setOfile fd (some f))) fh ih k := by
  have hc : cwds (update T p ((T p).setOfile fd (some f))) = cwds T := cwds_congr rfl
  refine ⟨h.files.move fun g => ?_, by rw [hc]; exact h.inodes, h.idle, h.pipes⟩
  have := slots_setOfile T p fd (some f) g
  rw [hfd, if_neg (by simp)] at this
  by_cases hg : f = g
  · subst hg
    rw [if_pos rfl] at this
    rw [List.count_cons_self]
    omega
  · rw [if_neg (by simpa using hg)] at this
    rw [List.count_cons_of_ne hg]
    omega

theorem Files.uninstall (h : Holding T fh ih k) (hfd : (T p).ofile fd = some f) :
    Holding (update T p ((T p).setOfile fd none)) (f :: fh) ih k := by
  have hc : cwds (update T p ((T p).setOfile fd none)) = cwds T := cwds_congr rfl
  refine ⟨h.files.move fun g => ?_, by rw [hc]; exact h.inodes, h.idle, h.pipes⟩
  have := slots_setOfile T p fd none g
  rw [hfd, if_neg (show ¬ (none : Option (Fin nfile)) = some g by simp)] at this
  by_cases hg : f = g
  · subst hg
    rw [if_pos rfl] at this
    rw [List.count_cons_self]
    omega
  · rw [if_neg (by simpa using hg)] at this
    rw [List.count_cons_of_ne hg]
    omega

theorem Files.setCwd {ih' : List (Fin ninode)} (h : Holding T fh ih k) (hx : x.ofile = (T p).ofile)
    (hi : ∀ i, ih'.count i + (if x.cwd = some i then 1 else 0) = ih.count i + if (T p).cwd = some i then 1 else 0) :
    Holding (update T p x) fh ih' k := by
  have hs : slots (update T p x) = slots T := slots_congr hx
  refine ⟨by rw [hs]; exact h.files, ⟨h.inodes.exact.move fun i => ?_, h.inodes.unique⟩, h.idle, h.pipes⟩
  have := cwds_update (T := T) (p := p) (x := x) i
  have := hi i
  omega

theorem Files.of_procs {T' : Fin nproc → Proc} (h : Holding T fh ih k) (ho : ∀ q, (T' q).ofile = (T q).ofile)
    (hc : ∀ q, (T' q).cwd = (T q).cwd) : Holding T' fh ih k := by
  have hs : slots T' = slots T := by
    funext f
    simp only [slots, ho]
  have hw : cwds T' = cwds T := by
    funext i
    simp only [cwds, hc]
  rw [Holding, hs, hw]
  exact h

theorem Files.setProc (h : Holding T fh ih k) (hx : x.ofile = (T p).ofile) (hc : x.cwd = (T p).cwd) :
    Holding (update T p x) fh ih k := h.setCwd hx fun i => by rw [hc]

theorem cwds_pos {i : Fin ninode} (h : (T p).cwd = some i) : 0 < cwds T i :=
  card_pos.mpr ⟨p, by simpa using h⟩

attribute [irreducible] slots cwds

theorem Proc.Settled.setOfile (h : x.Settled) (hx : ¬ x.Dead) (fd : Fin nofile) (o : Option (Fin nfile)) :
    (x.setOfile fd o).Settled := ⟨h.grown, fun hd => absurd hd hx, h.alive⟩

theorem settled_update (h : ∀ p, (T p).Settled) (hx : x.Settled) (q : Fin nproc) :
    (update T p x q).Settled :=
  (Function.forall_update_iff T fun _ x => x.Settled).mpr ⟨hx, fun q _ => h q⟩ q

theorem cwd_spec (p : Fin nproc) :
    wp (cwd p) (fun c k' => k' = k ∧ (k.ptable p).cwd = some c) (fun _ => True) k := by
  simp only [cwd, proc, wp_bind, wp_gets]
  cases hc : (k.ptable p).cwd with
  | none => exact trivial
  | some c => exact ⟨rfl, rfl⟩

theorem argfd_spec (p : Fin nproc) (n : Int) :
    wp (argfd p n) (fun r k' => k' = k ∧ ∀ fd f, r = some (fd, f) → (k.ptable p).ofile fd = some f)
      (fun _ => True) k := by
  simp only [argfd, proc, wp_bind, wp_gets]
  split
  next hn =>
    refine wp_ite.mpr ⟨fun _ => ⟨rfl, fun _ _ hr => (by cases hr)⟩, fun _ => ⟨rfl, fun fd f hr => ?_⟩⟩
    obtain ⟨g, hg, he⟩ := Option.map_eq_some_iff.mp hr
    cases he
    exact hg
  next => exact ⟨rfl, fun _ _ hr => (by cases hr)⟩

theorem fdalloc_spec (p : Fin nproc) (f : Fin nfile) :
    wp (fdalloc p f) (fun r k' => match r with
        | none => k' = k
        | some fd => (k.ptable p).ofile fd = none ∧
            k' = { k with ptable := update k.ptable p ((k.ptable p).setOfile fd (some f)) })
      (fun _ => True) k := by
  simp only [fdalloc, proc, wp_bind, wp_gets]
  cases hfd : freeFd (k.ptable p).ofile with
  | none => exact rfl
  | some fd =>
      have : (k.ptable p).ofile fd = none := by simpa [freeFd] using List.find?_some hfd
      exact ⟨this, rfl⟩

theorem sysDup_counted (h : Counted k) (hp : ¬ (k.ptable p).Dead) (n : Int) :
    wp (sysDup p n) (fun _ k' => Counted k') (fun _ => True) k := by
  refine (argfd_spec p n).bind fun r k₀ ⟨hk, hr⟩ => ?_
  rw [hk]
  cases r with
  | none => exact h
  | some r =>
      obtain ⟨fd, f⟩ := r
      refine (fdalloc_spec p f).bind fun r k₁ hk₁ => ?_
      cases r with
      | none =>
          obtain rfl := hk₁
          exact h
      | some fd' =>
          obtain ⟨hfree, rfl⟩ := hk₁
          refine (filedup_spec (h.files.of_ptable _) f).bind fun _ k₂ ⟨h₂, hp₂⟩ => ⟨?_, ?_⟩
          · rw [hp₂]
            exact Files.install h₂ hfree
          · rw [hp₂]
            exact settled_update h.procs ((h.procs p).setOfile hp fd' _)

theorem sysClose_counted (h : Counted k) (hp : ¬ (k.ptable p).Dead) (n : Int) :
    wp (sysClose sb p n) (fun _ k' => Counted k') (fun _ => True) k := by
  refine (argfd_spec p n).bind ?_
  rintro r k₀ ⟨hk, hr⟩
  rw [hk]
  cases r with
  | none => exact h
  | some r =>
      obtain ⟨fd, f⟩ := r
      simp only [setOfile, proc, setProc, wp_bind, wp_gets, wp_update]
      refine (fileclose_spec ((h.files.uninstall (hr fd f rfl)).of_ptable _)).imp ?_
      rintro _ k' ⟨h', hp'⟩
      refine ⟨?_, ?_⟩
      · rw [hp']
        exact h'
      · rw [hp']
        exact settled_update h.procs ((h.procs p).setOfile hp fd none)

theorem Counted.of_ptable (h : Holding k.ptable [] [] k') (hp : k'.ptable = k.ptable) (hk : Counted k) :
    Counted k' :=
  ⟨by rw [hp]; exact h, by rw [hp]; exact hk.procs⟩

theorem setOfile_undo (o : Option (Fin nfile)) (h : (T p).ofile fd = none) :
    update (update T p ((T p).setOfile fd o)) p (((T p).setOfile fd o).setOfile fd none) = T := by
  have hx : ((T p).setOfile fd o).setOfile fd none = T p := by
    simp only [Proc.setOfile, update_idem]
    rw [← h, update_eq_self]
  rw [update_idem, hx, update_eq_self]

theorem store_user {a : UInt64} (ha : 4096 ≤ a.toNat) (hsz : a.toNat < (k.ptable p).sz.toNat) (b : UInt8) :
    store p a b k = .ok ((), k) := by
  have hin : 4096 ≤ a ∧ a < (k.ptable p).sz := ⟨UInt64.le_iff_toNat_le.mpr ha, UInt64.lt_iff_toNat_lt.mpr hsz⟩
  rw [store, bind_ok (a := k.ptable p) (t := k) rfl, if_pos hin]
  rfl

theorem storeBytes_user {a : UInt64} {bs : List UInt8} (h : UserPtr (k.ptable p).sz a bs.length) :
    storeBytes p a bs k = .ok ((), k) := by
  induction bs generalizing a with
  | nil => rfl
  | cons b bs ih =>
      obtain ⟨hlow, hhigh⟩ := h.resolve_left (by simp)
      rw [List.length_cons] at hhigh
      have hlt := (k.ptable p).sz.toNat_lt
      have hnext : (a + 1).toNat = a.toNat + 1 := by
        rw [UInt64.toNat_add, UInt64.toNat_one]
        exact Nat.mod_eq_of_lt (by omega)
      rw [storeBytes, bind_ok (store_user hlow (by omega) b)]
      exact ih (.inr ⟨by omega, by omega⟩)

theorem sysPipe_counted (h : Counted k) (hp : ¬ (k.ptable p).Dead) {arg junk : UInt64} {mem : Kalloc}
    (hptr : UserPtr (k.ptable p).sz (argptr (k.ptable p).sz arg junk 8).2 8) (hmem : mem.Fresh k) :
    wp (sysPipe sb p arg junk mem) (fun _ k' => Counted k') (fun _ => True) k := by
  simp only [sysPipe, proc, wp_bind, wp_gets]
  refine wp_ite.mpr ⟨fun _ => h, fun _ => (pipealloc_spec h.files hmem).bind ?_⟩
  rintro r k₁ ⟨hp₁, h₁⟩
  cases r with
  | none => exact .of_ptable h₁ hp₁ h
  | some r =>
      obtain ⟨rf, wf⟩ := r
      refine (fdalloc_spec p rf).bind fun r k₂ hk₂ => ?_
      cases r with
      | none =>
          obtain rfl := hk₂
          refine (fileclose_spec h₁).bind ?_
          rintro _ k₃ ⟨h₃, hp₃⟩
          refine (fileclose_spec h₃).bind ?_
          rintro _ k₄ ⟨h₄, hp₄⟩
          exact .of_ptable h₄ (by rw [hp₄, hp₃, hp₁]) h
      | some fd₀ =>
          obtain ⟨hfree, rfl⟩ := hk₂
          have h₂ : Holding (update k.ptable p ((k.ptable p).setOfile fd₀ (some rf))) [wf] [] k₁ :=
            Files.install h₁ (by rw [← hp₁]; exact hfree)
          refine (fdalloc_spec p wf).bind fun r k₃ hk₃ => ?_
          cases r with
          | none =>
              obtain rfl := hk₃
              simp only [setOfile, proc, setProc, wp_bind, wp_gets, wp_update]
              refine (fileclose_spec (h₁.of_ptable _)).imp ?_
              rintro _ k₃ ⟨h₃, hp₃⟩
              refine (fileclose_spec h₃).bind ?_
              rintro _ k₄ ⟨h₄, hp₄⟩
              refine .of_ptable h₄ ?_ h
              rw [hp₄, hp₃, ← hp₁]
              simp only [update_self]
              exact setOfile_undo (some rf) hfree
          | some fd₁ =>
              obtain ⟨hfree', rfl⟩ := hk₃
              refine wp_bind.mpr ((wp_congr (n := pure ()) (storeBytes_user ?_)).mpr ?_)
              · simpa [Proc.setOfile, hp₁] using hptr
              refine ⟨Files.of_eq (k := k₁) ?_ rfl rfl rfl rfl rfl, ?_⟩
              · simp only [hp₁] at hfree' ⊢
                exact Files.install h₂ hfree'
              · have hs : ∀ q, (update k₁.ptable p ((k₁.ptable p).setOfile fd₀ (some rf)) q).Settled := by
                  rw [hp₁]
                  exact settled_update h.procs ((h.procs p).setOfile hp fd₀ _)
                refine settled_update hs ((hs p).setOfile ?_ fd₁ _)
                rw [update_self, hp₁]
                exact hp

theorem fsM_counted {α : Type} {m : Fs.FsM α} {r : α → List (Fin ninode)} (h : Holding k.ptable fh ih k)
    (hm : ∀ b : Fin ninode → Nat, (∀ i, 0 < cwds k.ptable i → 0 < b i) → Fs.Acc b ih k.fs →
      wp m (fun a s => Fs.Acc b (r a) s) (fun _ => True) k.fs) :
    wp (fsM m) (fun a k' => Holding k.ptable fh (r a) k' ∧ ∃ fs, k' = { k with fs }) (fun _ => True) k := by
  rw [fsM, wp_zoom]
  refine (hm _ (fun i hi => by omega) h.inodes).imp fun a s hs => ⟨⟨h.files, hs, h.idle, ?_⟩, s, rfl⟩
  exact ⟨h.pipes.one, h.pipes.opened, h.pipes.used, h.pipes.unused⟩

section

variable [Fs.Devsw]

theorem openInode_acc {b : Fin ninode → Nat} {s : Fs.State} (h : Fs.Acc b ih s) {c : Fin ninode} (hc : 0 < b c)
    (path : List UInt8) (omode : UInt32) :
    wp (openInode sb c path omode) (fun r s => Fs.Acc b (r.toList ++ ih) s) (fun _ => True) s := by
  refine wp_ite.mpr ⟨fun _ => Fs.create_acc h (h.pos hc) path _ _ _, fun _ => ?_⟩
  refine (Fs.namei_acc h (h.pos hc) path).bind fun r t ht => ?_
  cases r with
  | none => exact ht
  | some ip =>
      refine (Fs.Acc.keep ht (Fs.keeps_ilock ip)).bind fun _ u hu => ?_
      simp only [Fs.inode, wp_bind, wp_gets]
      exact wp_ite.mpr ⟨fun _ => (Fs.iunlockput_acc hu).bind fun _ _ hv => hv, fun _ => hu⟩

omit [Fs.Devsw] in
theorem iunlockput_counted {i : Fin ninode} (h : Holding T fh (i :: ih) k) :
    wp (fsM (Fs.iunlockput sb i)) (fun _ k' => Holding T fh ih k' ∧ k'.ptable = k.ptable) (fun _ => True) k :=
  (h.fs (I := fun _ => ih) fun _ hb => Fs.iunlockput_acc hb).imp fun _ _ ⟨h', _, he⟩ => ⟨h', by rw [he]⟩

omit [Fs.Devsw] in
theorem iput_counted {i : Fin ninode} (h : Holding T fh (i :: ih) k) :
    wp (fsM (Fs.iput sb i)) (fun _ k' => Holding T fh ih k' ∧ k'.ptable = k.ptable) (fun _ => True) k :=
  (h.fs (I := fun _ => ih) fun _ hb => Fs.iput_acc hb).imp fun _ _ ⟨h', _, he⟩ => ⟨h', by rw [he]⟩

omit [Fs.Devsw] in
theorem Files.openInode {i : Fin ninode} {y : File} (h : Holding T fh (i :: ih) k) (hf : (k.ftable f).type = .none)
    (hr : (k.ftable f).ref ≠ 0) (hy : y.type = .inode ∧ y.ip = i ∧ y.ref = (k.ftable f).ref) :
    Holding T fh ih { k with ftable := update k.ftable f y } := by
  refine ⟨h.files.congr fun g => ?_, ⟨h.inodes.exact.move fun j => ?_, h.inodes.unique⟩, fun g hg => ?_,
    h.pipes.of_isEnd fun _ _ _ => isEnd_update (by simp [hf]) (by simp [hy.1])⟩
  · by_cases hg : g = f
    · subst hg; simp [hy.2.2]
    · simp [hg]
  · have := opens_update (t := k.ftable) (f := f) (x := y) j
    simp only [hf, reduceCtorEq, false_and, if_false, hy.1, true_and, hy.2.1] at this
    by_cases hj : i = j
    · subst hj
      rw [if_pos rfl] at this
      rw [List.count_cons_self]
      dsimp only
      omega
    · rw [if_neg hj] at this
      rw [List.count_cons_of_ne hj]
      dsimp only
      omega
  · by_cases hgf : g = f
    · subst hgf
      simp only [update_self, hy.2.2] at hg
      exact absurd hg hr
    · simp only [update_of_ne hgf] at hg ⊢
      exact h.idle g hg

omit [Fs.Devsw] in
theorem openFile_counted {i : Fin ninode} (h : Holding k.ptable [] [i] k) (hs : ∀ p, (k.ptable p).Settled)
    (hp : ¬ (k.ptable p).Dead) (omode : UInt32) :
    wp (openFile sb p i omode) (fun _ k' => Counted k') (fun _ => True) k := by
  refine (filealloc_spec h).bind fun r k₁ hk₁ => ?_
  cases r with
  | none =>
      obtain rfl := hk₁
      refine (iunlockput_counted h).bind fun _ k' ⟨h', hp'⟩ => ⟨?_, ?_⟩ <;> rw [hp']
      · exact h'
      · exact hs
  | some f =>
      obtain ⟨hf0, hft, h₁, hk₁⟩ := hk₁
      have hp₁ : k₁.ptable = k.ptable := by rw [hk₁]
      refine (fdalloc_spec p f).bind fun r k₂ hk₂ => ?_
      cases r with
      | none =>
          obtain rfl := hk₂
          refine (fileclose_spec h₁).bind fun _ k₃ ⟨h₃, hp₃⟩ => ?_
          refine (iunlockput_counted h₃).bind fun _ k' ⟨h', hp'⟩ => ⟨?_, ?_⟩ <;> rw [hp', hp₃, hp₁]
          · exact h'
          · exact hs
      | some fd =>
          obtain ⟨hfree, rfl⟩ := hk₂
          rw [hp₁] at hfree ⊢
          have h₂ := (Files.install h₁ hfree).of_ptable (update k.ptable p
            ((k.ptable p).setOfile fd (some f)))
          refine (h₂.fs (I := fun _ => [i]) fun b hb => hb.keep (Fs.keeps_iunlock i)).bind
            fun _ k₃ ⟨h₃, fs, hk₃⟩ => ?_
          have hf₃ : (k₃.ftable f).type = .none ∧ (k₃.ftable f).ref = 1 := by
            rw [hk₃, hk₁]
            exact ⟨by simpa [File.setRef] using hft, by simp [File.setRef]⟩
          simp only [file, setFile, wp_bind, wp_gets, wp_update, wp_pure]
          refine ⟨?_, ?_⟩
          · have h₃ : Holding k₃.ptable [] [i] k₃ := by
              rw [show k₃.ptable = update k.ptable p ((k.ptable p).setOfile fd (some f)) by rw [hk₃]]
              exact h₃
            refine Files.openInode h₃ hf₃.1 (by simp [hf₃.2]) ?_
            exact ⟨rfl, rfl, rfl⟩
          · rw [hk₃]
            exact settled_update hs ((hs p).setOfile hp fd _)

theorem sysOpen_counted (h : Counted k) (hp : ¬ (k.ptable p).Dead) (path : Option (List UInt8)) (omode : UInt32) :
    wp (sysOpen sb p path omode) (fun _ k' => Counted k') (fun _ => True) k := by
  cases path with
  | none => exact h
  | some path =>
      refine (cwd_spec p).bind fun c k₀ ⟨hk, hc⟩ => ?_
      rw [hk]
      refine (fsM_counted h.files fun b hb hacc => openInode_acc hacc (hb c (cwds_pos hc)) path omode).bind
        fun r k₁ ⟨h₁, fs, hk₁⟩ => ?_
      have hp₁ : k₁.ptable = k.ptable := by rw [hk₁]
      cases r with
      | none => exact .of_ptable h₁ hp₁ h
      | some ip => exact openFile_counted (hp₁.symm ▸ h₁) (hp₁.symm ▸ h.procs) (hp₁.symm ▸ hp) omode

theorem sysCreate_counted (h : Counted k) (path : Option (List UInt8)) (type major minor : Int16) :
    wp (sysCreate sb p path type major minor) (fun _ k' => Counted k') (fun _ => True) k := by
  cases path with
  | none => exact h
  | some path =>
      refine (cwd_spec p).bind fun c k₀ ⟨hk, hc⟩ => ?_
      rw [hk]
      refine (fsM_counted h.files fun b hb hacc =>
        Fs.create_acc hacc (hacc.pos (hb c (cwds_pos hc))) path type major minor).bind fun r k₁ ⟨h₁, fs, hk₁⟩ => ?_
      have hp₁ : k₁.ptable = k.ptable := by rw [hk₁]
      cases r with
      | none => exact .of_ptable h₁ hp₁ h
      | some ip => exact (iunlockput_counted h₁).bind fun _ k' ⟨h', hp'⟩ => .of_ptable h' (hp'.trans hp₁) h

theorem sysLink_counted (h : Counted k) (old new : Option (List UInt8)) :
    wp (sysLink sb p old new) (fun _ k' => Counted k') (fun _ => True) k := by
  unfold sysLink
  split
  next old new =>
    refine (cwd_spec p).bind fun c k₀ ⟨hk, hc⟩ => ?_
    rw [hk]
    exact (fsM_counted h.files fun b hb hacc => Fs.sysLink_acc hacc (hb c (cwds_pos hc)) old new).imp
      fun _ k' ⟨h', fs, hk'⟩ => .of_ptable h' (by rw [hk']) h
  next => exact h

theorem sysUnlink_counted (h : Counted k) (path : Option (List UInt8)) :
    wp (sysUnlink sb p path) (fun _ k' => Counted k') (fun _ => True) k := by
  cases path with
  | none => exact h
  | some path =>
      refine (cwd_spec p).bind fun c k₀ ⟨hk, hc⟩ => ?_
      rw [hk]
      exact (fsM_counted h.files fun b hb hacc => Fs.sysUnlink_acc hacc (hb c (cwds_pos hc)) path).imp
        fun _ k' ⟨h', fs, hk'⟩ => .of_ptable h' (by rw [hk']) h

theorem sysChdir_counted (h : Counted k) (hp : ¬ (k.ptable p).Dead) (path : Option (List UInt8)) :
    wp (sysChdir sb p path) (fun _ k' => Counted k') (fun _ => True) k := by
  cases path with
  | none => exact h
  | some path =>
      refine (cwd_spec p).bind ?_
      rintro c k₀ ⟨hk, hc⟩
      rw [hk]
      refine (fsM_counted h.files fun b hb hacc => Fs.namei_acc hacc (hacc.pos (hb c (cwds_pos hc))) path).bind ?_
      rintro r k₁ ⟨h₁, fs, hk₁⟩
      have hp₁ : k₁.ptable = k.ptable := by rw [hk₁]
      cases r with
      | none => exact .of_ptable h₁ hp₁ h
      | some ip =>
          refine (h₁.fs (I := fun _ => [ip]) fun b hb => hb.keep (Fs.keeps_ilock ip)).bind ?_
          rintro _ k₂ ⟨h₂, fs, hk₂⟩
          have hp₂ : k₂.ptable = k.ptable := by rw [hk₂, hp₁]
          simp only [Fs.inode, fsM, wp_bind, wp_zoom, wp_gets]
          refine wp_ite.mpr ⟨fun _ => ?_, fun _ => ?_⟩
          · exact (iunlockput_counted h₂).bind (by rintro _ k' ⟨h', hp'⟩; exact .of_ptable h' (hp'.trans hp₂) h)
          · refine (h₂.fs (I := fun _ => [ip]) fun b hb => hb.keep (Fs.keeps_iunlock ip)).bind ?_
            rintro _ k₃ ⟨h₃, fs, hk₃⟩
            have hp₃ : k₃.ptable = k.ptable := by rw [hk₃, hp₂]
            have h₃ : Holding (update k.ptable p { k.ptable p with cwd := some ip }) [] [c] k₃ := by
              refine Files.setCwd h₃ rfl fun i => ?_
              simp only [hc, Option.some.injEq, List.count_singleton, beq_iff_eq]
              exact Nat.add_comm _ _
            refine (iput_counted h₃).bind ?_
            rintro _ k₄ ⟨h₄, hp₄⟩
            simp only [setCwd, proc, setProc, wp_bind, wp_gets, wp_update, wp_pure]
            rw [hp₄, hp₃]
            refine ⟨h₄.of_ptable _, settled_update h.procs ⟨(h.procs p).grown, fun hd => absurd hd hp,
              fun _ => rfl⟩⟩

theorem readi_counted {i : Fin ninode} (h : Holding T fh ih k) (off n : UInt32) :
    wp (fsM (Fs.readi sb i off n)) (fun _ k' => Holding T fh ih k' ∧ k'.ptable = k.ptable) (fun _ => True) k :=
  (h.fs (I := fun _ => ih) fun _ hb => hb.keep (Fs.keeps_readi i off n)).imp fun _ _ ⟨h', _, he⟩ => ⟨h', by rw [he]⟩

section Load

variable {I : State → Prop} {E : Halt → Prop} {i : Fin ninode}
  (hread : ∀ k off n, I k → wp (fsM (Fs.readi sb i off n)) (fun _ k' => I k') E k)
  (hexist : E (.panic .loaduvmExist)) (haligned : E (.panic .loaduvmAligned))

include hread hexist

theorem loadPages_rule (h : I k) (env : ExecEnv) (addr : UInt64) (offset sz : UInt32) (fuel : Nat) (a : UInt32) :
    wp (loadPages sb env i addr offset sz fuel a) (fun _ k' => I k') E k := by
  induction fuel generalizing a k with
  | zero => exact h
  | succ fuel ih =>
      refine wp_ite.mpr ⟨fun _ => wp_ite.mpr ⟨fun _ => ?_, fun _ => hexist⟩, fun _ => h⟩
      exact (hread k _ _ h).bind fun r k₁ h₁ => wp_ite.mpr ⟨fun _ => h₁, fun _ => ih h₁ _⟩

include haligned

theorem loadSegments_rule (h : I k) (env : ExecEnv) (n j : Nat) (off : UInt32) (sz : UInt64) :
    wp (loadSegments sb env i n j off sz) (fun _ k' => I k') E k := by
  induction n generalizing j off sz k with
  | zero => exact h
  | succ n ih =>
      refine (hread k _ _ h).bind fun r k₁ h₁ => wp_ite.mpr ⟨fun _ => h₁, fun _ => ?_⟩
      refine wp_ite.mpr ⟨fun _ => ih h₁ _ _ _, fun _ => wp_ite.mpr ⟨fun _ => h₁, fun _ => ?_⟩⟩
      refine wp_ite.mpr ⟨fun _ => h₁, fun _ => ?_⟩
      split
      next => exact h₁
      next =>
        refine wp_ite.mpr ⟨fun _ => h₁, fun _ => ?_⟩
        refine wp.bind (Q := fun _ k' => I k') ?_ fun loaded k₂ h₂ => ?_
        · exact wp_ite.mpr ⟨fun _ => haligned, fun _ => loadPages_rule hread hexist h₁ env _ _ _ _ _⟩
        · exact wp_ite.mpr ⟨fun _ => ih h₂ _ _ _, fun _ => h₂⟩

/-- What a read of the file keeps is kept while the image is loaded. -/
theorem loadImage_rule (h : I k) (env : ExecEnv) : wp (loadImage sb env i) (fun _ k' => I k') E k := by
  refine (hread k _ _ h).bind fun r k₁ h₁ => wp_ite.mpr ⟨fun _ => h₁, fun _ => ?_⟩
  refine wp_ite.mpr ⟨fun _ => h₁, fun _ => wp_ite.mpr ⟨fun _ => h₁, fun _ => ?_⟩⟩
  exact loadSegments_rule hread hexist haligned h₁ env _ _ _ _

end Load

theorem loadImage_counted {i : Fin ninode} (h : Holding T fh ih k) (env : ExecEnv) :
    wp (loadImage sb env i) (fun _ k' => Holding T fh ih k' ∧ k'.ptable = k.ptable) (fun _ => True) k := by
  refine loadImage_rule (fun k₁ off n h₁ => ?_) trivial trivial ⟨h, rfl⟩ env
  exact (readi_counted h₁.1 off n).imp fun _ _ h₂ => ⟨h₂.1, h₂.2.trans h₁.2⟩

theorem exec_counted (h : Counted k) (path : List UInt8) (env : ExecEnv) :
    wp (exec sb p path env) (fun _ k' => Counted k') (fun _ => True) k := by
  refine (cwd_spec p).bind fun c k₀ ⟨hk, hc⟩ => ?_
  rw [hk]
  refine (fsM_counted h.files fun b hb hacc => Fs.namei_acc hacc (hacc.pos (hb c (cwds_pos hc))) path).bind
    fun r k₁ ⟨h₁, fs, hk₁⟩ => ?_
  have hp₁ : k₁.ptable = k.ptable := by rw [hk₁]
  cases r with
  | none => exact .of_ptable h₁ hp₁ h
  | some ip =>
      refine (h₁.fs (I := fun _ => [ip]) fun b hb => hb.keep (Fs.keeps_ilock ip)).bind fun _ k₂ ⟨h₂, fs, hk₂⟩ => ?_
      have hp₂ : k₂.ptable = k.ptable := by rw [hk₂, hp₁]
      refine (loadImage_counted h₂ env).bind fun image k₃ ⟨h₃, hp₃⟩ => ?_
      refine (iunlockput_counted h₃).bind fun _ k₄ ⟨h₄, hp₄⟩ => ?_
      have hp₄ : k₄.ptable = k.ptable := by rw [hp₄, hp₃, hp₂]
      have hc₄ : Counted k₄ := .of_ptable h₄ hp₄ h
      cases image with
      | none => exact hc₄
      | some sz =>
          dsimp only
          split
          next => exact hc₄
          next sz _ =>
            simp only [proc, setProc, wp_bind, wp_gets, wp_update, wp_pure]
            have hset : Holding (update k₄.ptable p { k₄.ptable p with sz }) [] [] k₄ :=
              Files.setProc hc₄.files rfl rfl
            refine ⟨hset.of_ptable _, settled_update hc₄.procs ?_⟩
            exact ⟨(hc₄.procs p).grown, (hc₄.procs p).dead, (hc₄.procs p).alive⟩

theorem sysExec_counted (h : Counted k) (path : Option (List UInt8)) (args : Bool) (env : ExecEnv) :
    wp (sysExec sb p path args env) (fun _ k' => Counted k') (fun _ => True) k := by
  cases path with
  | none => exact h
  | some path => exact wp_ite.mpr ⟨fun _ => exec_counted h path env, fun _ => h⟩

end

theorem freeProc_spec {np : Fin nproc} (h : freeProc T = some np) : (T np).state = .unused := by
  simpa [freeProc] using List.find?_some h

theorem allocproc_spec (mem : Kalloc) :
    wp (allocproc mem) (fun r k' => ∃ n, match r with
        | none =>
            ∃ (q : Fin nproc) (x : Proc), x.ofile = (k.ptable q).ofile ∧ x.cwd = (k.ptable q).cwd ∧ x.state =
              (k.ptable q).state ∧
            k' = { k with ptable := update k.ptable q x, nextpid := n }
        | some np => (k.ptable np).state = .unused ∧ ∃ pid, k' = { k with
            ptable := update k.ptable np { k.ptable np with state := .embryo, pid }, nextpid := n })
      (fun _ => True) k := by
  simp only [allocproc, wp_bind, wp_gets]
  cases hf : freeProc k.ptable with
  | none => exact ⟨k.nextpid, 0, k.ptable 0, rfl, rfl, rfl, by rw [update_eq_self]⟩
  | some np =>
      have hu := freeProc_spec hf
      simp only [proc, setProc, wp_bind, wp_gets, wp_update]
      cases mem with
      | page q => exact ⟨_, hu, _, rfl⟩
      | exhausted => exact trivial
      | null =>
          simp only [kalloc, setProcState, proc, setProc, wp_bind, wp_gets, wp_update, wp_pure, update_self,
            update_idem]
          exact ⟨_, np, { k.ptable np with state := .unused, pid := k.nextpid }, rfl, rfl, hu.symm, rfl⟩

theorem dupFiles_spec {fds : List (Fin nofile)} (hnd : fds.Nodup) (h : Holding k.ptable [] [] k)
    (hfree : ∀ fd ∈ fds, (k.ptable np).ofile fd = none) :
    wp (dupFiles p np fds) (fun _ k' => Holding k'.ptable [] [] k' ∧
        ∃ o, k'.ptable = update k.ptable np { k.ptable np with ofile := o }) (fun _ => True) k := by
  induction fds generalizing k with
  | nil => exact ⟨h, (k.ptable np).ofile, by rw [update_eq_self]⟩
  | cons fd fds ih =>
      rw [List.nodup_cons] at hnd
      simp only [dupFiles, proc, wp_bind, wp_gets]
      split
      next => exact ih hnd.2 h fun fd' hfd' => hfree fd' (List.mem_cons_of_mem _ hfd')
      next f hf =>
        refine (filedup_spec h f).bind ?_
        rintro _ k₁ ⟨h₁, hp₁⟩
        simp only [setOfile, proc, setProc, wp_bind, wp_gets, wp_update]
        rw [hp₁]
        have h₂ : Holding (update k.ptable np ((k.ptable np).setOfile fd (some f))) [] [] k₁ :=
          Files.install h₁ (hfree fd List.mem_cons_self)
        refine (ih hnd.2 (h₂.of_ptable _) fun fd' hfd' => ?_).imp ?_
        · have : fd' ≠ fd := fun e => hnd.1 (e ▸ hfd')
          simpa [this] using hfree fd' (List.mem_cons_of_mem _ hfd')
        · rintro _ k' ⟨h', o, hk'⟩
          refine ⟨h', o, ?_⟩
          rw [hk']
          simp only [update_idem, update_self]

theorem fork_counted (h : Counted k) (hp : ¬ (k.ptable p).Dead) (mem : Kalloc) (copied : Bool) :
    wp (fork p mem copied) (fun _ k' => Counted k') (fun _ => True) k := by
  refine (allocproc_spec mem).bind ?_
  rintro r k₁ ⟨n, hk₁⟩
  cases r with
  | none =>
      obtain ⟨q, x, ho, hc, hs, rfl⟩ := hk₁
      refine ⟨(Files.setProc h.files ho hc).of_eq rfl rfl rfl rfl rfl, settled_update h.procs ?_⟩
      have hq := h.procs q
      exact ⟨hs ▸ hq.grown, fun hd => by rw [ho, hc]; exact hq.dead (by rwa [Proc.Dead, ← hs]),
        fun hd => by rw [hc]; exact hq.alive (by rwa [Proc.Dead, ← hs])⟩
  | some np =>
      obtain ⟨hu, pid, rfl⟩ := hk₁
      have hne : p ≠ np := by
        rintro rfl
        exact hp (.inl hu)
      obtain ⟨hofile, hcwd⟩ := (h.procs np).dead (.inl hu)
      refine wp_ite.mpr ⟨fun _ => ?_, fun _ => ?_⟩
      · simp only [proc, setProc, wp_bind, wp_gets, wp_update, update_self, update_idem, update_of_ne hne]
        set y : Proc := { k.ptable np with state := .embryo, pid, sz := (k.ptable p).sz, parent := some p } with hy
        have h₁ : Holding (update k.ptable np y) [] [] k := Files.setProc h.files rfl rfl
        have h₁ : Holding (update k.ptable np y) [] []
            { k with ptable := update k.ptable np y, nextpid := n } := h₁.of_eq rfl rfl rfl rfl rfl
        refine (dupFiles_spec (List.nodup_finRange nofile) h₁ fun fd _ => ?_).imp ?_
        · simpa using hofile fd
        · rintro _ k₂ ⟨h₂, o, hp₂⟩
          simp only [update_idem, update_self] at hp₂
          refine (cwd_spec p).bind ?_
          rintro c k₀ ⟨hk, hc⟩
          rw [hk]
          refine (fsM_counted h₂ fun b hb hacc => Fs.idupM_acc hacc (hacc.pos (hb c (cwds_pos hc)))).bind ?_
          rintro c' k₃ ⟨h₃, fs, hk₃⟩
          simp only [setCwd, setProcState, proc, setProc, wp_bind, wp_gets, wp_update, wp_pure, update_self,
            update_idem]
          have hp₃ : k₃.ptable = update k.ptable np { y with ofile := o } := by rw [hk₃, hp₂]
          rw [hp₂] at h₃
          rw [hp₃]
          simp only [update_self, update_idem]
          refine ⟨?_, settled_update h.procs ⟨by simp, fun hd => ?_, fun _ => rfl⟩⟩
          · have h₄ : Holding (update (update k.ptable np { y with ofile := o }) np
                { y with ofile := o, cwd := some c', state := .runnable }) [] [] k₃ := by
              refine Files.setCwd h₃ (by simp) fun i => ?_
              simp [hy, hcwd, List.count_singleton]
            rw [update_idem] at h₄
            exact h₄.of_ptable _
          · rcases hd with hd | hd <;> cases hd
      · simp only [setProcState, proc, setProc, wp_bind, wp_gets, wp_update, wp_pure, update_self, update_idem]
        have h₁ : Holding (update k.ptable np { k.ptable np with state := .unused, pid }) [] [] k :=
          Files.setProc h.files rfl rfl
        refine ⟨h₁.of_eq rfl rfl rfl rfl rfl, settled_update h.procs
          ⟨by simp, fun _ => ⟨hofile, hcwd⟩, fun hd => ?_⟩⟩
        exact absurd (.inl rfl) hd

theorem closeFiles_rule {I : State → Prop} {E : Halt → Prop}
    (hclose : ∀ k fd f, I k → (k.ptable p).ofile fd = some f →
    wp (fileclose sb f) (fun _ k₁ => k₁.ptable = k.ptable ∧
      I { k₁ with ptable := update k.ptable p ((k.ptable p).setOfile fd none) }) E k)
    (fds : List (Fin nofile)) (h : I k) :
    wp (closeFiles sb p fds) (fun _ k' => I k' ∧
        ∃ o, k'.ptable = update k.ptable p { k.ptable p with ofile := o } ∧
          ∀ fd, o fd = if fd ∈ fds then none else (k.ptable p).ofile fd) E k := by
  induction fds generalizing k with
  | nil => exact ⟨h, (k.ptable p).ofile, by rw [update_eq_self], by simp⟩
  | cons fd fds ih =>
      simp only [closeFiles, proc, wp_bind, wp_gets]
      split
      next hf =>
        refine (ih h).imp ?_
        rintro _ k' ⟨h', o, hk', ho⟩
        refine ⟨h', o, hk', fun fd' => ?_⟩
        rw [ho fd']
        by_cases hfd : fd' = fd
        · subst hfd
          simp [hf]
        · simp [hfd]
      next f hf =>
        rw [wp_bind]
        refine (hclose k fd f h hf).imp ?_
        rintro _ k₁ ⟨hp₁, h₁⟩
        simp only [setOfile, proc, setProc, wp_bind, wp_gets, wp_update]
        rw [hp₁]
        refine (ih h₁).imp ?_
        rintro _ k' ⟨h', o, hk', ho⟩
        refine ⟨h', o, ?_, fun fd' => ?_⟩
        · rw [hk']
          simp only [Proc.setOfile, update_idem, update_self]
        · rw [ho fd']
          by_cases hfd : fd' = fd
          · subst hfd
            simp [Proc.setOfile]
          · simp [Proc.setOfile, hfd]

theorem exit_counted (h : Counted k) : wp (exit sb p) (fun _ k' => Counted k') (fun _ => True) k := by
  simp only [exit, wp_bind, wp_gets]
  refine wp_ite.mpr ⟨fun _ => trivial, fun _ => ?_⟩
  refine (closeFiles_rule (I := fun k => Holding k.ptable [] [] k) (E := fun _ => True) (fun k fd f h hf =>
    (fileclose_spec (h.uninstall hf)).imp fun _ _ h₁ => ⟨h₁.2, h₁.1.of_ptable _⟩) (List.finRange nofile)
      h.files).bind ?_
  rintro _ k₁ ⟨h₁, o, hp₁, ho⟩
  refine (cwd_spec p).bind ?_
  rintro c k₀ ⟨hk, hc⟩
  rw [hk]
  have h₂ : Holding (update k₁.ptable p { k₁.ptable p with cwd := none }) [] [c] k₁ := by
    refine Files.setCwd h₁ rfl fun i => ?_
    simp [hc, List.count_singleton]
  refine (iput_counted h₂).bind ?_
  rintro _ k₂ ⟨h₃, hp₂⟩
  simp only [setCwd, setProcState, proc, setProc, wp_bind, wp_gets, wp_update]
  rw [hp₂]
  refine ⟨?_, fun q => ?_⟩
  · refine Files.of_procs (h₃.of_eq rfl rfl rfl rfl rfl) (fun q => ?_) fun q => ?_
    · by_cases hq : q = p
      · subst hq
        simp only [update_self]
        split <;> rfl
      · simp only [update_of_ne hq]
        split <;> rfl
    · by_cases hq : q = p
      · subst hq
        simp only [update_self]
        split <;> rfl
      · simp only [update_of_ne hq]
        split <;> rfl
  · by_cases hq : q = p
    · subst hq
      simp only [update_self]
      refine ⟨by simp, fun _ => ?_, fun hd => absurd (.inr rfl) hd⟩
      have : ∀ fd, (k₁.ptable q).ofile fd = none := fun fd => by
        rw [hp₁, update_self]
        simpa using ho fd
      split
      · exact ⟨this, rfl⟩
      · exact ⟨this, rfl⟩
    · have hq' := h.procs q
      simp only [update_of_ne hq, hp₁]
      split
      · exact ⟨hq'.grown, hq'.dead, hq'.alive⟩
      · exact hq'

theorem wait_counted (h : Counted k) : wp (wait p) (fun _ k' => Counted k') (fun _ => True) k := by
  simp only [wait, wp_bind, wp_gets]
  split
  next q hq =>
    have hz : (k.ptable q).state = .zombie := by
      have := List.find?_some hq
      simp only [decide_eq_true_eq] at this
      exact this.2
    obtain ⟨hofile, hcwd⟩ := (h.procs q).dead (.inr hz)
    simp only [setProc, wp_bind, wp_update, wp_pure]
    have h₁ : Holding (update k.ptable q
        { k.ptable q with pid := 0, parent := none, killed := false, state := .unused }) [] [] k :=
      Files.setProc h.files rfl rfl
    refine ⟨h₁.of_ptable _, settled_update h.procs ⟨by simp, fun _ => ⟨hofile, hcwd⟩, ?_⟩⟩
    exact fun hd => absurd (.inl rfl) hd
  next => exact wp_ite.mpr ⟨fun _ => h, fun _ => trivial⟩

/-- The system calls that take or drop references, with what the rest of the kernel adds to each. -/
inductive Call
  | open (path : Option (List UInt8)) (omode : UInt32)
  | dup (fd : Int)
  | close (fd : Int)
  | pipe (arg junk : UInt64) (mem : Kalloc)
  | fork (mem : Kalloc) (copied : Bool)
  | exec (path : Option (List UInt8)) (args : Bool) (env : ExecEnv)
  | chdir (path : Option (List UInt8))
  | link (old new : Option (List UInt8))
  | unlink (path : Option (List UInt8))
  | mkdir (path : Option (List UInt8))
  | mknod (path : Option (List UInt8)) (major minor : Int16)
  | exit
  | wait

/-- The process exists and has not exited, the pointer through which `pipe` stores is one to its memory, and the
allocator does not hand out a page that is in use. -/
def Call.Ready (k : State) (a : Fin nproc × Call) : Prop :=
  ¬ (k.ptable a.1).Dead ∧ match a.2 with
    | .pipe arg junk mem =>
        UserPtr (k.ptable a.1).sz (argptr (k.ptable a.1).sz arg junk 8).2 8 ∧
          match mem with
          | .page q => k.kallocs q = k.kfrees q
          | _ => True
    | _ => True

instance (k : State) (a : Fin nproc × Call) : Decidable (Call.Ready k a) := by
  unfold Call.Ready
  refine @instDecidableAnd _ _ _ ?_
  split
  · refine @instDecidableAnd _ _ _ ?_
    split <;> infer_instance
  · infer_instance

section

variable [Fs.Devsw]

def Call.run (sb : Fs.Layout) (p : Fin nproc) : Call → KM Int
  | .open path omode => sysOpen sb p path omode
  | .dup fd => sysDup p fd
  | .close fd => sysClose sb p fd
  | .pipe arg junk mem => sysPipe sb p arg junk mem
  | .fork mem copied => Kernel.fork p mem copied
  | .exec path args env => sysExec sb p path args env
  | .chdir path => sysChdir sb p path
  | .link old new => sysLink sb p old new
  | .unlink path => sysUnlink sb p path
  | .mkdir path => sysMkdir sb p path
  | .mknod path major minor => sysMknod sb p path major minor
  | .exit => do Kernel.exit sb p; pure 0
  | .wait => Kernel.wait p

def Call.step (sb : Fs.Layout) (k : State) (a : Fin nproc × Call) : Option State :=
  match a.2.run sb a.1 k with
  | .ok (_, k') => some k'
  | .error _ => none

theorem Call.run_counted (h : Counted k) {c : Call} (hc : Call.Ready k (p, c)) :
    wp (c.run sb p) (fun _ k' => Counted k') (fun _ => True) k := by
  obtain ⟨hp, hargs⟩ := hc
  cases c with
  | «open» path omode => exact sysOpen_counted h hp path omode
  | dup fd => exact sysDup_counted h hp fd
  | close fd => exact sysClose_counted h hp fd
  | pipe arg junk mem =>
      refine sysPipe_counted h hp hargs.1 ?_
      cases mem with
      | page q => exact hargs.2
      | _ => exact trivial
  | fork mem copied => exact fork_counted h hp mem copied
  | exec path args env => exact sysExec_counted h path args env
  | chdir path => exact sysChdir_counted h hp path
  | link old new => exact sysLink_counted h old new
  | unlink path => exact sysUnlink_counted h path
  | mkdir path => exact sysCreate_counted h path _ _ _
  | mknod path major minor => exact sysCreate_counted h path _ _ _
  | exit => exact (exit_counted h).bind fun _ _ h' => h'
  | wait => exact wait_counted h

theorem Call.step_counted (h : Counted k) {a : Fin nproc × Call} (ha : Call.Ready k a)
    (hs : Call.step sb k a = some k') : Counted k' := by
  have hw : wp (a.2.run sb a.1) _ _ k := Call.run_counted h ha
  unfold wp at hw
  unfold Call.step at hs
  split at hs
  next r hr =>
    rw [hr] at hw
    cases hs
    exact hw
  next => cases hs

end

theorem Counted.file_ref (h : Counted k) (f : Fin nfile) :
    (k.ftable f).ref =
      #{a : Fin nproc × Fin nofile | ¬ (k.ptable a.1).Dead ∧ (k.ptable a.1).ofile a.2 = some f} := by
  have := h.files.files f
  rw [List.count_nil, Nat.add_zero, slots_eq] at this
  refine this.trans ?_
  refine congrArg card (filter_congr fun a _ => ?_)
  refine ⟨fun hf => ⟨fun hd => ?_, hf⟩, And.right⟩
  rw [((h.procs a.1).dead hd).1 a.2] at hf
  cases hf

theorem Counted.inode_ref (h : Counted k) (i : Fin ninode) :
    (k.fs.icache i).ref = #{f | 0 < (k.ftable f).ref ∧ (k.ftable f).type = .inode ∧ (k.ftable f).ip = i} +
      #{p | (k.ptable p).cwd = some i} := by
  have := h.files.inodes.exact i
  rw [List.count_nil, Nat.add_zero, cwds_eq] at this
  refine this.trans ?_
  refine congrArg (fun n => card n + _) (filter_congr fun f _ => ?_)
  refine ⟨fun hf => ⟨Nat.pos_of_ne_zero fun h0 => ?_, hf⟩, And.right⟩
  rw [h.files.idle f h0] at hf
  cases hf.1

/-- In every run of calls, between the calls: the reference count of a file is the number of descriptors of
live processes that refer to it, that of a cached inode the number of files and current
directories that refer to it, no inode is cached twice, a file without references is marked
as unused, and the ends of a pipe and the use of its page agree with the files that refer to it. -/
theorem reference_counts [Fs.Devsw] {cs : List (Fin nproc × Call)} (h : Counted k)
    (hcs : Runs.Along (Call.step sb) Call.Ready k cs) (hrun : Runs.run (Call.step sb) k cs = some k') :
    Counted k' ∧
      (∀ f, (k'.ftable f).ref =
        #{a : Fin nproc × Fin nofile | ¬ (k'.ptable a.1).Dead ∧ (k'.ptable a.1).ofile a.2 = some f}) ∧
      (∀ i, (k'.fs.icache i).ref =
        #{f | 0 < (k'.ftable f).ref ∧ (k'.ftable f).type = .inode ∧ (k'.ftable f).ip = i} +
          #{p | (k'.ptable p).cwd = some i}) ∧
      (∀ i j, 0 < (k'.fs.icache i).ref → 0 < (k'.fs.icache j).ref →
        (k'.fs.icache i).key = (k'.fs.icache j).key → i = j) ∧
      (∀ f, (k'.ftable f).ref = 0 → (k'.ftable f).type = .none) ∧
      ∀ q, (InUse k'.ftable q → k'.kallocs q = k'.kfrees q + 1 ∧
          ∀ w, (k'.pipes q).opened w = true ↔ ∃ f, IsEnd k'.ftable q w f) ∧
        (¬ InUse k'.ftable q → k'.kallocs q = k'.kfrees q) := by
  have h' : Counted k' := Runs.run_invariant Counted (fun _ _ _ hs ha hst => Call.step_counted hs ha hst) h hcs hrun
  have hpipes := h'.files.pipes
  exact ⟨h', h'.file_ref, h'.inode_ref, h'.files.inodes.unique, h'.files.idle,
    fun q => ⟨fun hq => ⟨hpipes.used q hq, hpipes.opened q hq⟩, hpipes.unused q⟩⟩

/-- The state that `userinit` leaves, with the root directory as the current directory of the first
process. -/
def boot (disk : Disk) : State where
  fs := ⟨disk, update Fs.ICache.empty 0 ⟨.fresh 0, rootdev, rootino, 1, false⟩⟩
  ftable := fun _ => ⟨.none, 0, false, false, 0, 0, 0⟩
  ptable := update (fun _ => ⟨0, .unused, 0, none, false, fun _ => none, none⟩) 0
    ⟨8192, .runnable, 1, none, false, fun _ => none, some 0⟩
  files := 0xFFFF800000113648
  initproc := 0
  nextpid := 2
  pipes := fun _ => ⟨fun _ => 0, 0, 0, false, false⟩
  kallocs := fun _ => 0
  kfrees := fun _ => 0

theorem counted_boot (disk : Disk) : Counted (boot disk) := by
  have hend (q w f) : ¬ IsEnd (boot disk).ftable q w f := fun hf => nomatch hf.1
  have huse (q) : ¬ InUse (boot disk).ftable q := fun ⟨w, f, hf⟩ => hend q w f hf
  refine ⟨⟨fun f => ?_, ⟨fun i => ?_, fun i j hi hj _ => ?_⟩, fun _ _ => rfl, fun q w f g hf =>
    absurd hf (hend q w f),
    fun q hq => absurd hq (huse q), fun q hq => absurd hq (huse q), fun _ _ => rfl⟩, fun p => ?_⟩
  · rw [slots_eq]
    symm
    simp only [List.count_nil, Nat.add_zero]
    refine card_eq_zero.mpr (filter_eq_empty_iff.mpr fun a _ => ?_)
    by_cases ha : a.1 = 0
    · simp [boot, ha]
    · simp [boot, ha]
  · rw [cwds_eq]
    by_cases hi : i = 0
    · subst hi
      have h0 : opens (boot disk).ftable 0 = 0 := by simp [opens, boot]
      have h1 : #{p | ((boot disk).ptable p).cwd = some 0} = 1 := by
        refine card_eq_one.mpr ⟨0, ?_⟩
        ext p
        rw [mem_filter, mem_singleton]
        by_cases hp : p = 0
        · simp [boot, hp]
        · simp [boot, hp]
      rw [h0, h1]
      simp [boot]
    · have h0 : opens (boot disk).ftable i = 0 := by simp [opens, boot]
      have h1 : #{p | ((boot disk).ptable p).cwd = some i} = 0 := by
        refine card_eq_zero.mpr (filter_eq_empty_iff.mpr fun p _ => ?_)
        by_cases hp : p = 0
        · simp [boot, hp, Ne.symm hi]
        · simp [boot, hp]
      rw [h0, h1]
      simp [boot, hi, Fs.ICache.empty]
  · have hz (i) (hi : 0 < ((boot disk).fs.icache i).ref) : i = 0 := by
      by_contra hne
      simp [boot, hne, Fs.ICache.empty] at hi
    rw [hz i hi, hz j hj]
  · by_cases hp : p = 0
    · subst hp
      exact ⟨by simp [boot], fun hd => by simp [boot, Proc.Dead] at hd, fun _ => by simp [boot]⟩
    · refine ⟨by simp [boot, hp], fun _ => by simp [boot, hp], fun hd => ?_⟩
      exact absurd (.inl (by simp [boot, hp])) hd

/-- The image that `mkfs` makes of some files. -/
def mkfsImage (files : List Mkfs.File) : Disk :=
  match Mkfs.build files Mkfs.blank with
  | .ok (_, st) => st.image
  | .error _ => fun _ _ => 0

def emptyImage : Disk := mkfsImage []

section

attribute [local instance] Fs.noDevices

/-- A pipe shared with a child that exits, and a file that is opened twice. -/
theorem reference_counts_sharedPipe :
    let cs : List (Fin nproc × Call) :=
      [(0, .open (some [98]) 0x202), (0, .dup 0), (0, .pipe 4096 0 (.page 7)), (0, .fork (.page 8) true),
        (1, .close 2), (1, .exit), (0, .wait)]
    ∃ k', Runs.run (Call.step Mkfs.sb) (boot emptyImage) cs = some k' ∧ Counted k' := by
  intro cs
  obtain ⟨k', hk'⟩ : ∃ k', Runs.run (Call.step Mkfs.sb) (boot emptyImage) cs = some k' :=
    Option.isSome_iff_exists.mp (by decide +kernel)
  have halong : Runs.Along (Call.step Mkfs.sb) Call.Ready (boot emptyImage) cs :=
    Runs.along_of_alongB (fun k a => decide (Call.Ready k a)) (fun _ _ h => of_decide_eq_true h) (by decide +kernel)
  exact ⟨k', hk', (reference_counts (counted_boot emptyImage) halong hk').1⟩

/-- A process that is larger than the low half of the address of the file table. -/
def largeProc : State :=
  { boot emptyImage with
    ptable := update (boot emptyImage).ptable 0 { (boot emptyImage).ptable 0 with sz := 0x120000 } }

theorem counted_largeProc : Counted largeProc := by
  have h := counted_boot emptyImage
  have hfiles : Holding largeProc.ptable [] [] (boot emptyImage) :=
    Files.setProc (p := 0) (x := { (boot emptyImage).ptable 0 with sz := 0x120000 }) h.files rfl rfl
  exact ⟨hfiles.of_ptable _, settled_update h.procs ⟨(h.procs 0).grown, (h.procs 0).dead, (h.procs 0).alive⟩⟩

/-- `argptr` looks at half of the pointer only, so `pipe` stores its descriptors 0 and 1 in the count of a file
that it has just made and in the bytes behind it. -/
theorem pipe_clears_ref :
    Counted largeProc ∧
      ∃ k', Call.step Mkfs.sb largeProc (0, .pipe 0xFFFF80000011364C 0 (.page 7)) = some k' ∧
        (k'.ftable 0).ref = 0 ∧ (k'.ftable 0).type = .pipe ∧
        ¬ (k'.ptable 0).Dead ∧ (k'.ptable 0).ofile 0 = some 0 := by
  have h : (Call.step Mkfs.sb largeProc (0, .pipe 0xFFFF80000011364C 0 (.page 7))).any (fun k' =>
      decide ((k'.ftable 0).ref = 0 ∧ (k'.ftable 0).type = .pipe ∧
        ¬ (k'.ptable 0).Dead ∧ (k'.ptable 0).ofile 0 = some 0)) = true := by decide +kernel
  obtain ⟨k', hk', hp⟩ := (Option.any_eq_true _ _).mp h
  exact ⟨counted_largeProc, k', hk', of_decide_eq_true hp⟩

end

end Xv6.Kernel
