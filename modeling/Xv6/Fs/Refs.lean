import Xv6.Fs.Dir
import Xv6.Lib.RefCount

namespace Xv6.Fs

open Lib Lib.RefCount
open Lib.Exec hiding update
open Function (update update_of_ne update_self)

variable {sb : Layout} {s t : State} {b : Fin ninode → Nat} {l : List (Fin ninode)} {i : Fin ninode}

def refs (s : State) : Fin ninode → Nat × Nat × Nat := fun i =>
  ((s.icache i).ref, (s.icache i).dev, (s.icache i).inum)

/-- The reference counts of the cache are those recorded in `b` and one for each reference in `l`, and no
two entries are of one inode. -/
structure Acc (b : Fin ninode → Nat) (l : List (Fin ninode)) (s : State) : Prop where
  exact : Exact (fun i => (s.icache i).ref) b l
  unique : ∀ i j, 0 < (s.icache i).ref → 0 < (s.icache j).ref → (s.icache i).key = (s.icache j).key → i = j

theorem Acc.of_refs (h : Acc b l s) (hr : refs t = refs s) : Acc b l t := by
  have hr (i) : (t.icache i).ref = (s.icache i).ref ∧ (t.icache i).key = (s.icache i).key := by
    have := congrFun hr i
    simpa only [refs, Inode.key, Prod.mk.injEq] using this
  refine ⟨fun i => (hr i).1.trans (h.exact i), fun i j hi hj hk => h.unique i j ?_ ?_ ?_⟩
  · exact (hr i).1 ▸ hi
  · exact (hr j).1 ▸ hj
  · rw [← (hr i).2, ← (hr j).2, hk]

theorem Acc.perm {l' : List (Fin ninode)} (h : Acc b l s) (hl : l.Perm l') : Acc b l' s :=
  ⟨h.exact.perm hl, h.unique⟩

theorem Acc.pos (h : Acc b l s) (hi : 0 < b i) : 0 < (s.icache i).ref := by
  have := h.exact i
  dsimp only at this
  omega

theorem Acc.keep {α : Type} {m : FsM α} (h : Acc b l s) (hm : Keeps refs m) :
    wp m (fun _ t => Acc b l t) (fun _ => True) s := (hm s).imp fun _ _ ht => h.of_refs ht

theorem keeps_logWrite (n : Nat) (v : Block) : Keeps refs (logWrite n v) := .update fun _ => rfl

theorem refs_update {ip : Inode} (hr : ip.ref = (s.icache i).ref) (hk : ip.key = (s.icache i).key) :
    refs { s with icache := update s.icache i ip } = refs s := by
  funext j
  by_cases hj : j = i
  · subst hj
    simp only [Inode.key, Prod.mk.injEq] at hk
    simp [refs, hr, hk.1, hk.2]
  · simp [refs, hj]

theorem keeps_setInode {g : Inode → Inode} (hg : ∀ ip, (g ip).ref = ip.ref ∧ (g ip).key = ip.key) (i : Fin ninode) :
    Keeps refs (do let ip ← inode i; setInode i (g ip)) := fun _ => refs_update (hg _).1 (hg _).2

theorem keeps_balloc : Keeps refs (balloc sb) := by
  refine .bind (.gets _) fun d => ?_
  cases firstFree sb d with
  | none => exact .fail _
  | some n =>
      exact .bind (.gets _) fun _ => .bind (keeps_logWrite _ _) fun _ => .bind (keeps_logWrite _ _) fun _ => .pure _

theorem keeps_bfree (n : Nat) : Keeps refs (bfree sb n) :=
  .bind (.gets _) fun _ => .ite (fun _ => .fail _) fun _ => keeps_logWrite _ _

theorem keeps_iupdate (i : Fin ninode) : Keeps refs (iupdate sb i) :=
  .bind (.gets _) fun _ => .bind (.gets _) fun _ => keeps_logWrite _ _

theorem keeps_setAddr (i : Fin ninode) (k : Fin (ndirect + 1)) (a : UInt32) : Keeps refs (setAddr i k a) :=
  keeps_setInode (g := fun ip => { ip with addrs := update ip.addrs k a }) (fun _ => ⟨rfl, rfl⟩) i

theorem keeps_bmapIndirect (i : Fin ninode) : Keeps refs (bmapIndirect sb i) :=
  .bind (.gets _) fun _ => .ite
    (fun _ => .bind keeps_balloc fun _ => .bind (keeps_setAddr _ _ _) fun _ => .pure _) fun _ => .pure _

theorem keeps_bmap (i : Fin ninode) (bn : Nat) : Keeps refs (bmap sb i bn) := by
  refine .bind (.gets _) fun ip => ?_
  split
  · exact .ite (fun _ => .bind keeps_balloc fun _ => .bind (keeps_setAddr _ _ _) fun _ => .pure _) fun _ => .pure _
  · refine .ite (fun _ => .bind (keeps_bmapIndirect i) fun _ => .bind (.gets _) fun _ => ?_) fun _ => .fail _
    exact .ite (fun _ => .bind keeps_balloc fun _ => .bind (keeps_logWrite _ _) fun _ => .pure _) fun _ => .pure _

theorem keeps_truncDirect (i : Fin ninode) (ks : List (Fin (ndirect + 1))) : Keeps refs (truncDirect sb i ks) := by
  induction ks with
  | nil => exact .pure _
  | cons k ks ih =>
      refine .bind (.gets _) fun _ => .ite (fun _ => ?_) fun _ => ih
      exact .bind (keeps_bfree _) fun _ => .bind (keeps_setAddr _ _ _) fun _ => ih

theorem keeps_truncEntries (as : List UInt32) : Keeps refs (truncEntries sb as) := by
  induction as with
  | nil => exact .pure _
  | cons a as ih => exact .ite (fun _ => .bind (keeps_bfree _) fun _ => ih) fun _ => ih

theorem keeps_truncIndirect (i : Fin ninode) : Keeps refs (truncIndirect sb i) :=
  .bind (.gets _) fun _ => .ite
    (fun _ => .bind (.gets _) fun _ => .bind (keeps_truncEntries _) fun _ => .bind (keeps_bfree _) fun _ =>
      keeps_setAddr _ _ _)
    fun _ => .pure _

theorem keeps_itrunc (i : Fin ninode) : Keeps refs (itrunc sb i) := by
  refine .bind (keeps_truncDirect _ _) fun _ => .bind (keeps_truncIndirect _) fun _ => ?_
  have hset : Keeps refs (do let ip ← inode i; setInode i { ip with size := 0 }) :=
    keeps_setInode (g := fun ip => { ip with size := 0 }) (fun _ => ⟨rfl, rfl⟩) i
  exact hset.bind fun _ => keeps_iupdate i

theorem keeps_ilock (i : Fin ninode) : Keeps refs (ilock sb i) := by
  intro s
  simp only [ilock, inode, wp_bind, wp_gets]
  refine wp_ite.mpr ⟨fun _ => trivial, fun _ => wp_ite.mpr ⟨fun _ => rfl, fun _ => ?_⟩⟩
  simp only [bread, setInode, wp_bind, wp_gets, wp_update]
  refine wp_ite.mpr ⟨fun _ => trivial, fun _ => ?_⟩
  exact refs_update rfl rfl

theorem keeps_iunlock (i : Fin ninode) : Keeps refs (iunlock i) :=
  .bind (.gets _) fun _ => .ite (fun _ => .fail _) fun _ => .pure _

theorem keeps_readChunks (i : Fin ninode) (fuel off n : Nat) : Keeps refs (readChunks sb i fuel off n) := by
  induction fuel generalizing off n with
  | zero => exact .pure _
  | succ fuel ih =>
      refine .ite (fun _ => .pure _) fun _ => .bind (keeps_bmap _ _) fun _ => .bind (.gets _) fun _ => ?_
      exact .bind (ih _ _) fun _ => .pure _

theorem keeps_writeChunks (i : Fin ninode) (src : Nat → UInt8) (fuel tot off n : Nat) :
    Keeps refs (writeChunks sb i src fuel tot off n) := by
  induction fuel generalizing tot off with
  | zero => exact .pure _
  | succ fuel ih =>
      refine .ite (fun _ => .bind (keeps_bmap _ _) fun _ => .bind (.gets _) fun _ => ?_) fun _ => .pure _
      exact .bind (keeps_logWrite _ _) fun _ => ih _ _

theorem keeps_ofDriver {α : Type} (r : Option α) : Keeps refs (ofDriver r) := by
  cases r with
  | none => exact .fail _
  | some r => exact .pure _

theorem Acc.take {ip : Inode} (h : Acc b l s) (hr : ip.ref = (s.icache i).ref + 1)
    (hk : ∀ j, j ≠ i → 0 < (s.icache j).ref → (s.icache j).key ≠ ip.key) :
    Acc b (i :: l) { s with icache := update s.icache i ip } := by
  refine ⟨(h.exact.take i).congr fun j => ?_, fun j k hj hk' e => ?_⟩
  · by_cases hj : j = i
    · subst hj
      simp [hr]
    · simp [hj]
  · by_cases hji : j = i <;> by_cases hki : k = i
    · rw [hji, hki]
    · subst hji
      simp only [update_self, update_of_ne hki] at hk' e
      exact absurd e.symm (hk k hki hk')
    · subst hki
      simp only [update_self, update_of_ne hji] at hj e
      exact absurd e (hk j hji hj)
    · simp only [update_of_ne hji, update_of_ne hki] at hj hk' e
      exact h.unique j k hj hk' e

theorem Acc.drop {ip : Inode} (h : Acc b (i :: l) s) (hr : ip.ref = (s.icache i).ref - 1)
    (hk : ip.key = (s.icache i).key) : Acc b l { s with icache := update s.icache i ip } := by
  have hpos (j) (hj : 0 < (update s.icache i ip j).ref) :
      0 < (s.icache j).ref ∧ (update s.icache i ip j).key = (s.icache j).key := by
    by_cases hji : j = i
    · subst hji
      rw [update_self] at hj ⊢
      exact ⟨by omega, hk⟩
    · rw [update_of_ne hji] at hj ⊢
      exact ⟨hj, rfl⟩
  refine ⟨h.exact.drop.congr fun j => ?_, fun j k hj hk' e => ?_⟩
  · by_cases hj : j = i
    · subst hj
      simp [hr]
    · simp [hj]
  · dsimp only at hj hk' e
    exact h.unique j k (hpos j hj).1 (hpos k hk').1 ((hpos j hj).2 ▸ (hpos k hk').2 ▸ e)

theorem igetM_acc (h : Acc b l s) (dev inum : Nat) :
    wp (igetM dev inum) (fun i t => Acc b (i :: l) t) (fun _ => True) s := by
  simp only [igetM, wp_bind, wp_gets]
  cases hg : iget s.icache dev inum with
  | none => exact trivial
  | some r =>
      obtain ⟨i, c⟩ := r
      simp only [wp_bind, wp_update, wp_pure]
      rcases iget_cases hg with ⟨hr, hk, rfl⟩ | ⟨hnone, hr, rfl⟩
      · exact h.take rfl fun j hj hj0 e => hj (h.unique j i hj0 hr e)
      · exact h.take (by rw [hr]) fun j _ hj0 => hnone j hj0

theorem idupM_acc (h : Acc b l s) (hi : 0 < (s.icache i).ref) :
    wp (idupM i) (fun j t => Acc b (j :: l) t) (fun _ => True) s := by
  simp only [idupM, wp_bind, wp_update, wp_pure]
  exact h.take rfl fun j hj hj0 e => hj (h.unique j i hj0 hi e)

theorem ialloc_acc (h : Acc b l s) (dev : Nat) (type : Int16) :
    wp (ialloc sb dev type) (fun i t => Acc b (i :: l) t) (fun _ => True) s := by
  simp only [ialloc, wp_bind, wp_gets]
  cases firstFreeInode sb s.disk with
  | none => exact trivial
  | some inum =>
      simp only [bread, logWrite, wp_bind, wp_gets, wp_update]
      refine igetM_acc (h.of_refs ?_) dev inum
      rfl

theorem iput_acc (h : Acc b (i :: l) s) : wp (iput sb i) (fun _ t => Acc b l t) (fun _ => True) s := by
  simp only [iput, inode, wp_bind, wp_gets]
  refine wp_ite.mpr ⟨fun _ => wp_bind.mpr ?_, fun _ => ?_⟩
  · refine (h.keep (keeps_itrunc i)).imp fun _ t ht => ?_
    simp only [setInode, wp_bind, wp_gets, wp_update]
    refine wp.imp (Acc.keep (Acc.of_refs ht (refs_update ?_ ?_)) (keeps_iupdate i)) fun _ u hu => ?_
    · rfl
    · rfl
    · exact hu.drop rfl rfl
  · exact h.drop rfl rfl

theorem iunlockput_acc (h : Acc b (i :: l) s) : wp (iunlockput sb i) (fun _ t => Acc b l t) (fun _ => True) s :=
  (h.keep (keeps_iunlock i)).bind fun _ _ ht => iput_acc ht

theorem setInode_acc {g : Inode → Inode} (h : Acc b l s) (hg : ∀ ip, (g ip).ref = ip.ref ∧ (g ip).key = ip.key) :
    wp (setInode i (g (s.icache i))) (fun _ t => Acc b l t) (fun _ => True) s :=
  h.of_refs (refs_update (hg _).1 (hg _).2)

section

variable [Devsw]

theorem keeps_devRead (major : Int16) (off n : UInt32) : Keeps refs (devRead major off n) := by
  refine .ite (fun _ => ?_) fun _ => .pure _
  cases Devsw.read major with
  | none => exact .pure _
  | some f => exact keeps_ofDriver _

theorem keeps_devWrite (major : Int16) (src : Nat → UInt8) (off n : UInt32) :
    Keeps refs (devWrite major src off n) := by
  refine .ite (fun _ => ?_) fun _ => .pure _
  cases Devsw.write major with
  | none => exact .pure _
  | some f => exact keeps_ofDriver _

theorem keeps_readi (i : Fin ninode) (off n : UInt32) : Keeps refs (readi sb i off n) :=
  .bind (.gets _) fun _ => .ite (fun _ => keeps_devRead _ _ _) fun _ => .ite (fun _ => .pure _) fun _ =>
    .bind (keeps_readChunks _ _ _ _) fun _ => .pure _

theorem keeps_writei (i : Fin ninode) (src : Nat → UInt8) (off n : UInt32) :
    Keeps refs (writei sb i src off n) := by
  refine .bind (.gets _) fun _ => .ite (fun _ => keeps_devWrite _ _ _ _) fun _ => .ite (fun _ => .pure _) fun _ =>
    .ite (fun _ => .pure _) fun _ => .bind (keeps_writeChunks _ _ _ _ _ _) fun off' s => ?_
  simp only [inode, wp_bind, wp_gets]
  refine wp_ite.mpr ⟨fun _ => ?_, fun _ => rfl⟩
  simp only [setInode, wp_bind, wp_update]
  refine (keeps_iupdate i _).imp fun _ t ht => ht.trans ?_
  exact refs_update rfl rfl

theorem keeps_emptyFrom (i : Fin ninode) (fuel off : Nat) : Keeps refs (emptyFrom sb i fuel off) := by
  induction fuel generalizing off with
  | zero => exact .pure _
  | succ fuel ih =>
      refine .bind (.gets _) fun _ => .ite (fun _ => .bind (keeps_readi _ _ _) fun r => ?_) fun _ => .pure _
      exact .ite (fun _ => .fail _) fun _ => .ite (fun _ => .pure _) fun _ => ih _

theorem keeps_emptyAfter (i : Fin ninode) (fuel off : Nat) : Keeps refs (emptyAfter sb i fuel off) := by
  induction fuel generalizing off with
  | zero => exact .pure _
  | succ fuel ih =>
      refine .bind (.gets _) fun _ => .ite (fun _ => .bind (keeps_readi _ _ _) fun r => ?_) fun _ => .pure _
      exact .ite (fun _ => .fail _) fun _ => .ite (fun _ => .pure _) fun _ => ih _

theorem keeps_isdirempty (i : Fin ninode) : Keeps refs (isdirempty sb i) :=
  .bind (.gets _) fun _ => keeps_emptyAfter _ _ _

def heldBy {α : Type} (r : Option (Fin ninode × α)) : List (Fin ninode) := (r.map Prod.fst).toList

theorem lookupFrom_acc (h : Acc b l s) (i : Fin ninode) (name : List UInt8) (fuel off : Nat) :
    wp (lookupFrom sb i name fuel off) (fun r t => Acc b (heldBy r ++ l) t) (fun _ => True) s := by
  induction fuel generalizing off s with
  | zero => exact h
  | succ fuel ih =>
      simp only [lookupFrom, inode, wp_bind, wp_gets]
      refine wp_ite.mpr ⟨fun _ => ?_, fun _ => h⟩
      rw [wp_bind]
      refine (h.keep (keeps_readi _ _ _)).imp fun r t ht => ?_
      refine wp_ite.mpr ⟨fun _ => trivial, fun _ => wp_ite.mpr ⟨fun _ => ih ht _, fun _ => ?_⟩⟩
      refine wp_ite.mpr ⟨fun _ => ?_, fun _ => ih ht _⟩
      rw [wp_bind]
      exact (igetM_acc ht _ _).imp fun _ _ hu => hu

theorem dirlookup_acc (h : Acc b l s) (i : Fin ninode) (name : List UInt8) :
    wp (dirlookup sb i name) (fun r t => Acc b (heldBy r ++ l) t) (fun _ => True) s := by
  simp only [dirlookup, inode, wp_bind, wp_gets]
  exact wp_ite.mpr ⟨fun _ => trivial, fun _ => lookupFrom_acc h _ _ _ _⟩

theorem dirlink_acc (h : Acc b l s) (i : Fin ninode) (name : List UInt8) (inum : Nat) :
    wp (dirlink sb i name inum) (fun _ t => Acc b l t) (fun _ => True) s := by
  refine (dirlookup_acc h i name).bind fun r t ht => ?_
  cases r with
  | some r => exact (iput_acc ht).bind fun _ _ hu => hu
  | none =>
      refine Acc.keep ht (.bind (.gets _) fun _ => .bind (keeps_emptyFrom _ _ _) fun _ =>
        .bind (keeps_writei _ _ _ _) fun _ => .ite (fun _ => .fail _) fun _ => .pure _)

omit [Devsw] in
theorem namexEnd_acc (nameiparent : Bool) (name : List UInt8) (h : Acc b (i :: l) s) :
    wp (namexEnd sb nameiparent i name) (fun r t => Acc b (heldBy r ++ l) t) (fun _ => True) s :=
  wp_ite.mpr ⟨fun _ => (iput_acc h).bind fun _ _ ht => ht, fun _ => h⟩

theorem namexFrom_acc (nameiparent : Bool) (fuel : Nat) (path name : List UInt8) (h : Acc b (i :: l) s) :
    wp (namexFrom sb nameiparent fuel path name i) (fun r t => Acc b (heldBy r ++ l) t) (fun _ => True) s := by
  induction fuel generalizing path name i s with
  | zero => exact namexEnd_acc _ _ h
  | succ fuel ih =>
      rw [namexFrom]
      split
      next => exact namexEnd_acc _ _ h
      next name path _ =>
        refine (h.keep (keeps_ilock i)).bind fun _ t ht => ?_
        simp only [inode, wp_bind, wp_gets]
        refine wp_ite.mpr ⟨fun _ => (iunlockput_acc ht).bind fun _ _ hu => hu, fun _ => ?_⟩
        refine wp_ite.mpr ⟨fun _ => (ht.keep (keeps_iunlock i)).bind fun _ _ hu => hu, fun _ => ?_⟩
        refine (dirlookup_acc ht i name).bind fun r u hu => ?_
        cases r with
        | none => exact (iunlockput_acc hu).bind fun _ _ hv => hv
        | some r =>
            have hu : Acc b (i :: r.1 :: l) u := hu.perm (.swap ..)
            exact (iunlockput_acc hu).bind fun _ _ hv => ih _ _ hv

theorem namex_acc (h : Acc b l s) {cwd : Fin ninode} (hcwd : 0 < (s.icache cwd).ref) (path : List UInt8)
    (nameiparent : Bool) :
    wp (namex sb cwd path nameiparent) (fun r t => Acc b (heldBy r ++ l) t) (fun _ => True) s := by
  refine wp.bind (Q := fun i t => Acc b (i :: l) t) ?_ fun i t ht => namexFrom_acc _ _ _ _ ht
  exact wp_ite.mpr ⟨fun _ => igetM_acc h _ _, fun _ => idupM_acc h hcwd⟩

theorem namei_acc (h : Acc b l s) {cwd : Fin ninode} (hcwd : 0 < (s.icache cwd).ref) (path : List UInt8) :
    wp (namei sb cwd path) (fun r t => Acc b (r.toList ++ l) t) (fun _ => True) s := by
  refine (namex_acc h hcwd path false).bind fun r t ht => ?_
  cases r with
  | none => exact ht
  | some r => exact ht

theorem createDots_acc (h : Acc b l s) (dp ip : Fin ninode) :
    wp (createDots sb dp ip) (fun _ t => Acc b l t) (fun _ => True) s := by
  simp only [createDots, inode, wp_bind, wp_gets]
  refine (setInode_acc (g := fun d => { d with nlink := d.nlink + 1 }) h fun _ => ⟨rfl, rfl⟩).imp fun _ t ht => ?_
  refine (ht.keep (keeps_iupdate dp)).bind fun _ u hu => ?_
  simp only [wp_bind, wp_gets]
  refine (dirlink_acc hu ip dot _).imp fun _ v hv => ?_
  refine wp_ite.mpr ⟨fun _ => trivial, fun _ => (dirlink_acc hv ip dotdot _).bind fun _ w hw => ?_⟩
  exact wp_ite.mpr ⟨fun _ => trivial, fun _ => hw⟩

theorem createNew_acc {dp : Fin ninode} (h : Acc b (dp :: l) s) (name : List UInt8) (type major minor : Int16) :
    wp (createNew sb dp name type major minor) (fun i t => Acc b (i :: l) t) (fun _ => True) s := by
  simp only [createNew, inode, wp_bind, wp_gets]
  refine (ialloc_acc h _ _).imp fun ip t ht => (ht.keep (keeps_ilock ip)).bind fun _ u hu => ?_
  simp only [wp_bind, wp_gets]
  refine (setInode_acc (g := fun x => { x with major, minor, nlink := 1 }) hu fun _ => ⟨rfl, rfl⟩).imp
    fun _ v hv => ?_
  refine (hv.keep (keeps_iupdate ip)).bind fun _ w hw => ?_
  refine wp.bind (Q := fun _ t => Acc b (ip :: dp :: l) t) ?_ fun _ y hy => ?_
  · exact wp_ite.mpr ⟨fun _ => createDots_acc hw _ _, fun _ => hw⟩
  · refine (dirlink_acc hy dp name _).bind fun _ z hz => wp_ite.mpr ⟨fun _ => trivial, fun _ => ?_⟩
    exact (iunlockput_acc (hz.perm (.swap ..))).bind fun _ _ h => h

theorem create_acc (h : Acc b l s) {cwd : Fin ninode} (hcwd : 0 < (s.icache cwd).ref) (path : List UInt8)
    (type major minor : Int16) :
    wp (create sb cwd path type major minor) (fun r t => Acc b (r.toList ++ l) t) (fun _ => True) s := by
  refine (namex_acc h hcwd path true).bind fun r t ht => ?_
  cases r with
  | none => exact ht
  | some r =>
      obtain ⟨dp, name⟩ := r
      refine (Acc.keep ht (keeps_ilock dp)).bind fun _ u hu => (dirlookup_acc hu dp name).bind fun r v hv => ?_
      cases r with
      | none => exact (createNew_acc hv name type major minor).bind fun _ _ hw => hw
      | some r =>
          have hv : Acc b (dp :: r.1 :: l) v := hv.perm (.swap ..)
          refine (iunlockput_acc hv).bind fun _ w hw => (hw.keep (keeps_ilock r.1)).bind fun _ y hy => ?_
          simp only [inode, wp_bind, wp_gets]
          exact wp_ite.mpr ⟨fun _ => hy, fun _ => (iunlockput_acc hy).bind fun _ _ hz => hz⟩

omit [Devsw] in
theorem linkBad_acc {ip : Fin ninode} (h : Acc b (ip :: l) s) :
    wp (linkBad sb ip) (fun _ t => Acc b l t) (fun _ => True) s := by
  refine (h.keep (keeps_ilock ip)).bind fun _ t ht => ?_
  simp only [inode, wp_bind, wp_gets]
  refine (setInode_acc (g := fun x => { x with nlink := x.nlink - 1 }) ht fun _ => ⟨rfl, rfl⟩).imp fun _ u hu => ?_
  exact (hu.keep (keeps_iupdate ip)).bind fun _ _ hv => (iunlockput_acc hv).bind fun _ _ hw => hw

theorem sysLink_acc (h : Acc b l s) {cwd : Fin ninode} (hcwd : 0 < b cwd) (old new : List UInt8) :
    wp (sysLink sb cwd old new) (fun _ t => Acc b l t) (fun _ => True) s := by
  refine (namei_acc h (h.pos hcwd) old).bind fun r t ht => ?_
  cases r with
  | none => exact ht
  | some ip =>
      refine (Acc.keep ht (keeps_ilock ip)).bind fun _ u hu => ?_
      simp only [inode, wp_bind, wp_gets]
      refine wp_ite.mpr ⟨fun _ => (iunlockput_acc hu).bind fun _ _ hv => hv, fun _ => wp_bind.mpr ?_⟩
      refine (setInode_acc (g := fun x => { x with nlink := x.nlink + 1 }) hu fun _ => ⟨rfl, rfl⟩).imp
        fun _ v hv => ?_
      refine (hv.keep (keeps_iupdate ip)).bind fun _ w hw => (hw.keep (keeps_iunlock ip)).bind fun _ x hx => ?_
      refine (namex_acc hx (hx.pos hcwd) new true).bind fun r y hy => ?_
      cases r with
      | none => exact linkBad_acc hy
      | some r =>
          obtain ⟨dp, name⟩ := r
          refine (Acc.keep hy (keeps_ilock dp)).bind fun _ z hz => ?_
          simp only [wp_bind, wp_gets]
          refine wp_ite.mpr ⟨fun _ => (iunlockput_acc hz).bind fun _ _ ha => linkBad_acc ha, fun _ => ?_⟩
          refine (dirlink_acc hz dp name _).bind fun r a ha => ?_
          refine wp_ite.mpr ⟨fun _ => (iunlockput_acc ha).bind fun _ _ hb => linkBad_acc hb, fun _ => ?_⟩
          exact (iunlockput_acc ha).bind fun _ _ hb => (iput_acc hb).bind fun _ _ hc => hc

omit [Devsw] in
theorem unlinkDots_acc (h : Acc b l s) (dp ip : Fin ninode) :
    wp (unlinkDots sb dp ip) (fun _ t => Acc b l t) (fun _ => True) s := by
  simp only [unlinkDots, inode, wp_bind, wp_gets]
  refine wp_ite.mpr ⟨fun _ => ?_, fun _ => h⟩
  simp only [wp_bind, wp_gets]
  refine (setInode_acc (g := fun x => { x with nlink := x.nlink - 1 }) h fun _ => ⟨rfl, rfl⟩).imp fun _ u hu => ?_
  exact hu.keep (keeps_iupdate dp)

theorem unlinkEntry_acc {dp ip : Fin ninode} (h : Acc b (ip :: dp :: l) s) (off : Nat) :
    wp (unlinkEntry sb dp ip off) (fun _ t => Acc b l t) (fun _ => True) s := by
  refine (h.keep (keeps_writei _ _ _ _)).bind fun _ t ht => wp_ite.mpr ⟨fun _ => trivial, fun _ => ?_⟩
  refine (unlinkDots_acc (ht.perm (.swap ..)) dp ip).bind fun _ u hu => (iunlockput_acc hu).bind fun _ v hv => ?_
  simp only [inode, wp_bind, wp_gets]
  refine (setInode_acc (g := fun x => { x with nlink := x.nlink - 1 }) hv fun _ => ⟨rfl, rfl⟩).imp fun _ w hw => ?_
  exact (hw.keep (keeps_iupdate ip)).bind fun _ _ hx => (iunlockput_acc hx).bind fun _ _ hy => hy

theorem sysUnlink_acc (h : Acc b l s) {cwd : Fin ninode} (hcwd : 0 < b cwd) (path : List UInt8) :
    wp (sysUnlink sb cwd path) (fun _ t => Acc b l t) (fun _ => True) s := by
  refine (namex_acc h (h.pos hcwd) path true).bind fun r t ht => ?_
  cases r with
  | none => exact ht
  | some r =>
      obtain ⟨dp, name⟩ := r
      refine (Acc.keep ht (keeps_ilock dp)).bind fun _ u hu => ?_
      refine wp_ite.mpr ⟨fun _ => (iunlockput_acc hu).bind fun _ _ hv => hv, fun _ => ?_⟩
      refine (dirlookup_acc hu dp name).bind fun r v hv => ?_
      cases r with
      | none => exact (iunlockput_acc hv).bind fun _ _ hw => hw
      | some r =>
          obtain ⟨ip, off⟩ := r
          refine (Acc.keep hv (keeps_ilock ip)).bind fun _ w hw => ?_
          simp only [inode, wp_bind, wp_gets]
          refine wp_ite.mpr ⟨fun _ => trivial, fun _ => ?_⟩
          refine wp.bind (Q := fun _ t => Acc b (ip :: dp :: l) t) ?_ fun r x hx => ?_
          · exact wp_ite.mpr ⟨fun _ => Acc.keep hw (keeps_isdirempty ip), fun _ => hw⟩
          · refine wp_ite.mpr ⟨fun _ => unlinkEntry_acc hx off, fun _ => ?_⟩
            exact (iunlockput_acc hx).bind fun _ _ hy => (iunlockput_acc hy).bind fun _ _ hz => hz

end

end Xv6.Fs
