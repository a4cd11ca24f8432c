import Xv6.Fs.Trunc
import Xv6.Lib.Runs

namespace Xv6.Fs

open Lib Lib.Bytes Lib.Ownership
open Lib.Exec hiding update
open Function (update update_eq_self update_of_ne)

variable {sb : Layout} {d d' : Disk} {N : Nat → Dinode} {X : Set Nat} {s t u : State} {i : Fin ninode}
  {x y : Dinode} {j inum : Nat}

def State.recycle (s : State) (i : Fin ninode) (inum : Nat) : State :=
  { s with icache := update s.icache i { s.icache i with dev := rootdev, inum, ref := 1, valid := false } }

/-- What `iget` does: the entry of the inode gets one more reference, or an unused entry becomes
its entry. -/
def Igot (inum : Nat) (s : State) (i : Fin ninode) (t : State) : Prop :=
  (0 < (s.icache i).ref ∧ (s.icache i).inum = inum ∧ t = s.setRef i ((s.icache i).ref + 1)) ∨
    ((∀ j, 0 < (s.icache j).ref → (s.icache j).inum ≠ inum) ∧ (s.icache i).ref = 0 ∧ t = s.recycle i inum)

theorem CacheOk.recycle {c : ICache} (h : CacheOk sb c) (hlt : inum < sb.ninodes)
    (hnone : ∀ j, 0 < (c j).ref → (c j).inum ≠ inum) :
    CacheOk sb (update c i { c i with dev := rootdev, inum, ref := 1, valid := false }) := by
  refine ⟨fun k hk => ?_, fun k hk => ?_, fun k l hk hl e => ?_, fun k hk hv => ?_⟩
  · by_cases hki : k = i
    · subst hki; simp
    · rw [update_of_ne hki] at hk ⊢
      exact h.dev k hk
  · by_cases hki : k = i
    · subst hki; simpa using hlt
    · rw [update_of_ne hki] at hk ⊢
      exact h.inum_lt k hk
  · by_cases hki : k = i <;> by_cases hli : l = i
    · rw [hki, hli]
    · subst hki
      rw [update_of_ne hli] at hl e
      exact absurd e.symm (by simpa using hnone l hl)
    · subst hli
      rw [update_of_ne hki] at hk e
      exact absurd e (by simpa using hnone k hk)
    · rw [update_of_ne hki] at hk e
      rw [update_of_ne hli] at hl e
      exact h.unique k l hk hl e
  · by_cases hki : k = i
    · subst hki; simp at hv
    · rw [update_of_ne hki] at hk hv ⊢
      exact h.live k hk hv

theorem Igot.consistent (hg : Igot inum s i t) (h : Consistent sb s) (hlt : inum < sb.ninodes) :
    Consistent sb t := by
  rcases hg with ⟨hr, -, rfl⟩ | ⟨hnone, -, rfl⟩
  · exact h.setRef hr _
  · refine ⟨h.owns, h.filled, fun k hr hv => ?_, h.cache.recycle hlt hnone⟩
    have hki : k ≠ i := by
      rintro rfl
      simp [State.recycle] at hv
    simp only [State.recycle, update_of_ne hki] at hr hv ⊢
    exact h.agree k hr hv

theorem igetM_spec (h : Consistent sb s) (hlt : inum < sb.ninodes) :
    wp (igetM rootdev inum) (fun i t => Consistent sb t ∧ Igot inum s i t) (· = .panic .igetNoInodes) s := by
  simp only [igetM, wp_bind, wp_gets]
  cases hg : iget s.icache rootdev inum with
  | none => simp [Fs.panic]
  | some r =>
      obtain ⟨i, c⟩ := r
      simp only [wp_bind, wp_update, wp_pure]
      have hgot : Igot inum s i { s with icache := c } := by
        rcases iget_cases hg with ⟨hr, hk, rfl⟩ | ⟨hnone, hr, rfl⟩
        · exact .inl ⟨hr, congrArg Prod.snd hk, rfl⟩
        · refine .inr ⟨fun j hj e => hnone j hj ?_, hr, rfl⟩
          rw [Inode.key, h.cache.dev j hj, e]
      exact ⟨hgot.consistent h hlt, hgot⟩

theorem ilock_spec (h : Consistent sb s) (hr : 0 < (s.icache i).ref)
    (ht : (dinode sb s.disk (s.icache i).inum).type ≠ 0) :
    wp (ilock sb i) (fun _ t => Consistent sb t ∧ t.disk = s.disk ∧
        t.icache = update s.icache i
          { s.icache i with toDinode := dinode sb s.disk (s.icache i).inum, valid := true })
      (fun _ => False) s := by
  simp only [ilock, inode, bread, setInode, wp_bind, wp_gets, wp_ite]
  refine ⟨fun hlt => absurd hlt (by omega), fun _ => ⟨fun hv => ?_, fun hv => ?_⟩⟩
  · refine ⟨h, rfl, ?_⟩
    rw [← h.agree i hr hv, ← hv, update_eq_self]
  · rw [wp_update, wp_ite]
    refine ⟨fun h0 => absurd h0 ht, fun _ => ⟨⟨h.owns, h.filled, fun k hk hvk => ?_, ?_⟩, rfl, rfl⟩⟩
    · by_cases hki : k = i
      · subst hki
        simp [dinode]
      · simp only [update_of_ne hki] at hk hvk ⊢
        exact h.agree k hk hvk
    · refine h.cache.of_le fun k hk => ?_
      by_cases hki : k = i
      · subst hki
        simpa using ⟨hr, ht⟩
      · simp only [update_of_ne hki] at hk ⊢
        exact ⟨hk, trivial, h.cache.live k hk⟩

theorem Filled.empty (h : ∀ sl, ptr d x sl = 0) : Filled d x 0 := by
  refine ⟨fun k => iff_of_false (not_not.mpr ?_) (Nat.not_lt_zero k), iff_of_false (not_not.mpr ?_) (by decide)⟩
  · cases hs : slotOf k with
    | none => simp [fileBlock, hs]
    | some sl => rw [fileBlock_some hs, h]
  · rw [← UInt32.toNat_inj]
    exact h .indirect

theorem Consistent.claim (h : Consistent sb s) (hlt : j < sb.ninodes) (h0 : (dinode sb s.disk j).type = 0)
    (ha : x.addrs = fun _ => 0) (hsize : x.size = 0) : Consistent sb { s with disk := putNode sb s.disk j x } := by
  have hptr (d : Disk) (sl : Slot) : ptr d x sl = 0 := by cases sl <;> simp [ptr, Dinode.ind, ha]
  have htouch : Touched sb j x s.disk (putNode sb s.disk j x) :=
    ⟨fun k _ => dinode_putNode k, fun k hk _ ht => Owned.sameFile_putNode h.owns hlt hk ht⟩
  have hown : Owns sb s.disk (update (dinode sb s.disk) j x) ∅ := by
    have htab : table sb s.disk (update (dinode sb s.disk) j x) = table sb s.disk (dinode sb s.disk) := by
      funext y
      obtain ⟨k, sl⟩ := y
      by_cases hk : k = j
      · subst hk
        simp [table, hptr, h0]
      · simp only [table, update_of_ne hk]
    rw [Owns, htab]
    exact h.owns
  refine ⟨htouch.owns (Owned.putNode hown hlt), fun k hk => htouch.filled h.filled (fun _ => ?_) hk,
    fun k hr hv => ?_, h.cache⟩
  · rw [hsize, show blocks (0 : UInt32).toNat = 0 by decide]
    exact Filled.empty (hptr _)
  · have hne : (s.icache k).inum ≠ j := fun e => h.cache.live k hr hv (by rw [h.agree k hr hv, e, h0])
    rw [dinode_putNode, if_neg hne]
    exact h.agree k hr hv

theorem ialloc_spec (h : Consistent sb s) (type : Int16) :
    wp (ialloc sb rootdev type) (fun i t => Consistent sb t ∧ ∃ inum, inum < sb.ninodes ∧ inum ≠ 0 ∧
        (dinode sb s.disk inum).type = 0 ∧
        Igot inum { s with disk := putNode sb s.disk inum (.fresh type) } i t)
      (fun e => e = .panic .iallocNoInodes ∨ e = .panic .igetNoInodes) s := by
  simp only [ialloc, wp_bind, wp_gets]
  cases hf : firstFreeInode sb s.disk with
  | none => simp [Fs.panic]
  | some inum =>
      have hlt : inum < sb.ninodes := List.mem_range.mp (List.mem_of_find?_eq_some hf)
      obtain ⟨hne, h0⟩ : inum ≠ 0 ∧ (dinode sb s.disk inum).type = 0 := by simpa using List.find?_some hf
      simp only [bread, logWrite, wp_bind, wp_gets, wp_update]
      rw [← putNode]
      refine (igetM_spec (h.claim hlt h0 rfl rfl) hlt).mono
        (by rintro i t ⟨hc, hg⟩; exact ⟨hc, inum, hlt, hne, h0, hg⟩)
        fun _ he => .inr he

/-- The calls on inodes by which files grow, shrink and come into being. -/
inductive Call
  | readi (i : Fin ninode) (off n : UInt32)
  | writei (i : Fin ninode) (src : Nat → UInt8) (off n : UInt32)
  | ialloc (type : Int16)
  | iput (i : Fin ninode)

/-- What the callers see to: the inode of `readi` and `writei` is locked, that of `iput` is referenced;
neither is a device. -/
def Call.Ready (s : State) : Call → Prop
  | .readi i _ _ | .writei i _ _ _ => 0 < (s.icache i).ref ∧ (s.icache i).valid = true ∧ (s.icache i).type ≠ tDev
  | .ialloc _ => True
  | .iput i => 0 < (s.icache i).ref

instance (s : State) : DecidablePred (Call.Ready s)
  | .readi _ _ _ => inferInstanceAs (Decidable (_ ∧ _))
  | .writei _ _ _ _ => inferInstanceAs (Decidable (_ ∧ _))
  | .ialloc _ => inferInstanceAs (Decidable True)
  | .iput _ => inferInstanceAs (Decidable (_ < _))

section Calls

variable [Devsw]

def Call.run (sb : Layout) : Call → FsM Unit
  | .readi i off n => do let _ ← Fs.readi sb i off n
  | .writei i src off n => do let _ ← Fs.writei sb i src off n
  | .ialloc type => do let _ ← Fs.ialloc sb rootdev type
  | .iput i => Fs.iput sb i

def Call.step (sb : Layout) (s : State) (c : Call) : Option State :=
  match c.run sb s with
  | .ok (_, t) => some t
  | .error _ => none

def CallPanic (e : Halt) : Prop :=
  e = .panic .ballocOutOfBlocks ∨ e = .panic .bmapOutOfRange ∨ e = .panic .iallocNoInodes ∨ e = .panic .igetNoInodes

theorem Call.run_spec (h : Consistent sb s) {c : Call} (hc : c.Ready s) :
    wp (c.run sb) (fun _ t => Consistent sb t ∧ ∀ i off n, c = .readi i off n → t = s) CallPanic s := by
  cases c with
  | readi i off n =>
      obtain ⟨hr, hv, hdev⟩ := hc
      simp only [Call.run, wp_bind]
      refine (readi_filled (h.filled_cached hr hv) hdev).mono ?_ (fun _ => False.elim)
      rintro r t ⟨ht, _⟩
      rw [wp_pure, ht]
      exact ⟨h, fun _ _ _ _ => rfl⟩
  | writei i src off n =>
      obtain ⟨hr, hv, hdev⟩ := hc
      simp only [Call.run, wp_bind]
      refine (writei_spec h hr hv hdev).mono (fun r t ht => ?_)
        (fun e he => he.elim .inl fun he => .inr (.inl he))
      rw [wp_pure]
      rcases ht with ⟨-, rfl, -⟩ | ⟨-, -, -, x, hx⟩
      · exact ⟨h, fun _ _ _ hc => (by cases hc)⟩
      · exact ⟨hx.consistent, fun _ _ _ hc => (by cases hc)⟩
  | ialloc type =>
      simp only [Call.run, wp_bind]
      refine (ialloc_spec h type).mono ?_ (fun e he => .inr (.inr he))
      rintro r t ⟨ht, _⟩
      rw [wp_pure]
      exact ⟨ht, fun _ _ _ hc => (by cases hc)⟩
  | iput i =>
      refine (iput_spec h hc).mono (by rintro r t ⟨ht, _⟩; exact ⟨ht, fun _ _ _ hc => (by cases hc)⟩)
        (fun _ => False.elim)

theorem Call.step_consistent (h : Consistent sb s) {c : Call} (hc : c.Ready s) (hs : c.step sb s = some t) :
    Consistent sb t ∧ ∀ i off n, c = .readi i off n → t = s := by
  have hw := Call.run_spec h hc
  unfold wp at hw
  unfold Call.step at hs
  split at hs
  next u hu =>
    rw [hu] at hw
    cases hs
    exact hw
  next => cases hs

/-- In every run of calls from a consistent file system, the file system stays consistent; so no block is
freed twice, no two files share a block, every block in use belongs to a file, and reading
changes nothing. -/
theorem block_ownership {cs : List Call} (h : Consistent sb s) (hcs : Runs.Along (Call.step sb) Call.Ready s cs)
    (hrun : Runs.run (Call.step sb) s cs = some t) :
    Consistent sb t ∧
      (∀ c : Call, c.Ready t → c.run sb t ≠ .error (.panic .freeingFreeBlock)) ∧
      (∀ j k sl sl', j < sb.ninodes → k < sb.ninodes → (dinode sb t.disk j).type ≠ 0 →
        (dinode sb t.disk k).type ≠ 0 → ptr t.disk (dinode sb t.disk j) sl ≠ 0 →
        ptr t.disk (dinode sb t.disk j) sl = ptr t.disk (dinode sb t.disk k) sl' → j = k ∧ sl = sl') ∧
      (∀ b, sb.nmeta ≤ b → b < sb.size → inUse sb t.disk b = true →
        ∃ j sl, j < sb.ninodes ∧ (dinode sb t.disk j).type ≠ 0 ∧ ptr t.disk (dinode sb t.disk j) sl = b) ∧
      ∀ i off n, (Call.readi i off n).Ready t → ∀ u, (Call.readi i off n).step sb t = some u → u = t := by
  have ht : Consistent sb t := Runs.run_invariant (Consistent sb)
    (fun s c t hs hc hst => (Call.step_consistent hs hc hst).1) h hcs hrun
  refine ⟨ht, fun c hc he => ?_, fun j k sl sl' hj hk htj htk h0 he => ?_, fun b hlo hhi hu => ?_,
    fun i off n hc u hu => (Call.step_consistent ht hc hu).2 i off n rfl⟩
  · have := (wp_iff.mp (Call.run_spec ht hc)).2 _ he
    rcases this with he | he | he | he <;> cases he
  · rw [← table_live hj htj] at h0 he
    rw [← table_live hk htk] at he
    exact Prod.mk.inj (ht.owns.inj _ _ h0 he)
  · rcases (ht.owns.used_iff b hhi).mp hu with hlt | hX | ⟨⟨j, sl⟩, hj⟩
    · omega
    · exact absurd hX (Set.notMem_empty b)
    · have hpos := ht.owns.pos
      unfold table at hj
      split at hj
      next hlive => exact ⟨j, sl, hlive.1, hlive.2, hj⟩
      next => omega

end Calls

def tiny : Layout := ⟨⟨10, 8, 2, 0, 0, 0, 1⟩, by decide, by decide, by decide, by decide⟩

def freshNode (type : Int16) : State where
  disk := putNode tiny (update (fun _ _ => 0) 1 (setBit (setBit (fun _ => 0) 0) 1)) 1 (.fresh type)
  icache := update ICache.empty 0 ⟨.fresh type, rootdev, 1, 1, true⟩

def oneFile : State := freshNode tFile

@[reducible] def noDevices : Devsw := ⟨fun _ => none, fun _ => none, fun _ _ _ _ _ h => by cases h⟩

theorem Consistent.of_empty (hempty : ∀ j, j < sb.ninodes → (dinode sb s.disk j).size = 0 ∧
    (dinode sb s.disk j).addrs = fun _ => 0)
    (hbits : ∀ b, b < sb.size → inUse sb s.disk b = decide (b < sb.nmeta)) (hcache : CacheOk sb s.icache)
    (hagree : ∀ i, 0 < (s.icache i).ref → (s.icache i).valid = true →
      (s.icache i).toDinode = dinode sb s.disk (s.icache i).inum) : Consistent sb s := by
  have hptr (j) (hj : j < sb.ninodes) (sl : Slot) : ptr s.disk (dinode sb s.disk j) sl = 0 := by
    have haddrs := (hempty j hj).2
    cases sl <;> simp [ptr, Dinode.ind, haddrs]
  have htab (k : Nat × Slot) : table sb s.disk (dinode sb s.disk) k = 0 := by
    unfold table
    split
    next hk => rw [hptr _ hk.1]
    next => rfl
  have hmeta : 0 < sb.nmeta := Nat.zero_lt_of_lt sb.bitmap_fit
  refine ⟨⟨hmeta, fun k hk => absurd (htab k) hk, fun k _ hk => absurd (htab k) hk, fun b hb => hb.elim,
    fun b hb => ?_⟩, fun j hj _ => ?_, hagree, hcache⟩
  · simp only [hbits b hb, decide_eq_true_eq, htab, Set.mem_empty_iff_false, false_or]
    exact ⟨.inl, fun h => h.elim id (by rintro ⟨_, h⟩; exact h ▸ hmeta)⟩
  · rw [(hempty j hj).1]
    exact Filled.empty (hptr j hj)

theorem consistent_freshNode {type : Int16} (ht : type ≠ 0) : Consistent tiny (freshNode type) := by
  have hnode (j) (hj : j < tiny.ninodes) : dinode tiny (freshNode type).disk j =
    .fresh (if j = 1 then type else 0) := by
    rw [freshNode, dinode_putNode]
    split
    · rfl
    · have hj : j < 2 := hj
      obtain rfl : j = 0 := by omega
      exact getDinode_zero 0
  have hentry (i : Fin ninode) (hi : 0 < ((freshNode type).icache i).ref) : i = 0 := by
    by_contra hne
    simp [freshNode, hne, ICache.empty] at hi
  refine .of_empty (fun j hj => ?_) (fun b hb => ?_) ⟨fun i hi => ?_, fun i hi => ?_, fun i j hi hj _ => ?_,
    fun i hi _ => ?_⟩
    fun i hi _ => ?_
  · rw [hnode j hj]
    exact ⟨rfl, rfl⟩
  · rw [freshNode, putNode, inUse_of_inode tiny _ _ (by decide)]
    revert b
    decide +kernel
  · obtain rfl := hentry i hi
    rfl
  · obtain rfl := hentry i hi
    show 1 < tiny.ninodes
    decide
  · rw [hentry i hi, hentry j hj]
  · obtain rfl := hentry i hi
    exact ht
  · obtain rfl := hentry i hi
    exact (hnode 1 (by decide)).symm

theorem consistent_oneFile : Consistent tiny oneFile := consistent_freshNode (by decide)

section

attribute [local instance] noDevices

theorem block_ownership_oneFile :
    let cs := [Call.writei 0 (fun k => UInt8.ofNat k) 0 600, .readi 0 100 500, .iput 0]
    ∃ t, Runs.run (Call.step tiny) oneFile cs = some t ∧ Consistent tiny t := by
  intro cs
  obtain ⟨t, ht⟩ : ∃ t, Runs.run (Call.step tiny) oneFile cs = some t :=
    Option.isSome_iff_exists.mp (by decide +kernel)
  have halong : Runs.Along (Call.step tiny) Call.Ready oneFile cs :=
    Runs.along_of_alongB (fun s c => decide (c.Ready s)) (fun _ _ h => of_decide_eq_true h) (by decide +kernel)
  exact ⟨t, ht, (block_ownership consistent_oneFile halong ht).1⟩

end

end Xv6.Fs
