import Xv6.Fs.ByteString
import Xv6.Mkfs.WellFormed

namespace Xv6.Mkfs

open Lib Lib.Bytes Lib.Exec Lib.Runs Fs

inductive Op
  | ialloc (type : Int16)
  | iappend (inum : Nat) (p : List UInt8)

def Op.run : Op → MkM Unit
  | .ialloc type => do
      let _ ← Mkfs.ialloc type
      pure ()
  | .iappend inum p => Mkfs.iappend inum p

def runOps : List Op → MkM Unit
  | [] => pure ()
  | op :: ops => do
      op.run
      runOps ops

abbrev Files := List (Int16 × List UInt8)

def Files.append (l : Files) (inum : Nat) (p : List UInt8) : Files := l.modify (inum - 1) fun f => (f.1, f.2 ++ p)

/-- The files after an operation. Inodes are numbered below `NINODES`, and have the type of a file or a directory;
only those that `ialloc` has returned are appended to. -/
def Op.apply (l : Files) : Op → Option Files
  | .ialloc type => if type ≠ 0 ∧ type ≠ tDev ∧ l.length + 1 < ninodes then some (l ++ [(type, [])]) else none
  | .iappend inum p => if 0 < inum ∧ inum ≤ l.length then some (l.append inum p) else none

def Files.cost (l : Files) : Nat := (l.map fun f => growth 0 (blocks f.2.length)).sum

/-- No file is longer than a file can be, and the image has room for all of them. -/
structure Files.Fit (l : Files) : Prop where
  sizes : ∀ f ∈ l, f.2.length ≤ maxfile * bsize
  room : nmeta + l.cost ≤ fssize

theorem growth_add {m e : Nat} (h : m ≤ e) : growth 0 e = growth 0 m + growth m e := by
  have hn : ndirect = 12 := rfl
  unfold growth
  split <;> split <;> split <;> omega

theorem blocks_mono {a b : Nat} (h : a ≤ b) : blocks a ≤ blocks b := by
  rw [blocks_le_iff]
  exact h.trans (blocks_le_iff.mp le_rfl)

section Files

variable {l : Files} {inum : Nat} {p : List UInt8} {f : Int16 × List UInt8}

theorem getElem?_append (l : Files) (inum : Nat) (p : List UInt8) (k : Nat) : (l.append inum p)[k]? =
    if inum - 1 = k then l[k]?.map (fun f => (f.1, f.2 ++ p)) else l[k]? := by
  rw [Files.append, List.getElem?_modify]
  split
  · rfl
  · exact Option.map_id' ..

theorem length_append : (l.append inum p).length = l.length := List.length_modify ..

theorem cost_append (inum : Nat) (p : List UInt8) (hf : l[inum - 1]? = some f) :
    (l.append inum p).cost = l.cost + growth (blocks f.2.length) (blocks (f.2.length + p.length)) := by
  rw [Files.append]
  generalize inum - 1 = k at hf
  induction l generalizing k with
  | nil => cases hf
  | cons g l ih =>
      cases k with
      | zero =>
          cases hf
          have := growth_add (blocks_mono (Nat.le_add_right f.2.length p.length))
          simp only [Files.cost, List.modify_zero_cons, List.map_cons, List.sum_cons, List.length_append]
          omega
      | succ k =>
          have := ih k hf
          simp only [Files.cost, List.modify_succ_cons, List.map_cons, List.sum_cons] at this ⊢
          omega

theorem fit_of_apply {op : Op} {l' : Files} (h : op.apply l = some l') (hfit : l'.Fit) : l.Fit := by
  cases op with
  | ialloc type =>
      rw [Op.apply] at h
      split at h
      · cases h
        refine ⟨fun f hf => hfit.sizes f (List.mem_append_left _ hf), ?_⟩
        have := hfit.room
        simp only [Files.cost, List.map_append, List.sum_append] at this ⊢
        omega
      · cases h
  | iappend inum p =>
      rw [Op.apply] at h
      split at h
      next hin =>
        cases h
        have hlt : inum - 1 < l.length := by omega
        refine ⟨?_, ?_⟩
        · intro f hf
          obtain ⟨k, hk⟩ := List.mem_iff_getElem?.mp hf
          have hget := getElem?_append l inum p k
          rw [hk] at hget
          split at hget
          · have := hfit.sizes _ (List.mem_of_getElem? hget)
            rw [List.length_append] at this
            omega
          · exact hfit.sizes _ (List.mem_of_getElem? hget)
        · have := cost_append inum p (List.getElem?_eq_getElem hlt)
          have := hfit.room
          omega
      next => cases h

theorem fit_of_run {ops : List Op} {l' : Files} (h : run Op.apply l ops = some l') (hfit : l'.Fit) : l.Fit := by
  induction ops generalizing l with
  | nil =>
      cases h
      exact hfit
  | cons op ops ih =>
      obtain ⟨l₁, h₁, hrest⟩ := run_cons.mp h
      exact fit_of_apply h₁ (ih hrest)

end Files

theorem overwrite_end (old data : List UInt8) : overwrite old old.length data = old ++ data := by
  rw [overwrite, List.take_length, List.drop_eq_nil_of_le (Nat.le_add_right ..), List.append_nil]

theorem map_getD_range (p : List UInt8) : (List.range p.length).map (fun j => p.getD j 0) = p := by
  apply List.ext_getElem
  · simp
  · intro j _ hj
    simp [hj]

structure Holds (l : Files) (st : State) : Prop extends Sound st where
  next : st.freeinode = l.length + 1
  file : ∀ k f, l[k]? = some f → (node st (k + 1)).type = f.1 ∧ (node st (k + 1)).nlink = 1 ∧
    contents (ghost st) (node st (k + 1)) = f.2
  types : ∀ f ∈ l, f.1 ≠ 0 ∧ f.1 ≠ tDev
  count : l.length < ninodes
  free : ∀ j, l.length < j → j < ninodes → (node st j).type = 0
  blocks : st.freeblock = nmeta + l.cost

section Steps

variable {l l' : Files} {st : State} {inum : Nat} {p : List UInt8} {type : Int16}

theorem Holds.lt (h : Holds l st) {k : Nat} {f : Int16 × List UInt8} (hk : l[k]? = some f) : k + 1 < ninodes := by
  have := (List.getElem?_eq_some_iff.mp hk).1
  have := h.count
  omega

theorem Holds.live (h : Holds l st) {k : Nat} {f : Int16 × List UInt8} (hk : l[k]? = some f) :
    (node st (k + 1)).type ≠ 0 := by
  rw [(h.file k f hk).1]
  exact (h.types f (List.mem_of_getElem? hk)).1

theorem Holds.filled (h : Holds l st) {k : Nat} {f : Int16 × List UInt8} (hk : l[k]? = some f) :
    Filled (ghost st) (node st (k + 1)) (Fs.blocks (node st (k + 1)).size.toNat) :=
  h.consistent.filled _ (h.lt hk) (h.live hk)

theorem Sound.alloc (h : Sound st) (hlt : st.freeinode < ninodes) (hfree : (node st st.freeinode).type = 0)
    (type : Int16) :
    Sound (st.alloc type) := by
  have hr : Room { st with freeinode := st.freeinode + 1 } := ⟨h.nsect, h.lo, h.hi, h.zero⟩
  refine ⟨hr.putNode hlt _, ?_⟩
  have hclaim := h.consistent.claim hlt hfree (x := newInode type) rfl rfl
  rwa [show ghost (st.alloc type) = putNode sb (ghost st) st.freeinode (newInode type) from ghost_putNode hlt]

theorem Holds.ialloc (h : Holds l st) (h0 : type ≠ 0) (hdev : type ≠ tDev) (hlt : l.length + 1 < ninodes) :
    wp (ialloc type) (fun _ st' => Holds (l ++ [(type, [])]) st') (fun _ => False) st := by
  have hnew : st.freeinode < ninodes := h.next ▸ hlt
  rw [wp_ialloc h.toRoom hnew]
  have hghost : ghost (st.alloc type) = putNode sb (ghost st) st.freeinode (newInode type) := ghost_putNode hnew
  have hfree : (node st st.freeinode).type = 0 := h.free _ (by have := h.next; omega) hnew
  have hold {j : Nat} (hj : j ≠ st.freeinode) : node (st.alloc type) j = node st j := by
    rw [node_alloc hnew, if_neg hj]
  refine ⟨h.toSound.alloc hnew hfree type, ?_, ?_, ?_, ?_, ?_, ?_⟩
  · show st.freeinode + 1 = _
    rw [h.next, List.length_append]
    rfl
  · intro k f hk
    rw [List.getElem?_append] at hk
    split at hk
    next hlt =>
      rw [hold (by rw [h.next]; omega)]
      obtain ⟨ht, hn, hc⟩ := h.file k f hk
      refine ⟨ht, hn, ?_⟩
      rw [hghost, ← hc]
      exact (Owned.sameFile_putNode h.consistent.owns hnew (h.lt hk) (h.live hk)).contents_eq (h.filled hk)
    next hge =>
      have hkl : k = l.length := by
        have := (List.getElem?_eq_some_iff.mp hk).1
        rw [List.length_singleton] at this
        omega
      subst hkl
      rw [Nat.sub_self, List.getElem?_cons_zero] at hk
      cases hk
      rw [← h.next, node_alloc hnew, if_pos rfl]
      exact ⟨rfl, rfl, rfl⟩
  · intro f hf
    rcases List.mem_append.mp hf with hf | hf
    · exact h.types f hf
    · rw [List.mem_singleton] at hf
      subst hf
      exact ⟨h0, hdev⟩
  · rw [List.length_append]
    exact hlt
  · intro j hj hjn
    rw [List.length_append, List.length_singleton] at hj
    rw [hold (by rw [h.next]; omega)]
    exact h.free j (by omega) hjn
  · show st.freeblock = _
    have hnone : growth 0 (Fs.blocks 0) = 0 := by decide
    rw [h.blocks]
    simp [Files.cost, hnone]

theorem Holds.iappend (h : Holds l st) (hpos : 0 < inum) (hle : inum ≤ l.length) (hfit : (l.append inum p).Fit) :
    wp (iappend inum p) (fun _ st' => Holds (l.append inum p) st') (fun _ => False) st := by
  obtain ⟨k, rfl⟩ : ∃ k, inum = k + 1 := ⟨inum - 1, by omega⟩
  obtain ⟨f, hk⟩ : ∃ f, l[k]? = some f := ⟨_, List.getElem?_eq_getElem hle⟩
  obtain ⟨htype, hnlink, hcontents⟩ := h.file k f hk
  have hlen : (node st (k + 1)).size.toNat = f.2.length := by rw [← hcontents, Fs.length_contents]
  have hi := h.lt hk
  have hcost := cost_append (k + 1) p hk
  refine ((iappend_total h.toSound hi (h.live hk)).keeps (keeps_iappend (k + 1) p)).mono ?_ ?_
  · rintro _ st' ⟨⟨⟨hs, hw⟩, hcount⟩, hfi⟩
    have hnodes (j : Nat) (hj : j < ninodes) (hne : j ≠ k + 1) : node st' j = node st j :=
      (hw.touched.nodes j hj).trans (if_neg hne)
    have hlen' : (l.append (k + 1) p).length = l.length := length_append
    refine ⟨hs, ?_, ?_, ?_, ?_, ?_, ?_⟩
    · rw [hlen', ← h.next]
      exact hfi
    · intro j g hj
      rw [getElem?_append] at hj
      split at hj
      next hkj =>
        obtain rfl : k = j := hkj
        rw [hk] at hj
        cases hj
        have hrest := hw.rest
        refine ⟨hw.type.trans htype, ?_, ?_⟩
        · rw [hrest]
          exact hnlink
        · have hnew : contents (ghost st') (node st' (k + 1)) = overwrite (contents (ghost st) (node st (k + 1)))
              (node st (k + 1)).size.toNat ((List.range p.length).map fun j => p.getD j 0) := hw.contents_eq le_rfl
          rw [hnew, hcontents, hlen, overwrite_end, map_getD_range]
      next hkj =>
        have hne : j + 1 ≠ k + 1 := fun he => hkj (Nat.succ.inj he).symm
        rw [hnodes (j + 1) (h.lt hj) hne]
        obtain ⟨ht, hn, hc⟩ := h.file j g hj
        refine ⟨ht, hn, ?_⟩
        rw [← hc]
        exact (hw.touched.others (j + 1) (h.lt hj) hne (h.live hj)).contents_eq (h.filled hj)
    · intro g hg
      obtain ⟨j, hj⟩ := List.mem_iff_getElem?.mp hg
      rw [getElem?_append] at hj
      split at hj
      next hkj =>
        obtain rfl : k = j := hkj
        rw [hk] at hj
        cases hj
        exact h.types f (List.mem_of_getElem? hk)
      next => exact h.types g (List.mem_of_getElem? hj)
    · rw [hlen']
      exact h.count
    · intro j hj hjn
      rw [hlen'] at hj
      rw [hnodes j hjn (by omega)]
      exact h.free j hj hjn
    · rw [hcount, hlen, h.blocks, hcost, Nat.add_assoc]
  · intro e htoo
    have hmem : (f.1, f.2 ++ p) ∈ l.append (k + 1) p := by
      apply List.mem_of_getElem? (i := k)
      rw [getElem?_append, if_pos (Nat.add_sub_cancel k 1), hk]
      rfl
    have hsize := hfit.sizes _ hmem
    have hroom := hfit.room
    rw [List.length_append] at hsize
    rw [TooMuch, Full, hlen, h.blocks] at htoo
    omega

theorem Holds.runOps (h : Holds l st) {ops : List Op} (hrun : run Op.apply l ops = some l') (hfit : l'.Fit) :
    wp (runOps ops) (fun _ st' => Holds l' st') (fun _ => False) st := by
  induction ops generalizing l st with
  | nil =>
      cases hrun
      exact h
  | cons op ops ih =>
      obtain ⟨l₁, h₁, hrest⟩ := run_cons.mp hrun
      have hfit₁ := fit_of_run hrest hfit
      rw [Mkfs.runOps, wp_bind]
      cases op with
      | ialloc type =>
          rw [Op.apply] at h₁
          split at h₁
          next hok =>
            cases h₁
            rw [Op.run, wp_bind]
            apply (h.ialloc hok.1 hok.2.1 hok.2.2).imp
            intro _ st₁ hst₁
            exact ih hst₁ hrest
          next => cases h₁
      | iappend inum p =>
          rw [Op.apply] at h₁
          split at h₁
          next hok =>
            cases h₁
            rw [Op.run]
            apply (h.iappend hok.1 hok.2 hfit₁).imp
            intro _ st₁ hst₁
            exact ih hst₁ hrest
          next => cases h₁

end Steps

theorem holds_blank : Holds [] blank := by
  refine ⟨built_blank.toSound, rfl, ?_, ?_, by decide, ?_, rfl⟩
  · rintro k f ⟨⟩
  · rintro f ⟨⟩
  · intro j _ hj
    rw [node_blank hj]
    rfl

section Kernel

variable [Devsw] {l : Files} {st : State}

theorem Holds.kernel_reads (h : Holds l st) {d : Disk} (hd : ∀ c, c ≠ sb.bmapstart → d c = st.image c) {k : Nat}
    {f : Int16 × List UInt8} (hk : l[k]? = some f) (i : Fin ninode) (icache : ICache) (href : 0 < (icache i).ref)
    (hvalid : (icache i).valid = false) (hinum : (icache i).inum = k + 1) :
    ∃ t, ilock sb i ⟨d, icache⟩ = .ok ((), t) ∧ (t.icache i).type = f.1 ∧ (t.icache i).nlink = 1 ∧
      readi sb i 0 (t.icache i).size t = .ok (((f.2.length : Int), f.2), t) := by
  obtain ⟨htype, hnlink, hcontents⟩ := h.file k f hk
  have hlt := h.lt hk
  have hlive := h.live hk
  have hsame : SameFile (ghost st) d (node st (k + 1)) := by
    intro sl h0
    have hlo : sb.nmeta ≤ ptr (ghost st) (node st (k + 1)) sl := (Owned.ptr_used h.consistent.owns hlt hlive h0).1
    have hbm : sb.bmapstart < sb.nmeta := by decide
    rw [hd _ (by omega), ghost_data hlo]
  have hnode : getDinode (d (sb.iblock (k + 1))) (k + 1) = node st (k + 1) := by
    have hib := iblock_lt hlt
    rw [node, dinode, ghost_node hib, hd _ (by omega)]
  have hlock : wp (ilock sb i) (fun _ t => t = ⟨d, Function.update icache i
      { icache i with toDinode := node st (k + 1), valid := true }⟩) (fun _ => False) ⟨d, icache⟩ := by
    simp only [ilock, inode, bread, setInode, wp_bind, wp_gets, wp_update, wp_ite, hinum, hvalid, hnode]
    refine ⟨fun hlt => absurd hlt (by omega), fun _ =>
      ⟨by simp, fun _ => ⟨fun h0 => absurd h0 hlive, fun _ => rfl⟩⟩⟩
  obtain ⟨_, t, ht, rfl⟩ := hlock.exists_ok
  refine ⟨_, ht, ?_, ?_, ?_⟩
  · simp only [Function.update_self]
    exact htype
  · simp only [Function.update_self]
    exact hnlink
  · have hfilled : Filled d (node st (k + 1)) (Fs.blocks (node st (k + 1)).size.toNat) := hsame.filled (h.filled hk)
    have hbytes : contents d (node st (k + 1)) = f.2 := (hsame.contents_eq (h.filled hk)).trans hcontents
    have hlen : (node st (k + 1)).size.toNat = f.2.length := by rw [← hbytes, Fs.length_contents]
    set t : Fs.State :=
      ⟨d, Function.update icache i { icache i with toDinode := node st (k + 1), valid := true }⟩ with hdef
    have hti : (t.icache i).toDinode = node st (k + 1) := by simp [hdef]
    have hdev : (t.icache i).type ≠ tDev := by
      rw [hti, htype]
      exact (h.types f (List.mem_of_getElem? hk)).2
    have hgood : ¬ ReadBad (t.icache i).size.toNat 0 (t.icache i).size := by
      have := (t.icache i).size.toNat_lt
      rw [ReadBad, UInt32.toNat_zero]
      omega
    have hread := readi_ok sb (s := t) (by rw [hti]; exact hfilled) hdev hgood
    simp only [UInt32.toNat_zero, List.drop_zero, hti] at hread
    rw [hbytes, hlen, List.take_length] at hread
    rw [hti]
    exact hread

end Kernel

/-- For every sequence of operations whose files fit into the image, mkfs succeeds, and the kernel reads from
each inode of the image what has been appended to it, with the type and the link count that mkfs gave it. -/
theorem mkfs_kernel_agree [Devsw] (ops : List Op) (l : Files) (hops : run Op.apply [] ops = some l) (hfit : l.Fit) :
    ∃ st, runOps ops blank = .ok ((), st) ∧ st.freeblock = nmeta + l.cost ∧
      ∀ d : Disk, (∀ c, c ≠ sb.bmapstart → d c = st.image c) → ∀ k type bytes, l[k]? = some (type, bytes) →
        ∀ (i : Fin ninode) (icache : ICache), 0 < (icache i).ref → (icache i).valid = false →
          (icache i).inum = k + 1 →
          ∃ t, ilock sb i ⟨d, icache⟩ = .ok ((), t) ∧ (t.icache i).type = type ∧ (t.icache i).nlink = 1 ∧
            readi sb i 0 (t.icache i).size t = .ok (((bytes.length : Int), bytes), t) := by
  obtain ⟨_, st, hst, h⟩ := (holds_blank.runOps hops hfit).exists_ok
  refine ⟨st, hst, h.blocks, ?_⟩
  intro d hd k type bytes hk i icache href hvalid hinum
  exact h.kernel_reads hd hk i icache href hvalid hinum

section

attribute [local instance] noDevices

theorem mkfs_kernel_agree_interleaved : ∃ st,
    runOps [.ialloc tDir, .ialloc tFile, .iappend 2 [1, 2], .iappend 1 [5], .iappend 2 [3]] blank = .ok ((), st) ∧
      ∃ t, ilock sb 0 ⟨st.image, fun _ => ⟨.fresh 0, rootdev, 2, 1, false⟩⟩ = .ok ((), t) ∧
        readi sb 0 0 (t.icache 0).size t = .ok ((3, [1, 2, 3]), t) := by
  obtain ⟨st, hst, -, hread⟩ := mkfs_kernel_agree
    [.ialloc tDir, .ialloc tFile, .iappend 2 [1, 2], .iappend 1 [5], .iappend 2 [3]]
    [(tDir, [5]), (tFile, [1, 2, 3])] rfl ⟨by decide, by decide⟩
  refine ⟨st, hst, ?_⟩
  obtain ⟨t, hlock, -, -, hbytes⟩ :=
    hread st.image (fun _ _ => rfl) 1 tFile [1, 2, 3] rfl 0 (fun _ => ⟨.fresh 0, rootdev, 2, 1, false⟩)
      (by decide) rfl rfl
  exact ⟨t, hlock, hbytes⟩

end

end Xv6.Mkfs
