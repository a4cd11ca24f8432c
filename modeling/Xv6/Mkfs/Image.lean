import Xv6.Mkfs.Append

namespace Xv6.Mkfs

open Lib Lib.Bytes Lib.Exec Lib.Cstr Fs

variable {st st' : State} {inum : Nat} {x y : Dinode} {p : List UInt8}

abbrev node (st : State) (inum : Nat) : Dinode := dinode sb (ghost st) inum

structure Sound (st : State) : Prop extends Room st where
  consistent : Consistent sb ⟨ghost st, ICache.empty⟩

theorem iblock_lt (hi : inum < ninodes) : sb.iblock inum < sb.bmapstart := iblock_lt_bmapstart sb hi

def State.putNode (st : State) (inum : Nat) (x : Dinode) : State :=
  st.write (sb.iblock inum) (putDinode (st.image (sb.iblock inum)) inum x)

theorem ghost_putNode (hi : inum < ninodes) : ghost (st.putNode inum x) = putNode sb (ghost st) inum x := by
  rw [putNode, ghost_node (iblock_lt hi)]
  exact Function.update_comm (iblock_lt hi).ne ..

theorem Room.iblock_lt_nsect (h : Room st) (hi : inum < ninodes) : sb.iblock inum < st.nsect := by
  have := iblock_lt hi
  have : sb.bmapstart < fssize := by decide
  have := h.nsect
  omega

theorem Room.putNode (h : Room st) (hi : inum < ninodes) (x : Dinode) :
    Room (st.putNode inum x) := by
  have := iblock_lt hi
  have : sb.bmapstart < nmeta := by decide
  have := h.lo
  exact h.write (by omega) _

theorem wp_rinode {Q : Dinode → State → Prop} {X : Exit → Prop} (h : Room st) (hi : inum < ninodes) :
    wp (rinode inum) Q X st ↔ Q (node st inum) st := by
  have hlt := h.iblock_lt_nsect hi
  simp only [rinode, rsect, wp_bind, wp_gets]
  rw [if_pos hlt]
  simp only [wp_gets, wp_pure, node, dinode, ghost_node (iblock_lt hi)]

theorem wp_winode {Q : Unit → State → Prop} {X : Exit → Prop} (h : Room st) (hi : inum < ninodes) :
    wp (winode inum x) Q X st ↔ Q () (st.putNode inum x) := by
  have hlt := h.iblock_lt_nsect hi
  simp only [winode, rsect, wp_bind, wp_gets]
  rw [if_pos hlt]
  simp only [wp_gets, wsect, wp_update, State.putNode]

theorem node_putNode (hi : inum < ninodes) (k : Nat) :
    node (st.putNode inum x) k = if k = inum then x else node st k := by
  rw [node, ghost_putNode hi, dinode_putNode]

theorem Sound.kernel (h : Sound st) (hi : inum < ninodes) (ht : (node st inum).type ≠ 0) :
    Consistent sb (kernel st inum (node st inum)) := by
  have hentry (i : Fin ninode) (hr : 0 < ((Mkfs.kernel st inum (node st inum)).icache i).ref) : i = 0 := by
    by_contra hne
    simp [Mkfs.kernel, hne, ICache.empty] at hr
  refine ⟨h.consistent.owns, h.consistent.filled, fun i hr _ => ?_, fun i hr => ?_, fun i hr => ?_,
    fun i j hr hr' _ => ?_, fun i hr _ => ?_⟩
  · obtain rfl := hentry i hr
    rfl
  · obtain rfl := hentry i hr
    rfl
  · obtain rfl := hentry i hr
    exact hi
  · rw [hentry i hr, hentry j hr']
  · obtain rfl := hentry i hr
    exact ht

theorem sound_of_kernel (hr : Room st) (h : Consistent sb (kernel st inum x)) : Sound st :=
  ⟨hr, h.of_cache fun _ hk => absurd hk (lt_irrefl 0)⟩

/-- `iappend` adds to the end of a file what `writei` would, and fails only if the file or the file system gets too
large. -/
theorem iappend_total (h : Sound st) (hi : inum < ninodes) (ht : (node st inum).type ≠ 0) :
    wp (iappend inum p) (fun _ st' => (Sound st' ∧ Written sb 0 (fun k => p.getD k 0)
      (node st inum).size.toNat p.length
        (kernel st inum (node st inum)) (kernel st' inum (node st' inum)) (node st' inum)) ∧
        st'.freeblock = st.freeblock + growth (blocks (node st inum).size.toNat)
          (blocks ((node st inum).size.toNat + p.length)))
      (fun _ => TooMuch st (blocks (node st inum).size.toNat) ((node st inum).size.toNat + p.length)) st := by
  have hcons := h.kernel hi ht
  have hr : 0 < ((Mkfs.kernel st inum (node st inum)).icache 0).ref := Nat.one_pos
  have hcached := hcons.cached hr rfl
  have hfill : Filled (ghost st) (node st inum) (blocks (node st inum).size.toNat) := hcons.filled_cached hr rfl
  rw [iappend, wp_bind, wp_rinode h.toRoom hi, wp_bind]
  refine (appendChunks_total (fun k => p.getD (k - (node st inum).size.toNat) 0) h.toRoom hcached hfill
    (blocks_le_iff.mp le_rfl) le_rfl ?_).imp ?_
  · intro k hk
    rw [Nat.add_sub_cancel_left]
    simp [hk]
  · rintro ⟨x, off⟩ st₁ ⟨⟨hr₁, hoff, hw⟩, hcount⟩
    rw [wp_winode hr₁ hi]
    have hoff : off = (node st inum).size.toNat + p.length := hoff
    subst hoff
    set y : Dinode := { x with size := UInt32.ofNat ((node st inum).size.toNat + p.length) } with hy
    have hnode : node (st₁.putNode inum y) inum = y := (node_putNode hi inum).trans (if_pos rfl)
    have hnat : y.size.toNat = (node st inum).size.toNat + p.length := by
      refine UInt32.toNat_ofNat_of_lt' ?_
      have hcap : blocks ((node st inum).size.toNat + p.length) ≤ maxfile :=
        (le_max_right ..).trans hw.filled.le_maxfile
      have := blocks_le_iff.mp hcap
      have := maxfile_bsize
      show _ < 2 ^ 32
      omega
    have hwritten : Written sb 0 (fun k => p.getD k 0) (node st inum).size.toNat p.length
        (Mkfs.kernel st inum (node st inum)) (Mkfs.kernel (st₁.putNode inum y) inum y) y := by
      refine hw.written hcons hr rfl hy ?_ ?_ (fun k hk => ?_) (fun c hc => ?_) (fun c => ?_)
      · exact hnat.trans (max_eq_right (Nat.le_add_right ..)).symm
      · simp [Mkfs.kernel]
      · exact (node_putNode hi k).trans (by rw [← hw.nodes k hk]; rfl)
      · exact (congrFun (ghost_putNode hi) c).trans (putNode_data hi hc)
      · show inUse sb (ghost (st₁.putNode inum y)) c = inUse sb (ghost st₁) c
        rw [ghost_putNode hi]
        exact inUse_of_inode sb _ _ hi c
    rw [hnode]
    exact ⟨⟨sound_of_kernel (hr₁.putNode hi y) hwritten.consistent, hwritten⟩, hcount⟩

theorem iappend_spec (h : Sound st) (hi : inum < ninodes) (ht : (node st inum).type ≠ 0) :
    wp (iappend inum p) (fun _ st' => Sound st' ∧ Written sb 0 (fun k => p.getD k 0)
      (node st inum).size.toNat p.length
        (kernel st inum (node st inum)) (kernel st' inum (node st' inum)) (node st' inum)) (fun _ => True) st :=
  (iappend_total h hi ht).mono (fun _ _ h => h.1) fun _ _ => trivial

theorem type_of_written {src : Nat → UInt8} {off n j : Nat}
    (hw : Written sb 0 src off n (kernel st inum (node st inum))
    (kernel st' inum (node st' inum)) (node st' inum)) (hj : j < ninodes) : (node st' j).type =
      (node st j).type := by
  by_cases hji : j = inum
  · rw [hji]
    exact hw.type
  · exact congrArg Dinode.type ((hw.touched.nodes j hj).trans (if_neg hji))

theorem keeps_wsect (c : Nat) (v : Block) : Keeps State.freeinode (wsect c v) := Keeps.update fun _ => rfl

theorem keeps_rsect (c : Nat) : Keeps State.freeinode (rsect c) :=
  (Keeps.gets _).bind fun _ => Keeps.ite (fun _ => Keeps.gets _) fun _ => Keeps.fail _

theorem keeps_winode (inum : Nat) (x : Dinode) : Keeps State.freeinode (winode inum x) :=
  (keeps_rsect _).bind fun _ => keeps_wsect _ _

theorem keeps_rinode (inum : Nat) : Keeps State.freeinode (rinode inum) :=
  (keeps_rsect _).bind fun _ => Keeps.pure _

theorem keeps_newBlock : Keeps State.freeinode newBlock :=
  (Keeps.gets _).bind fun _ => Keeps.bind (Keeps.update fun _ => by rfl) fun _ => Keeps.pure _

theorem keeps_indirectBlock (x : Dinode) : Keeps State.freeinode (indirectBlock x) :=
  Keeps.ite (fun _ => keeps_newBlock.bind fun _ => Keeps.pure _) fun _ => Keeps.pure _

theorem keeps_fileBlockOf (x : Dinode) (bn : Nat) : Keeps State.freeinode (fileBlockOf x bn) := by
  unfold fileBlockOf
  split
  · exact Keeps.ite (fun _ => keeps_newBlock.bind fun _ => Keeps.pure _) fun _ => Keeps.pure _
  · exact (keeps_indirectBlock x).bind fun _ => (keeps_rsect _).bind fun _ =>
      Keeps.ite (fun _ => keeps_newBlock.bind fun _ => (keeps_wsect _ _).bind fun _ => Keeps.pure _)
        fun _ => Keeps.pure _

theorem keeps_appendChunks (fuel : Nat) (x : Dinode) (off : Nat) (p : List UInt8) :
    Keeps State.freeinode (appendChunks fuel x off p) := by
  induction fuel generalizing x off p with
  | zero => exact Keeps.pure _
  | succ fuel ih =>
      exact Keeps.ite (fun _ => Keeps.pure _) fun _ =>
        (Keeps.ite (fun _ => Keeps.pure _) fun _ => Keeps.fail _).bind fun _ =>
          (keeps_fileBlockOf _ _).bind fun _ => (keeps_rsect _).bind fun _ => (keeps_wsect _ _).bind
            fun _ => ih _ _ _

theorem keeps_iappend (inum : Nat) (p : List UInt8) : Keeps State.freeinode (iappend inum p) :=
  (keeps_rinode _).bind fun _ => (keeps_appendChunks _ _ _ _).bind fun _ => keeps_winode _ _

/-- The image that mkfs has built so far: the inodes below `n` are in use, and the root directory
has the entries `es`. -/
structure Built (n : Nat) (es : List Dirent) (st : State) : Prop extends Sound st where
  next : st.freeinode = n
  le : n ≤ ninodes
  alloc : ∀ j, j < ninodes → ((node st j).type ≠ 0 ↔ 0 < j ∧ j < n)
  size : (node st rootino).size.toNat = 16 * es.length
  entry : ∀ k (hk : k < es.length), dirent (ghost st) (node st rootino) k = es[k]
  tail : ∀ p, 16 * es.length ≤ p → p < blocks (16 * es.length) * bsize → fileByte (ghost st) (node st rootino) p = 0

variable {n : Nat} {es : List Dirent}

theorem rootino_lt : rootino < ninodes := by decide

theorem Built.root_filled (h : Built n es st) (hn : rootino < n) :
    Filled (ghost st) (node st rootino) (blocks (16 * es.length)) := by
  have := h.consistent.filled rootino rootino_lt ((h.alloc _ rootino_lt).mpr ⟨by decide, hn⟩)
  rwa [h.size] at this

theorem Built.other (h : Built n es st) {n' : Nat} (hn : rootino < n) (hs : Sound st') (hnext : st'.freeinode = n')
    (hle : n' ≤ ninodes) (halloc : ∀ j, j < ninodes → ((node st' j).type ≠ 0 ↔ 0 < j ∧ j < n'))
    (hroot : node st' rootino = node st rootino) (hsame : SameFile (ghost st) (ghost st') (node st rootino)) :
    Built n' es st' := by
  have hbyte (p) (hp : p < blocks (16 * es.length) * bsize) :
      fileByte (ghost st') (node st' rootino) p = fileByte (ghost st) (node st rootino) p := by
    rw [hroot, hsame.fileByte_eq ((h.root_filled hn).fileBlock_ne hp)]
  have hcap : 16 * es.length ≤ blocks (16 * es.length) * bsize := blocks_le_iff.mp le_rfl
  refine ⟨hs, hnext, hle, halloc, hroot ▸ h.size, fun k hk => ?_, fun p hp hp' => ?_⟩
  · rw [← h.entry k hk]
    exact dirent_congr fun j hj => hbyte _ (by omega)
  · rw [hbyte p hp', h.tail p hp hp']

def newInode (type : Int16) : Dinode := { Dinode.fresh type with nlink := 1 }

def State.alloc (st : State) (type : Int16) : State :=
  { st with freeinode := st.freeinode + 1 }.putNode st.freeinode (newInode type)

theorem wp_ialloc {Q : Nat → State → Prop} {X : Exit → Prop} {type : Int16} (h : Room st)
    (hlt : st.freeinode < ninodes) : wp (ialloc type) Q X st ↔ Q st.freeinode (st.alloc type) := by
  have hr : Room { st with freeinode := st.freeinode + 1 } := ⟨h.nsect, h.lo, h.hi, h.zero⟩
  simp only [ialloc, wp_bind, wp_gets, wp_update]
  rw [wp_winode hr hlt, wp_pure]
  rfl

theorem node_alloc {type : Int16} (hlt : st.freeinode < ninodes) (k : Nat) :
    node (st.alloc type) k = if k = st.freeinode then newInode type else node st k := node_putNode hlt k

theorem Built.free (h : Built n es st) (hlt : n < ninodes) : (node st n).type = 0 :=
  not_not.mp ((h.alloc n hlt).not.mpr (by omega))

theorem Built.sound_alloc (h : Built n es st) (hlt : n < ninodes) (type : Int16) : Sound (st.alloc type) := by
  have hr : Room { st with freeinode := st.freeinode + 1 } := ⟨h.nsect, h.lo, h.hi, h.zero⟩
  obtain rfl := h.next
  refine ⟨hr.putNode hlt _, ?_⟩
  have := h.consistent.claim hlt (h.free hlt) (x := newInode type) rfl rfl
  rwa [show ghost (st.alloc type) = putNode sb (ghost st) st.freeinode (newInode type) from ghost_putNode hlt]

theorem Built.alloc_next (h : Built n es st) (hpos : 0 < n) (hlt : n < ninodes) {type : Int16} (ht : type ≠ 0)
    {j : Nat}
    (hj : j < ninodes) : (node (st.alloc type) j).type ≠ 0 ↔ 0 < j ∧ j < n + 1 := by
  obtain rfl := h.next
  rw [node_alloc hlt]
  split
  next hjn => exact iff_of_true ht (by omega)
  next hjn =>
    rw [h.alloc j hj]
    omega

theorem Built.ialloc_root (h : Built rootino [] st) :
    wp (ialloc tDir) (fun inum st' => inum = rootino ∧ Built (rootino + 1) [] st') (fun _ => True) st := by
  have hlt := rootino_lt
  rw [wp_ialloc h.toRoom (h.next ▸ hlt), h.next]
  refine ⟨rfl, h.sound_alloc hlt _, congrArg (· + 1) h.next, by decide,
    fun j hj => h.alloc_next (by decide) hlt (by decide) hj, ?_, fun k hk => ?_, fun p _ hp => ?_⟩
  · rw [node_alloc (h.next ▸ hlt), if_pos h.next.symm]
    rfl
  · exact absurd hk (Nat.not_lt_zero k)
  · exact absurd hp (Nat.not_lt_zero p)

theorem Built.ialloc_file (h : Built n es st) (hn : rootino < n) (hlt : n < ninodes) :
    wp (ialloc tFile) (fun inum st' => inum = n ∧ Built (n + 1) es st') (fun _ => True) st := by
  rw [wp_ialloc h.toRoom (h.next ▸ hlt), h.next]
  refine ⟨rfl, h.other hn (h.sound_alloc hlt _) (congrArg (· + 1) h.next) hlt
    (fun j hj => h.alloc_next (by omega) hlt (by decide) hj) ?_ ?_⟩
  · rw [node_alloc (h.next ▸ hlt), if_neg (by rw [h.next]; omega)]
  · have hroot := (h.alloc _ rootino_lt).mpr ⟨by decide, hn⟩
    rw [show ghost (st.alloc tFile) = _ from ghost_putNode (h.next ▸ hlt)]
    exact Owned.sameFile_putNode h.consistent.owns (h.next ▸ hlt) rootino_lt hroot

theorem Built.iappend_other (h : Built n es st) (hn : rootino < n) (hi : inum < n) (hne : rootino < inum) :
    wp (iappend inum p) (fun _ st' => Built n es st') (fun _ => True) st := by
  have hlt : inum < ninodes := hi.trans_le h.le
  have ht := (h.alloc inum hlt).mpr ⟨by omega, hi⟩
  refine ((iappend_spec h.toSound hlt ht).keeps (keeps_iappend inum p)).imp fun _ st' ⟨⟨hs, hw⟩, hfi⟩ => ?_
  refine h.other hn hs (hfi.trans h.next) h.le (fun j hj => ?_)
    ((hw.touched.nodes rootino rootino_lt).trans (if_neg hne.ne)) ?_
  · rw [← h.alloc j hj, type_of_written hw hj]
  · exact hw.touched.others rootino rootino_lt hne.ne ((h.alloc _ rootino_lt).mpr ⟨by decide, hn⟩)

theorem Built.iappend_root (h : Built n es st) (hn : rootino < n) (i : UInt16) (name : List UInt8) :
    wp (iappend rootino (Dirent.of i name).bytes) (fun _ st' => Built n (es ++ [.of i name]) st')
      (fun _ => True) st := by
  set de := Dirent.of i name
  have hde : de.name.length = dirsiz := length_strncpy ..
  have ht := (h.alloc rootino rootino_lt).mpr ⟨by decide, hn⟩
  refine ((iappend_spec h.toSound rootino_lt ht).keeps (keeps_iappend rootino de.bytes)).imp
    fun _ st' ⟨⟨hs, hw⟩, hfi⟩ => ?_
  rw [Dirent.length_bytes de hde, h.size] at hw
  have hlen : (es ++ [de]).length = es.length + 1 := List.length_append
  have hcap : 16 * es.length ≤ blocks (16 * es.length) * bsize := blocks_le_iff.mp le_rfl
  have hold : blocks ((Mkfs.kernel st rootino (node st rootino)).icache 0).size.toNat = blocks (16 * es.length) :=
    congrArg blocks h.size
  have hbyte (p) (hp : p < blocks (16 * es.length) * bsize ∨ p < 16 * es.length + 16) :
      fileByte (ghost st') (node st' rootino) p = if 16 * es.length ≤ p ∧ p < 16 * es.length + 16 then
        de.bytes.getD (p - 16 * es.length) 0 else fileByte (ghost st) (node st rootino) p :=
    hw.bytes p (by rwa [hold])
  refine ⟨hs, hfi.trans h.next, h.le, fun j hj => ?_, ?_, fun k hk => ?_, fun p hp hp' => ?_⟩
  · rw [← h.alloc j hj, type_of_written hw hj]
  · have : (node st' rootino).size.toNat = max (node st rootino).size.toNat _ := hw.size
    rw [this, h.size, hlen]
    omega
  · rw [hlen] at hk
    by_cases hkl : k < es.length
    · rw [List.getElem_append_left hkl, ← h.entry k hkl]
      refine dirent_congr fun j hj => ?_
      rw [hbyte _ (.inl (by omega)), if_neg (by omega)]
    · obtain rfl : k = es.length := by omega
      rw [List.getElem_append_right le_rfl]
      simp only [Nat.sub_self, List.getElem_cons_zero]
      refine dirent_of_bytes de hde fun j hj => ?_
      rw [hbyte _ (.inr (by omega)), if_pos (by omega), Nat.add_sub_cancel_left]
  · rw [hlen] at hp hp'
    by_cases hpb : p < blocks (16 * es.length) * bsize
    · rw [hbyte p (.inl hpb), if_neg (by omega), h.tail p (by omega) hpb]
    · refine hw.zero p ?_ hp hp'
      rw [hold]
      exact not_lt.mp hpb

end Xv6.Mkfs
