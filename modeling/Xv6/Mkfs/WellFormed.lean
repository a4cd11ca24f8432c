import Xv6.Mkfs.Image

namespace Xv6.Mkfs

open Lib Lib.Bytes Lib.Exec Lib.Cstr Lib.Ownership Fs

variable {st st' : State} {files : List File}

structure WellFormed (st : State) : Prop where
  filled : ∀ j, j < ninodes → (dinode sb st.image j).type ≠ 0 →
    Filled st.image (dinode sb st.image j) (blocks (dinode sb st.image j).size.toNat)
  range : ∀ k, table sb st.image (dinode sb st.image) k ≠ 0 →
    nmeta ≤ table sb st.image (dinode sb st.image) k ∧ table sb st.image (dinode sb st.image) k < fssize
  distinct : ∀ k k', table sb st.image (dinode sb st.image) k ≠ 0 →
    table sb st.image (dinode sb st.image) k = table sb st.image (dinode sb st.image) k' → k = k'
  used : ∀ b, b < fssize → (inUse sb st.image b = true ↔ b < st.freeblock)
  inums : ∀ i, 0 < i → i < st.freeinode →
    i < ninodes ∧ sb.inodestart ≤ sb.iblock i ∧ sb.iblock i < sb.inodestart + ninodeblocks
  names : ∀ j k, j < (dinode sb st.image rootino).slots → k < (dinode sb st.image rootino).slots → j ≠ k →
    (dirent st.image (dinode sb st.image rootino) j).inum ≠ 0 →
    (dirent st.image (dinode sb st.image rootino) k).inum ≠ 0 →
    namecmp (dirent st.image (dinode sb st.image rootino) j).name
      (dirent st.image (dinode sb st.image rootino) k).name ≠ 0

/-- There are inodes for all files, the entries of the root directory do not end at the end of a block,
and no two of its names are the same. -/
def Suitable (files : List File) : Prop :=
  files.length + 2 ≤ ninodes ∧ 16 * (files.length + 2) % bsize ≠ 0 ∧
    ([46] :: [46, 46] :: files.map fun f => text dirsiz (stripName f.name)).Nodup

def fileEntries : (inum : Nat) → List File → List Dirent
  | _, [] => []
  | inum, f :: fs => .of (UInt16.ofNat inum) (stripName f.name) :: fileEntries (inum + 1) fs

def rootEntries (files : List File) : List Dirent :=
  .of (UInt16.ofNat rootino) [46] :: .of (UInt16.ofNat rootino) [46, 46] :: fileEntries 2 files

section Start

def blank : State := ⟨Function.update (fun _ _ => 0) 1 sbBlock, fssize, 1, nmeta⟩

theorem zeroSectors_start (n : Nat) : zeroSectors n start = .ok ((), { start with nsect := n }) := by
  induction n with
  | zero => rfl
  | succ n ih =>
      rw [zeroSectors, bind_ok ih]
      simp [wsect, Exec.update, State.write, start]

theorem blank_image {c : Nat} (hc : c ≠ 1) : blank.image c = fun _ => 0 := by simp [blank, hc]

theorem node_blank {j : Nat} (hj : j < ninodes) : node blank j = .fresh 0 := by
  have hlt := iblock_lt hj
  have hne : sb.iblock j ≠ 1 := by
    show j / 8 + 32 ≠ 1
    omega
  rw [node, dinode, ghost_node hlt, blank_image hne, getDinode_zero]

theorem built_blank : Built rootino [] blank := by
  have hptr (d : Disk) (sl : Slot) : ptr d (.fresh 0) sl = 0 := by cases sl <;> simp [ptr, Dinode.fresh, Dinode.ind]
  have htab (k : Nat × Slot) : table sb (ghost blank) (dinode sb (ghost blank)) k = 0 := by
    unfold table
    split
    next hk => exact absurd (congrArg Dinode.type (node_blank hk.1)) hk.2
    next => rfl
  refine ⟨⟨⟨rfl, le_rfl, by decide, fun c hc => ?_⟩, ⟨⟨by decide, fun k hk => absurd (htab k) hk,
    fun k _ hk => absurd (htab k) hk, fun b hb => hb.elim, fun b hb => ?_⟩, fun j hj ht => ?_, fun i hi => ?_,
    fun i hi => ?_, fun i hi => ?_, fun i j hi => ?_, fun i hi => ?_⟩⟩, rfl, by decide, fun j hj => ?_, ?_,
    fun k hk => ?_, fun p _ hp => ?_⟩
  · have : nmeta ≤ c := hc
    have : 1 < nmeta := by decide
    exact blank_image (by omega)
  · show inUse sb (ghost blank) b = true ↔ _
    simp only [inUse_ghost hb, decide_eq_true_eq, htab, Set.mem_empty_iff_false, false_or]
    exact ⟨.inl, fun h => h.elim id (by rintro ⟨_, h⟩; exact h ▸ (by decide))⟩
  · exact absurd (congrArg Dinode.type (node_blank hj)) ht
  iterate 5 exact absurd hi (lt_irrefl 0)
  · rw [node_blank hj]
    exact iff_of_false (not_not.mpr rfl) (by have : rootino = 1 := rfl; omega)
  · rw [node_blank rootino_lt]
    rfl
  · exact absurd hk (Nat.not_lt_zero k)
  · exact absurd hp (Nat.not_lt_zero p)

theorem main_start (files : List File) : main files start = build files blank := by
  rw [main, bind_ok (zeroSectors_start fssize)]
  exact bind_ok rfl

end Start

section Build

variable {n : Nat} {es : List Dirent}

theorem makeRoot_spec : wp makeRoot (fun _ st => Built 2 (rootEntries []) st) (fun _ => True) blank := by
  refine built_blank.ialloc_root.bind fun inum st ⟨hinum, h⟩ => ?_
  rw [assert, if_pos hinum, wp_bind, wp_pure]
  exact (h.iappend_root (by decide) _ _).bind fun _ st₁ h₁ => h₁.iappend_root (by decide) _ _

theorem copyReads_spec {inum : Nat} {cs : List (List UInt8)} (h : Built n es st) (hn : rootino < n) (hi : inum < n)
    (hne : rootino < inum) : wp (copyReads inum cs) (fun _ st' => Built n es st') (fun _ => True) st := by
  induction cs generalizing st with
  | nil => exact h
  | cons c cs ih =>
      exact (h.iappend_other hn hi hne).bind fun _ st' h' => ih h'

theorem addFile_spec {f : File} (h : Built n es st) (hn : rootino < n) (hlt : n < ninodes) :
    wp (addFile f) (fun _ st' => Built (n + 1) (es ++ [.of (UInt16.ofNat n) (stripName f.name)]) st')
      (fun _ => True)
      st := by
  simp only [addFile, wp_bind, assert]
  rw [wp_ite]
  refine ⟨fun _ => ?_, fun _ => trivial⟩
  rw [wp_pure]
  cases f.reads with
  | none => exact trivial
  | some cs =>
      refine (h.ialloc_file hn hlt).bind fun inum st₁ ⟨hinum, h₁⟩ => ?_
      subst hinum
      exact (h₁.iappend_root (by omega) _ _).bind fun _ st₂ h₂ =>
        copyReads_spec h₂ (by omega) (Nat.lt_succ_self _) hn

theorem addFiles_spec (h : Built n es st) (hn : rootino < n) (hle : n + files.length ≤ ninodes) :
    wp (addFiles files) (fun _ st' => Built (n + files.length) (es ++ fileEntries n files) st')
      (fun _ => True) st := by
  induction files generalizing n es st with
  | nil => simpa [addFiles, fileEntries] using h
  | cons f fs ih =>
      rw [List.length_cons] at hle
      refine (addFile_spec h hn (by omega)).bind fun _ st₁ h₁ => ?_
      refine (ih h₁ (by omega) (by omega)).imp fun _ st₂ h₂ => ?_
      rw [List.append_assoc, List.singleton_append] at h₂
      rwa [List.length_cons, Nat.add_comm fs.length, ← Nat.add_assoc]

theorem build_spec (hle : files.length + 2 ≤ ninodes) :
    wp (build files) (fun _ st' => ∃ st, Built (2 + files.length) (rootEntries files) st ∧
        st'.freeblock = st.freeblock ∧ st'.freeinode = st.freeinode ∧
        st'.image = putNode sb (ghost st) rootino
          { node st rootino with size := ((node st rootino).size / 512 + 1) * 512 })
      (fun _ => True) blank := by
  refine makeRoot_spec.bind fun _ st h => ?_
  refine (addFiles_spec h (by decide) (by rwa [Nat.add_comm])).bind fun _ st₁ h₁ => ?_
  simp only [fixRoot, wp_bind]
  rw [wp_rinode h₁.toRoom rootino_lt, wp_winode h₁.toRoom rootino_lt]
  simp only [wp_gets, balloc, assert, wp_bind]
  rw [wp_ite]
  refine ⟨fun _ => ?_, fun _ => trivial⟩
  simp only [wp_pure, wsect, wp_update]
  exact ⟨st₁, h₁, rfl, rfl, ghost_putNode rootino_lt⟩

end Build

section Count

theorem ialloc_count (type : Int16) :
    wp (ialloc type) (fun _ st' => st'.freeinode = st.freeinode + 1) (fun _ => True) st := by
  simp only [ialloc, wp_bind, wp_gets, wp_update]
  exact ((keeps_winode _ _) _).imp fun _ _ h => h

theorem keeps_copyReads (inum : Nat) (cs : List (List UInt8)) : Keeps State.freeinode (copyReads inum cs) := by
  induction cs with
  | nil => exact Keeps.pure _
  | cons c cs ih => exact (keeps_iappend _ _).bind fun _ => ih

theorem addFile_count (f : File) :
    wp (addFile f) (fun _ st' => st'.freeinode = st.freeinode + 1) (fun _ => True) st := by
  simp only [addFile, wp_bind, assert]
  rw [wp_ite]
  refine ⟨fun _ => ?_, fun _ => trivial⟩
  rw [wp_pure]
  cases f.reads with
  | none => exact trivial
  | some cs =>
      refine (ialloc_count tFile).bind fun inum st₁ h₁ => ?_
      exact (((keeps_iappend _ _).bind fun _ => keeps_copyReads _ _) st₁).imp fun _ _ h => h.trans h₁

theorem addFiles_count (files : List File) :
    wp (addFiles files) (fun _ st' => st'.freeinode = st.freeinode + files.length) (fun _ => True) st := by
  induction files generalizing st with
  | nil => exact rfl
  | cons f fs ih =>
      refine (addFile_count f).bind fun _ st₁ h₁ => ih.imp fun _ st₂ h₂ => ?_
      rw [h₂, h₁, List.length_cons]
      omega

theorem build_count (files : List File) :
    wp (build files) (fun _ st => st.freeinode = files.length + 2) (fun _ => True) blank := by
  have hfix : Keeps State.freeinode fixRoot := (keeps_rinode _).bind fun _ => keeps_winode _ _
  have hballoc (n : Nat) : Keeps State.freeinode (balloc n) :=
    (Keeps.ite (fun _ => Keeps.pure _) fun _ => Keeps.fail _).bind fun _ => keeps_wsect _ _
  refine makeRoot_spec.bind fun _ st₁ h₁ => (addFiles_count files).bind fun _ st₂ h₂ => ?_
  refine ((hfix.bind fun _ => (Keeps.gets _).bind fun _ => hballoc _) st₂).imp fun _ _ h => ?_
  rw [h, h₂, h₁.next, Nat.add_comm]

end Count

section Final

variable {n : Nat} {es : List Dirent}

def fixed (x : Dinode) : Dinode := { x with size := (x.size / 512 + 1) * 512 }

theorem size_fixed {x : Dinode} (hx : x.size.toNat < 2 ^ 31) :
    (fixed x).size.toNat = (x.size.toNat / bsize + 1) * bsize := by
  have h1 : (x.size / 512 + 1).toNat = x.size.toNat / 512 + 1 := by
    rw [UInt32.toNat_add, UInt32.toNat_div]
    exact Nat.mod_eq_of_lt (by simp; omega)
  rw [fixed, UInt32.toNat_mul, h1]
  refine Nat.mod_eq_of_lt (?_ : (x.size.toNat / 512 + 1) * 512 < 2 ^ 32)
  omega

/-- The image that mkfs leaves, in terms of the one that it has built. -/
structure Finished (n : Nat) (es : List Dirent) (st₀ st : State) : Prop extends Built n es st₀ where
  root : rootino < n
  small : 16 * es.length < 2 ^ 31
  image : st.image = putNode sb (ghost st₀) rootino (fixed (node st₀ rootino))
  freeblock : st.freeblock = st₀.freeblock

theorem Finished.touched {st₀ : State} (h : Finished n es st₀ st) :
    Touched sb rootino (fixed (node st₀ rootino)) (ghost st₀) st.image := by
  rw [h.image]
  exact ⟨fun k _ => dinode_putNode k, fun k hk _ ht => Owned.sameFile_putNode h.consistent.owns rootino_lt hk ht⟩

theorem Finished.node_root {st₀ : State} (h : Finished n es st₀ st) :
    dinode sb st.image rootino = fixed (node st₀ rootino) :=
  (h.touched.nodes rootino rootino_lt).trans (if_pos rfl)

theorem Finished.size_root {st₀ : State} (h : Finished n es st₀ st) :
    (dinode sb st.image rootino).size.toNat = (16 * es.length / bsize + 1) * bsize := by
  rw [h.node_root, size_fixed (by rw [h.size]; exact h.small), h.size]

theorem Finished.sameFile {st₀ : State} (h : Finished n es st₀ st) :
    SameFile (ghost st₀) st.image (node st₀ rootino) := by
  rw [h.image]
  exact Owned.sameFile_putNode h.consistent.owns rootino_lt rootino_lt
    ((h.alloc _ rootino_lt).mpr ⟨by decide, h.root⟩)

theorem Finished.filled_root {st₀ : State} (h : Finished n es st₀ st) :
    Filled st.image (dinode sb st.image rootino) (blocks (16 * es.length)) := by
  rw [h.node_root]
  exact (h.sameFile.filled (h.root_filled h.root)).of_addrs rfl

theorem blocks_fixed (l : Nat) : blocks ((16 * l / bsize + 1) * bsize) = blocks (16 * l) ↔ 16 * l % bsize ≠ 0 := by
  show ((16 * l / 512 + 1) * 512 + 511) / 512 = (16 * l + 511) / 512 ↔ 16 * l % 512 ≠ 0
  omega

theorem Finished.filled_root_iff {st₀ : State} (h : Finished n es st₀ st) :
    Filled st.image (dinode sb st.image rootino) (blocks (dinode sb st.image rootino).size.toNat) ↔
      16 * es.length % bsize ≠ 0 := by
  rw [h.size_root, ← blocks_fixed]
  exact ⟨fun hf => hf.unique h.filled_root, fun e => e ▸ h.filled_root⟩

theorem Finished.owns {st₀ : State} (h : Finished n es st₀ st) :
    Owns sb st.image (dinode sb st.image) ∅ := by
  refine h.touched.owns ?_
  rw [h.image]
  refine Owned.putNode ?_ rootino_lt
  refine Owned.of_addrs (x := node st₀ rootino) ?_ rfl Iff.rfl
  rw [Function.update_eq_self]
  exact h.consistent.owns

theorem Finished.inUse {st₀ : State} (h : Finished n es st₀ st) {b : Nat} (hb : b < fssize) :
    Fs.inUse sb st.image b = decide (b < st.freeblock) := by
  rw [h.image, h.freeblock, ← inUse_ghost hb]
  exact inUse_of_inode sb _ _ rootino_lt b

theorem Finished.byte {st₀ : State} (h : Finished n es st₀ st) {p : Nat}
    (hp : p < blocks (16 * es.length) * bsize) :
    fileByte st.image (dinode sb st.image rootino) p = fileByte (ghost st₀) (node st₀ rootino) p := by
  rw [h.node_root, fileByte_of_addrs (x := node st₀ rootino) (y := fixed (node st₀ rootino)) rfl,
    h.sameFile.fileByte_eq ((h.root_filled h.root).fileBlock_ne hp)]

theorem Finished.entry_eq {st₀ : State} (h : Finished n es st₀ st) {k : Nat} (hk : k < es.length) :
    dirent st.image (dinode sb st.image rootino) k = es[k] := by
  have hcap : 16 * es.length ≤ blocks (16 * es.length) * bsize := blocks_le_iff.mp le_rfl
  rw [← h.entry k hk]
  exact dirent_congr fun j hj => h.byte (by omega)

theorem Finished.le_slots {st₀ : State} (h : Finished n es st₀ st) :
    es.length ≤ (dinode sb st.image rootino).slots := by
  rw [Dinode.slots, h.size_root]
  show es.length ≤ (16 * es.length / 512 + 1) * 512 / 16
  omega

theorem Finished.entry_free {st₀ : State} (h : Finished n es st₀ st) (hmod : 16 * es.length % bsize ≠ 0) {k : Nat}
    (hk : k < (dinode sb st.image rootino).slots) (hle : es.length ≤ k) :
    (dirent st.image (dinode sb st.image rootino) k).inum = 0 := by
  have hcap : (16 * es.length / bsize + 1) * bsize = blocks (16 * es.length) * bsize := by
    have hmod : 16 * es.length % 512 ≠ 0 := hmod
    show (16 * es.length / 512 + 1) * 512 = (16 * es.length + 511) / 512 * 512
    omega
  rw [Dinode.slots, h.size_root, hcap] at hk
  refine dirent_inum_zero fun j hj => ?_
  rw [h.byte (by omega), h.tail _ (by omega) (by omega)]

theorem map_text_fileEntries (inum : Nat) (files : List File) :
    (fileEntries inum files).map Dirent.text = files.map fun f => text dirsiz (stripName f.name) := by
  induction files generalizing inum with
  | nil => rfl
  | cons f fs ih => rw [fileEntries, List.map_cons, List.map_cons, ih, Dirent.text_of]

theorem map_text_rootEntries (files : List File) : (rootEntries files).map Dirent.text =
    [46] :: [46, 46] :: files.map fun f => text dirsiz (stripName f.name) := by
  rw [rootEntries, List.map_cons, List.map_cons, map_text_fileEntries, Dirent.text_of, Dirent.text_of]
  rfl

theorem length_fileEntries (inum : Nat) (files : List File) : (fileEntries inum files).length = files.length := by
  induction files generalizing inum with
  | nil => rfl
  | cons f fs ih => rw [fileEntries, List.length_cons, List.length_cons, ih]

theorem length_rootEntries (files : List File) : (rootEntries files).length = files.length + 2 := by
  simp [rootEntries, length_fileEntries]

theorem inum_fileEntries {inum : Nat} (hpos : 0 < inum) (hlt : inum + files.length < 2 ^ 16) :
    ∀ de ∈ fileEntries inum files, de.inum ≠ 0 := by
  induction files generalizing inum with
  | nil => simp [fileEntries]
  | cons f fs ih =>
      rw [List.length_cons] at hlt
      intro de hde
      rcases List.mem_cons.mp hde with rfl | hde
      · have : inum % 2 ^ 16 ≠ 0 := by omega
        intro h0
        exact this (congrArg UInt16.toNat h0)
      · exact ih (Nat.succ_pos _) (by omega) de hde

theorem inum_rootEntries (hlt : files.length + 2 ≤ ninodes) : ∀ de ∈ rootEntries files, de.inum ≠ 0 := by
  intro de hde
  rcases List.mem_cons.mp hde with rfl | hde
  · decide
  · rcases List.mem_cons.mp hde with rfl | hde
    · decide
    · have : ninodes < 2 ^ 16 := by decide
      exact inum_fileEntries (by decide) (by omega) de hde

theorem Finished.names_iff {st₀ : State} (h : Finished n es st₀ st) (hmod : 16 * es.length % bsize ≠ 0)
    (hinum : ∀ de ∈ es, de.inum ≠ 0) :
    (∀ j k, j < (dinode sb st.image rootino).slots → k < (dinode sb st.image rootino).slots → j ≠ k →
      (dirent st.image (dinode sb st.image rootino) j).inum ≠ 0 →
      (dirent st.image (dinode sb st.image rootino) k).inum ≠ 0 →
      namecmp (dirent st.image (dinode sb st.image rootino) j).name
        (dirent st.image (dinode sb st.image rootino) k).name ≠ 0) ↔
    (es.map Dirent.text).Nodup := by
  have hle := h.le_slots
  constructor
  · intro hnames
    refine List.pairwise_map.mpr (List.pairwise_iff_getElem.mpr fun j k hj hk hlt he => ?_)
    have hne := hnames j k (hj.trans_le hle) (hk.trans_le hle) hlt.ne
    rw [h.entry_eq hj, h.entry_eq hk] at hne
    exact hne (hinum _ (List.getElem_mem hj)) (hinum _ (List.getElem_mem hk)) (strncmp_eq_zero_iff.mpr he)
  · intro hnodup j k hj hk hjk hj0 hk0 hcmp
    have hjl : j < es.length := not_le.mp fun hge => hj0 (h.entry_free hmod hj hge)
    have hkl : k < es.length := not_le.mp fun hge => hk0 (h.entry_free hmod hk hge)
    rw [h.entry_eq hjl, h.entry_eq hkl] at hcmp
    have htext : es[j].text = es[k].text := strncmp_eq_zero_iff.mp hcmp
    have hj' : j < (es.map Dirent.text).length := by rwa [List.length_map]
    have hk' : k < (es.map Dirent.text).length := by rwa [List.length_map]
    have hinj : (es.map Dirent.text)[j] = (es.map Dirent.text)[k] ↔ j = k := List.Nodup.getElem_inj_iff hnodup
    exact hjk (hinj.mp (by rwa [List.getElem_map, List.getElem_map]))

end Final

theorem main_finished {st : State} (hmain : main files start = .ok ((), st)) (hle : files.length + 2 ≤ ninodes) :
    ∃ st₀, Finished (2 + files.length) (rootEntries files) st₀ st := by
  rw [main_start] at hmain
  obtain ⟨st₀, hb, hfb, -, himg⟩ := (wp_iff.mp (build_spec hle)).1 _ _ hmain
  have : ninodes < 2 ^ 16 := by decide
  exact ⟨st₀, hb, by show 1 < _; omega, by rw [length_rootEntries]; omega, himg, hfb⟩

theorem main_freeinode {st : State} (hmain : main files start = .ok ((), st)) :
    st.freeinode = files.length + 2 := by
  rw [main_start] at hmain
  exact (wp_iff.mp (build_count files)).1 _ _ hmain

theorem WellFormed.suitable (hmain : main files start = .ok ((), st)) (hw : WellFormed st) : Suitable files := by
  have hfi := main_freeinode hmain
  have hle : files.length + 2 ≤ ninodes := by
    by_contra hgt
    exact lt_irrefl _ (hw.inums ninodes (by decide) (by omega)).1
  obtain ⟨st₀, h⟩ := main_finished hmain hle
  have hroot : (dinode sb st.image rootino).type ≠ 0 := by
    rw [h.node_root]
    exact (h.alloc _ rootino_lt).mpr ⟨by decide, h.root⟩
  have hmod := h.filled_root_iff.mp (hw.filled rootino rootino_lt hroot)
  have hnames := (h.names_iff hmod (inum_rootEntries hle)).mp hw.names
  rw [map_text_rootEntries] at hnames
  rw [length_rootEntries] at hmod
  exact ⟨hle, hmod, hnames⟩

theorem Suitable.wellFormed (hmain : main files start = .ok ((), st)) (hs : Suitable files) : WellFormed st := by
  obtain ⟨hle, hmod, hnames⟩ := hs
  have hfi := main_freeinode hmain
  obtain ⟨st₀, h⟩ := main_finished hmain hle
  rw [← map_text_rootEntries] at hnames
  rw [← length_rootEntries] at hmod
  refine ⟨fun j hj ht => ?_, h.owns.range, fun k k' hk hkk => h.owns.inj k k' hk hkk, fun b hb => ?_,
    fun i hpos hi => ?_, (h.names_iff hmod (inum_rootEntries hle)).mpr hnames⟩
  · refine h.touched.filled h.consistent.filled (fun _ => ?_) hj ht
    rw [← h.node_root]
    exact h.filled_root_iff.mpr hmod
  · rw [h.inUse hb, decide_eq_true_iff]
  · have hlt : i < 200 := by have : ninodes = 200 := rfl; omega
    refine ⟨hlt, Nat.le_add_left .., ?_⟩
    show i / 8 + 32 < 32 + 26
    omega

/-- When mkfs exits with status 0, the image is well-formed exactly if the list of files is suitable. -/
theorem mkfs_wellFormed_iff (hmain : main files start = .ok ((), st)) : WellFormed st ↔ Suitable files :=
  ⟨WellFormed.suitable hmain, Suitable.wellFormed hmain⟩

instance : DecidablePred Suitable := fun _ => inferInstanceAs (Decidable (_ ∧ _ ∧ _))

theorem exists_main (h : (build files blank).isOk = true) : ∃ st, main files start = .ok ((), st) := by
  rw [main_start]
  cases hb : build files blank with
  | ok r => exact ⟨r.2, rfl⟩
  | error e =>
      rw [hb] at h
      cases h

def short : File := ⟨[99], by decide, some [[104, 105, 10]], by simp [bsize]⟩

/-- A file with more blocks than an inode has places for. -/
def long : File where
  name := [98]
  noNul := by decide
  reads := some (List.replicate 13 (List.replicate bsize 120))
  sizes cs hcs c hc := by
    rw [← Option.mem_some_iff.mp hcs] at hc
    rw [List.eq_of_mem_replicate hc, List.length_replicate]
    decide

theorem mkfs_wellFormed_iff_two : ∃ st, main [short, long] start = .ok ((), st) ∧ WellFormed st := by
  obtain ⟨st, h⟩ := exists_main (show (build [short, long] blank).isOk = true by decide +kernel)
  exact ⟨st, h, (mkfs_wellFormed_iff h).mpr (by decide)⟩

def letter (k : Fin 30) : File := ⟨[97 + UInt8.ofNat k], by revert k; decide, some [], by simp⟩

theorem malformed_of_build {files : List File} (hok : (build files blank).isOk = true) (hbad : ¬ Suitable files) :
    ∃ st, main files start = .ok ((), st) ∧ ¬ WellFormed st := by
  obtain ⟨st, h⟩ := exists_main hok
  exact ⟨st, h, fun hw => hbad (hw.suitable h)⟩

/-- Thirty files fill the first block of the root directory, and its size then covers a second block
that it does not have; a file named twice gets two entries. -/
theorem mkfs_malformed :
    (∃ st, main ((List.finRange 30).map letter) start = .ok ((), st) ∧ ¬ WellFormed st) ∧
      ∃ st, main [letter 0, letter 0] start = .ok ((), st) ∧ ¬ WellFormed st :=
  ⟨malformed_of_build (by decide +kernel) (by decide), malformed_of_build (by decide +kernel) (by decide)⟩

end Xv6.Mkfs
