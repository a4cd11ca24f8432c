import Xv6.Fs.Tidy
import Xv6.Kernel.Step

namespace Xv6.Fs

open Lib

variable {d : Disk} {x : Dinode} {j : Nat}

structure Dinode.WellFormed (d : Disk) (j : Nat) (x : Dinode) : Prop where
  size : x.size.toNat % 16 = 0
  slots : 2 ≤ x.slots
  self : (dirent d x 0).inum ≠ 0 ∧ (dirent d x 0).inum.toNat = j ∧ namecmp dot (dirent d x 0).name = 0
  parent : (dirent d x 1).inum ≠ 0 ∧ namecmp dotdot (dirent d x 1).name = 0
  names : ∀ a b, a < x.slots → b < x.slots → (dirent d x a).inum ≠ 0 → (dirent d x b).inum ≠ 0 →
    namecmp (dirent d x a).name (dirent d x b).name = 0 → a = b

theorem Dinode.ents_getElem? (ht : x.type = tDir) (k : Nat) (de : Dirent) :
    (x.node d).ents[k]? = some de ↔ k < x.slots ∧ dirent d x k = de := by
  rw [Dinode.node_ents ht, List.getElem?_map]
  by_cases hk : k < x.slots
  · simp [hk]
  · simp [hk]

theorem Dinode.wellFormed_iff (ht : x.type = tDir) : x.WellFormed d j ↔ DirOk j (x.node d) := by
  have hrest : (x.node d).rest = x.size.toNat % 16 := if_pos ht
  constructor
  · intro h
    refine ⟨hrest.trans h.size, ⟨_, (ents_getElem? ht ..).mpr ⟨h.slots.trans' (by decide), rfl⟩, ?_, h.self.2.1⟩,
      ⟨_, (ents_getElem? ht ..).mpr ⟨h.slots, rfl⟩, Dirent.is_iff.mpr h.parent⟩,
        fun a b de de' ha hb h0 h0' htext => ?_⟩
    · exact Dirent.is_iff.mpr ⟨h.self.1, h.self.2.2⟩
    · obtain ⟨ha', rfl⟩ := (ents_getElem? ht ..).mp ha
      obtain ⟨hb', rfl⟩ := (ents_getElem? ht ..).mp hb
      exact h.names a b ha' hb' h0 h0' (Cstr.strncmp_eq_zero_iff.mpr htext)
  · intro h
    obtain ⟨de, hde, his, hj⟩ := h.self
    obtain ⟨de', hde', his'⟩ := h.parent
    obtain ⟨-, rfl⟩ := (ents_getElem? ht ..).mp hde
    obtain ⟨hslots, rfl⟩ := (ents_getElem? ht ..).mp hde'
    obtain ⟨hdot0, hdot⟩ := Dirent.is_iff.mp his
    refine ⟨hrest.symm.trans h.rest, hslots, ⟨hdot0, hj, hdot⟩, Dirent.is_iff.mp his',
      fun a b ha hb h0 h0' hcmp => ?_⟩
    exact h.distinct a b _ _ ((ents_getElem? ht ..).mpr ⟨ha, rfl⟩) ((ents_getElem? ht ..).mpr ⟨hb, rfl⟩) h0 h0'
      (Cstr.strncmp_eq_zero_iff.mp hcmp)

def DirsWellFormed (sb : Layout) (d : Disk) : Prop :=
  ∀ j < sb.ninodes, (dinode sb d j).type = tDir → (dinode sb d j).WellFormed d j

theorem dirsWellFormed_iff {sb : Layout} : DirsWellFormed sb d ↔ Tidy (tree sb d) := by
  constructor
  · intro h j hj
    have hlt : j < sb.ninodes := lt_of_type_ne (by rw [hj]; decide)
    rw [tree_of_lt hlt] at hj ⊢
    exact (Dinode.wellFormed_iff hj).mp (h j hlt hj)
  · intro h j hlt hj
    have := h j (by rw [tree_of_lt hlt]; exact hj)
    rw [tree_of_lt hlt] at this
    exact (Dinode.wellFormed_iff hj).mpr this

end Xv6.Fs

namespace Xv6.Kernel

open Lib Lib.Exec

variable {sb : Fs.Layout} {k k' : State} {d : Disk} {cwd : Nat} {t : Fs.Tree}

theorem Effect.tidy {c : Call} (h : Effect sb d cwd c t) (hcwd : cwd ≠ 0) (hT : Fs.Tidy (Fs.tree sb d)) :
    Fs.Tidy t := by
  cases h with
  | keep => exact hT
  | @create _ _ _ _ j n _ hc h =>
      have hdir : (Fs.tree sb d j).type = Fs.tDir := Fs.resolve_dir h.lacks.1
      have hj : j < sb.ninodes := Fs.lt_of_type_ne (by rw [hdir]; decide)
      have hjn : j ≠ n := by
        rintro rfl
        rw [h.free] at hdir
        cases hdir
      have hj0 : j ≠ 0 := by
        obtain ⟨de, -, his, rfl⟩ := (hT j hdir).self
        exact fun h0 => his.1 (UInt16.toNat_inj.mp h0)
      rw [h.eq]
      exact hT.create (Fs.toNat_ofNat_inum h.lt) (Fs.ofNat_ne_zero h.lt h.ne) (Fs.ofNat_ne_zero hj hj0)
        hjn h.lacks.2 _
  | @link old _ _ _ n hold hlive hdir hnew =>
      have hn0 : n ≠ 0 := by
        rcases (Fs.walk_reach hold).ne_zero with hstart | hn0
        · rw [hstart, Fs.startOf]
          split
          · decide
          · exact hcwd
        · exact hn0
      exact hT.linked (Fs.ofNat_ne_zero (Fs.lt_of_type_ne hlive) hn0) hnew.2
  | unlink hres hname hlook => exact hT.unlinked hname hlook

theorem Sys.Effect.tidy {a : Sys} (h : a.Effect sb d cwd t) (hcwd : cwd ≠ 0) (hT : Fs.Tidy (Fs.tree sb d)) :
    Fs.Tidy t := by
  cases a with
  | call c => exact Kernel.Effect.tidy h hcwd hT
  | _ =>
      rw [show t = Fs.tree sb d from h]
      exact hT

theorem Next.tidy {a : Sys} (h : Next sb k cwd a k') (hcwd : cwd ≠ 0) (hT : Fs.Tidy (k.tree sb)) :
    Fs.Tidy (k'.tree sb) := by
  obtain ⟨t, ht, hswept⟩ := h.effect
  exact (ht.tidy hcwd hT).swept hswept

theorem Between.cwd_ne_zero {p : Fin nproc} {c : Fin ninode} (h : Between sb k) (hT : Fs.Tidy (k.tree sb))
    (hc : (k.ptable p).cwd = some c) : inums k.fs c ≠ 0 := by
  obtain ⟨de, -, his, hde⟩ := (hT _ (h.kept.cwd p c hc)).self
  rw [← hde]
  exact fun h0 => his.1 (UInt16.toNat_inj.mp h0)

section

variable [Fs.Devsw]

theorem Sys.step_next {a : Fin nproc × Sys} (h : Between sb k) (ha : Sys.Ready k a)
    (hs : Sys.step sb k a = some k') :
    ∃ c, (k.ptable a.1).cwd = some c ∧ Next sb k (inums k.fs c) a.2 k' := by
  obtain ⟨c, hc, -⟩ := cwd_live h ha.live
  have hw : wp (a.2.run sb a.1) _ _ k := Sys.run_next h hc ha
  unfold wp at hw
  unfold Sys.step at hs
  split at hs
  next r k₁ hrun =>
    rw [hrun] at hw
    rw [← Option.some.inj hs]
    exact ⟨c, hc, hw⟩
  next => cases hs

/-- Whatever the processes call, the directories stay as they should be, no file that can be written refers to a
directory, and no call finds a directory damaged. -/
theorem directories_stay_wellFormed {k₀ : State} {as : List (Fin nproc × Sys)} (h : Between sb k₀)
    (hd : Fs.DirsWellFormed sb k₀.fs.disk) (hready : Runs.Along (Sys.step sb) Sys.Ready k₀ as)
    (hrun : Runs.run (Sys.step sb) k₀ as = some k) :
    Fs.DirsWellFormed sb k.fs.disk ∧
      (∀ f, (k.ftable f).type = .inode → (k.ftable f).writable = true →
        (Fs.dinode sb k.fs.disk (k.fs.icache (k.ftable f).ip).inum).type ≠ Fs.tDir) ∧
      ∀ a, Sys.Ready k a → ∀ e, a.2.run sb a.1 k = .error e → ¬ ShortDir e := by
  obtain ⟨hk, hT⟩ := Runs.run_invariant (fun k => Between sb k ∧ Fs.Tidy (k.tree sb))
    (fun k a k' ⟨hk, hT⟩ ha hs => by
    obtain ⟨c, hc, hnext⟩ := Sys.step_next hk ha hs
    exact ⟨hnext.between, hnext.tidy (hk.cwd_ne_zero hT hc) hT⟩) ⟨h, Fs.dirsWellFormed_iff.mp hd⟩ hready hrun
  refine ⟨Fs.dirsWellFormed_iff.mpr hT, fun f hf hw => ?_, fun a ha e he => ?_⟩
  · obtain ⟨hlive, hdir⟩ := hk.kept.sound f hf
    have hlt := Fs.lt_of_type_ne hlive
    rw [State.tree, Fs.tree_of_lt hlt] at hdir
    exact hdir hw
  · obtain ⟨c, hc, -⟩ := cwd_live hk ha.live
    exact ((wp_iff.mp (Sys.run_next hk hc ha)).2 e he).1

end

theorem tidy_emptyImage : Fs.Tidy (Fs.tree Mkfs.sb emptyImage) := by
  intro j hj
  obtain rfl := tree_emptyImage (by rw [hj]; decide)
  rw [root_emptyImage]
  refine ⟨rfl, ⟨_, rfl, by decide, rfl⟩, ⟨_, rfl, by decide⟩, fun a b x y ha hb hx hy hxy => ?_⟩
  -- Apart from the first two entries, all are zero.
  have hget {m : Nat} {z : Fs.Dirent} (hz : z.inum ≠ 0)
      (hm : (Fs.Dirent.of 1 Fs.dot :: .of 1 Fs.dotdot :: List.replicate 30 Fs.Dirent.zero)[m]? = some z) :
      m = 0 ∧ z = .of 1 Fs.dot ∨ m = 1 ∧ z = .of 1 Fs.dotdot := by
    match m with
    | 0 => exact .inl ⟨rfl, (Option.some.inj hm).symm⟩
    | 1 => exact .inr ⟨rfl, (Option.some.inj hm).symm⟩
    | m + 2 =>
        rw [List.getElem?_cons_succ, List.getElem?_cons_succ] at hm
        have := List.eq_of_mem_replicate (List.mem_of_getElem? hm)
        rw [this] at hz
        exact absurd rfl hz
  rcases hget hx ha with ⟨rfl, rfl⟩ | ⟨rfl, rfl⟩ <;> rcases hget hy hb with ⟨rfl, rfl⟩ | ⟨rfl, rfl⟩
  · rfl
  · exact absurd hxy (by decide)
  · exact absurd hxy (by decide)
  · rfl

section

attribute [local instance] Fs.noDevices

def newFile : List (Fin nproc × Sys) :=
  [(0, .call (.open (some [47, 102]) 0x202)), (0, .write 0 4096 0 (fun _ => 7) 2),
    (0, .call (.mkdir (some [47, 100])))]

theorem directories_stay_wellFormed_newFile :
    ∃ k', Runs.run (Sys.step Mkfs.sb) (boot emptyImage) newFile = some k' ∧
    Fs.DirsWellFormed Mkfs.sb k'.fs.disk := by
  have hrun : (Runs.run (Sys.step Mkfs.sb) (boot emptyImage) newFile).isSome = true := by decide +kernel
  obtain ⟨k', hk'⟩ := Option.isSome_iff_exists.mp hrun
  have halong : Runs.Along (Sys.step Mkfs.sb) Sys.Ready (boot emptyImage) newFile :=
    Runs.along_of_alongB (fun k a => decide (Sys.Ready k a)) (fun _ _ h => of_decide_eq_true h) (by decide +kernel)
  have hd : Fs.DirsWellFormed Mkfs.sb (boot emptyImage).fs.disk := Fs.dirsWellFormed_iff.mpr tidy_emptyImage
  exact ⟨k', hk', (directories_stay_wellFormed between_emptyImage hd halong hk').1⟩

/-- A process larger than the low half of the address of the file table makes a file with a byte that is not 0,
opens the root directory, opens the file again, and reads the byte into `writable` of the directory. -/
def readKernel : List (Fin nproc × Sys) :=
  [(0, .sbrk (some 0x120000)), (0, .call (.open (some [47, 102]) 0x202)), (0, .write 0 4096 0 (fun _ => 1) 1),
    (0, .call (.open (some [47]) 0)), (0, .call (.open (some [47, 102]) 0)), (0, .read 2 0xFFFF800000113679 0 1)]

/-- After that, the directory can be written, and its first two entries are lost. -/
theorem read_damages_directory :
    Between Mkfs.sb (boot emptyImage) ∧ Fs.DirsWellFormed Mkfs.sb (boot emptyImage).fs.disk ∧
      (∃ k, Runs.run (Sys.step Mkfs.sb) (boot emptyImage) readKernel = some k ∧
        (k.ftable 1).type = .inode ∧ (k.ftable 1).writable = true ∧
        (Fs.dinode Mkfs.sb k.fs.disk (k.fs.icache (k.ftable 1).ip).inum).type = Fs.tDir) ∧
      ∃ k', Runs.run (Sys.step Mkfs.sb) (boot emptyImage) (readKernel ++ [(0, .write 1 4096 0 (fun _ => 0) 32)]) =
        some k' ∧ ¬ Fs.DirsWellFormed Mkfs.sb k'.fs.disk := by
  refine ⟨between_emptyImage, Fs.dirsWellFormed_iff.mpr tidy_emptyImage, ?_, ?_⟩
  · have h : (Runs.run (Sys.step Mkfs.sb) (boot emptyImage) readKernel).any (fun k =>
        decide ((k.ftable 1).type = .inode ∧ (k.ftable 1).writable = true ∧
          (Fs.dinode Mkfs.sb k.fs.disk (k.fs.icache (k.ftable 1).ip).inum).type = Fs.tDir)) = true := by
      decide +kernel
    obtain ⟨k, hk, hp⟩ := (Option.any_eq_true _ _).mp h
    exact ⟨k, hk, of_decide_eq_true hp⟩
  · have h : (Runs.run (Sys.step Mkfs.sb) (boot emptyImage)
        (readKernel ++ [(0, .write 1 4096 0 (fun _ => 0) 32)])).any (fun k =>
        decide ((Fs.dinode Mkfs.sb k.fs.disk rootino).type = Fs.tDir ∧
          (Fs.dirent k.fs.disk (Fs.dinode Mkfs.sb k.fs.disk rootino) 0).inum = 0)) = true := by decide +kernel
    obtain ⟨k, hk, hp⟩ := (Option.any_eq_true _ _).mp h
    obtain ⟨hdir, hzero⟩ := of_decide_eq_true hp
    exact ⟨k, hk, fun hwf => (hwf rootino Mkfs.rootino_lt hdir).self.1 hzero⟩

end

end Xv6.Kernel
