import Xv6.Kernel.TreeCalls

namespace Xv6.Kernel

open Lib Lib.Exec Finset

variable {sb : Fs.Layout} {s : Fs.State}

theorem between_boot (hs : Fs.Consistent sb s) (href : ∀ i, (s.icache i).ref = if i = 0 then 1 else 0)
    (hinum : (s.icache 0).inum = rootino) (hT : Fs.Shaped sb.ninodes (Fs.tree sb s.disk))
    (hroot : (Fs.tree sb s.disk rootino).type = Fs.tDir) (hlinks : ∀ j, ¬ (Fs.tree sb s.disk j).Orphan) :
    Between sb { boot s.disk with fs := s } := by
  have hboot : (fun i => (s.icache i).ref) = fun i => ((boot s.disk).fs.icache i).ref := by
    funext i
    rw [href i]
    by_cases hi : i = 0
    · rw [hi]
      rfl
    · simp [boot, hi, Fs.ICache.empty]
  obtain ⟨⟨hfiles, hinodes, hidle, hpipes⟩, hprocs⟩ := counted_boot s.disk
  have hexact := hinodes.exact
  rw [← hboot] at hexact
  have hfree (p : Fin nproc) (hp : p ≠ 0) : ((boot s.disk).ptable p).cwd = none := by simp [boot, hp]
  refine ⟨⟨⟨hfiles, ⟨hexact, fun i j hi hj he => hs.cache.unique i j hi hj (congrArg Prod.snd he)⟩, hidle, ?_⟩,
    ⟨hs, hexact, fun _ _ => rfl, fun x hx => (List.not_mem_nil hx).elim, fun j hj => absurd hj (hlinks j)⟩, hT,
    fun f hf => (by cases hf), fun p i hi => ?_⟩, hprocs, Fs.lt_of_type_ne (by rw [hroot]; decide)⟩
  · exact ⟨hpipes.one, hpipes.opened, hpipes.used, hpipes.unused⟩
  · by_cases hp : p = 0
    · subst hp
      obtain rfl : i = 0 := (Option.some.inj hi).symm
      show (Fs.tree sb s.disk (s.icache 0).inum).type = Fs.tDir
      rw [hinum, hroot]
    · exact absurd hi (by rw [hfree p hp]; exact Option.some_ne_none i |>.symm)

section Image

variable {files : List Mkfs.File}

theorem main_mkfsImage (hok : (Mkfs.build files Mkfs.blank).isOk = true) :
    ∃ st, Mkfs.main files Mkfs.start = .ok ((), st) ∧ st.image = mkfsImage files := by
  obtain ⟨st, hmain⟩ := Mkfs.exists_main hok
  refine ⟨st, hmain, ?_⟩
  rw [Mkfs.main_start] at hmain
  rw [mkfsImage, hmain]

theorem tree_mkfsImage (hok : (Mkfs.build files Mkfs.blank).isOk = true) (hle : files.length + 2 ≤ Mkfs.ninodes)
    {j : Nat} (hj : (Fs.tree Mkfs.sb (mkfsImage files) j).type ≠ 0) : 0 < j ∧ j < files.length + 2 := by
  obtain ⟨st, hmain, himage⟩ := main_mkfsImage hok
  obtain ⟨st₀, h⟩ := Mkfs.main_finished hmain hle
  by_cases hroot : j = rootino
  · rw [hroot]
    exact ⟨Nat.one_pos, by show 1 < _; omega⟩
  · have hlt : j < Mkfs.ninodes := Fs.lt_of_type_ne hj
    rw [Fs.tree_of_lt hlt, ← himage] at hj
    have hnode : Fs.dinode Mkfs.sb st.image j = Mkfs.node st₀ j := (h.touched.nodes j hlt).trans (if_neg hroot)
    have hj : (Fs.dinode Mkfs.sb st.image j).type ≠ 0 := hj
    rw [hnode] at hj
    obtain ⟨hpos, hlt⟩ := (h.alloc j hlt).mp hj
    exact ⟨hpos, by omega⟩

theorem consistent_mkfsImage (hok : (Mkfs.build files Mkfs.blank).isOk = true) (hs : Mkfs.Suitable files) :
    Fs.Consistent Mkfs.sb (boot (mkfsImage files)).fs := by
  obtain ⟨st, hmain, himage⟩ := main_mkfsImage hok
  obtain ⟨st₀, h⟩ := Mkfs.main_finished hmain hs.1
  have hwf := Mkfs.Suitable.wellFormed hmain hs
  have hentry (i : Fin ninode) (hi : 0 < ((boot (mkfsImage files)).fs.icache i).ref) : i = 0 := by
    by_contra hne
    simp [boot, hne, Fs.ICache.empty] at hi
  have howns := h.owns
  have hfilled := hwf.filled
  rw [himage] at howns hfilled
  refine ⟨howns, hfilled, fun i hi hv => ?_, fun i hi => ?_, fun i hi => ?_, fun i j hi hj _ => ?_,
    fun i hi hv => ?_⟩
  · obtain rfl := hentry i hi
    cases hv
  · obtain rfl := hentry i hi
    rfl
  · obtain rfl := hentry i hi
    exact Mkfs.rootino_lt
  · rw [hentry i hi, hentry j hj]
  · obtain rfl := hentry i hi
    cases hv

/-- A node with a link, which has whole entries for inodes that exist if it is a directory. -/
def Plain (x : Fs.Node) : Prop :=
  x.nlink ≠ 0 ∧ (x.type = Fs.tDir → x.rest = 0 ∧ ∀ de ∈ x.ents, de.inum.toNat < Mkfs.sb.ninodes)

instance (x : Fs.Node) : Decidable (Plain x) := inferInstanceAs (Decidable (_ ∧ _))

/-- The first process on an image of mkfs is one between two calls. -/
theorem between_mkfsImage (hok : (Mkfs.build files Mkfs.blank).isOk = true) (hs : Mkfs.Suitable files)
    (hplain : ∀ j < files.length + 2, j ≠ 0 → Plain (Fs.tree Mkfs.sb (mkfsImage files) j))
    (hroot : (Fs.tree Mkfs.sb (mkfsImage files) rootino).type = Fs.tDir) :
    Between Mkfs.sb (boot (mkfsImage files)) := by
  have hnode {j : Nat} (hj : (Fs.tree Mkfs.sb (mkfsImage files) j).type ≠ 0) :
      Plain (Fs.tree Mkfs.sb (mkfsImage files) j) := by
    obtain ⟨hpos, hlt⟩ := tree_mkfsImage hok hs.1 hj
    exact hplain j hlt hpos.ne'
  have hdir {j : Nat} (hj : (Fs.tree Mkfs.sb (mkfsImage files) j).type = Fs.tDir) :=
    (hnode (by rw [hj]; decide)).2 hj
  refine between_boot (consistent_mkfsImage hok hs) (fun i => ?_) rfl ⟨fun j hj => (hdir hj).1, ?_⟩ hroot ?_
  · by_cases hi : i = 0
    · rw [hi]
      rfl
    · simp [hi, Fs.ICache.empty]
  · intro j m de hj hde
    exact (hdir hj).2 de (List.mem_of_getElem? hde)
  · intro j hj
    exact (hnode hj.1).1 hj.2

end Image

theorem tree_emptyImage {j : Nat} (hj : (Fs.tree Mkfs.sb emptyImage j).type ≠ 0) : j = rootino := by
  obtain ⟨hpos, hlt⟩ := @tree_mkfsImage [] (by decide +kernel) (by decide) _ hj
  have hlt : j < 2 := hlt
  show j = 1
  omega

theorem root_emptyImage : Fs.tree Mkfs.sb emptyImage rootino =
    ⟨Fs.tDir, 1, .of 1 Fs.dot :: .of 1 Fs.dotdot :: List.replicate 30 .zero, 0⟩ := by decide +kernel

theorem between_emptyImage : Between Mkfs.sb (boot emptyImage) :=
  between_mkfsImage (by decide +kernel) (by decide) (by decide +kernel) (by decide +kernel)

end Xv6.Kernel
