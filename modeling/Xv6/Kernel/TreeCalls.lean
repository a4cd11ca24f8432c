import Xv6.Kernel.Kept

namespace Xv6.Kernel

open Lib Lib.Exec Lib.RefCount Finset

variable {sb : Fs.Layout} {k k' : State} {T : Fin nproc → Proc} {fh : List (Fin nfile)} {L : List Fs.Hold}
  {s : Fs.State} {f : Fin nfile} {p : Fin nproc} {c : Fin ninode} {j : Nat} {b J : Fin ninode → Nat}

def OpenOk (sb : Fs.Layout) (d : Disk) (U : Finset Nat) (path : List UInt8) (cwd : Nat) (omode : UInt32) : Prop :=
  if omode &&& oCreate ≠ 0 then Fs.CreateOk sb d U path cwd Fs.tFile
  else Fs.PathOk (Fs.tree sb d) U false path cwd ∧
    ∀ n, Fs.walk (Fs.tree sb d) (Fs.startOf path cwd) (Fs.elems path) = some n → (Fs.tree sb d n).type ≠ 0

def Lacks (t : Fs.Tree) (path : List UInt8) (cwd j : Nat) (name : List UInt8) : Prop :=
  Fs.resolve t true (Fs.startOf path cwd) [] (Fs.elems path) = some (j, name) ∧ Fs.inumOf (t j).ents name = none

/-- A new inode `n` has got its name in directory `j`, by the path. -/
structure Made (sb : Fs.Layout) (d : Disk) (path : List UInt8) (cwd : Nat) (type : Int16) (j n : Nat)
    (name : List UInt8)
    (t : Fs.Tree) : Prop where
  lacks : Lacks (Fs.tree sb d) path cwd j name
  first : Fs.firstFreeInode sb d = some n
  lt : n < sb.ninodes
  ne : n ≠ 0
  free : (Fs.tree sb d n).type = 0
  eq : t = (Fs.tree sb d).create j n name type

theorem cwd_live (h : Between sb k) (hp : ¬ (k.ptable p).Dead) :
    ∃ c, (k.ptable p).cwd = some c ∧ wp (cwd p) (fun r k' => r = c ∧ k' = k) (fun _ => False) k ∧
      0 < refs k.ptable k c := by
  obtain ⟨c, hc⟩ := Option.isSome_iff_exists.mp ((h.procs p).alive hp)
  refine ⟨c, hc, ?_, ?_⟩
  · simp only [cwd, proc, wp_bind, wp_gets, hc]
    exact ⟨rfl, rfl⟩
  · have := cwds_pos hc
    dsimp only [refs]
    omega

theorem Kept.same {L' : List Fs.Hold} (h : Kept sb T fh L k) (hs : Fs.Held sb (refs T k) (inums k.fs) L' s)
    (htree : Fs.tree sb s.disk = k.tree sb) : Kept sb T fh L' { k with fs := s } :=
  h.fs hs (htree ▸ h.shaped) fun _ _ _ => by rw [htree]

def Call.creates : Call → Option (List UInt8 × Int16)
  | .open (some path) omode => if omode &&& oCreate ≠ 0 then some (path, Fs.tFile) else none
  | .mkdir (some path) => some (path, Fs.tDir)
  | .mknod (some path) _ _ => some (path, Fs.tDev)
  | _ => none

/-- What a call can make of the tree, apart from the inodes that vanish. -/
inductive Effect (sb : Fs.Layout) (d : Disk) (cwd : Nat) : Call → Fs.Tree → Prop
  | keep (c : Call) : Effect sb d cwd c (Fs.tree sb d)
  | create {c : Call} {path name : List UInt8} {type : Int16} {j n : Nat} {t : Fs.Tree}
      (hc : c.creates = some (path, type))
      (h : Made sb d path cwd type j n name t) : Effect sb d cwd c t
  | link {old new name : List UInt8} {j n : Nat}
      (hold : Fs.walk (Fs.tree sb d) (Fs.startOf old cwd) (Fs.elems old) = some n)
      (hlive : (Fs.tree sb d n).type ≠ 0) (hdir : (Fs.tree sb d n).type ≠ Fs.tDir)
      (hnew : Lacks (Fs.tree sb d) new cwd j name) :
      Effect sb d cwd (.link (some old) (some new)) ((Fs.tree sb d).linked j name n)
  | unlink {path name : List UInt8} {j k n : Nat}
      (hres : Fs.resolve (Fs.tree sb d) true (Fs.startOf path cwd) [] (Fs.elems path) = some (j, name))
      (hname : ¬ Fs.Dots name) (hlook : Fs.lookup (Fs.tree sb d j).ents name = some (k, n))
      (hlive : (Fs.tree sb d n).type ≠ 0) (hlink : 1 ≤ (Fs.tree sb d n).nlink)
      (hbare : (Fs.tree sb d n).type = Fs.tDir → Fs.Bare (Fs.tree sb d n).ents) :
      Effect sb d cwd (.unlink (some path)) ((Fs.tree sb d).unlinked j k n)

theorem Effect.type {d : Disk} {cwd m : Nat} {c : Call} {t : Fs.Tree} (h : Effect sb d cwd c t)
    (hm : (Fs.tree sb d m).type ≠ 0) : (t m).type = (Fs.tree sb d m).type := by
  cases h with
  | keep => rfl
  | create hc h =>
      rw [h.eq, Fs.Tree.create_type, if_neg]
      rintro rfl
      exact hm h.free
  | link => exact Fs.Tree.linked_type ..
  | unlink => exact Fs.Tree.unlinked_type ..

theorem Effect.shaped {d : Disk} {cwd : Nat} {c : Call} {t : Fs.Tree} (h : Effect sb d cwd c t)
    (hT : Fs.Shaped sb.ninodes (Fs.tree sb d)) : Fs.Shaped sb.ninodes t := by
  cases h with
  | keep => exact hT
  | create hc h =>
      rw [h.eq]
      exact hT.create h.lt (Fs.lt_of_type_ne (by rw [Fs.resolve_dir h.lacks.1]; decide)) _ _
  | link hold hlive => exact hT.linked _ _ (Fs.lt_of_type_ne hlive)
  | unlink hres hname hlook hlive =>
      refine hT.unlinked ?_ (Fs.lt_of_type_ne hlive)
      obtain ⟨⟨de, hde, -⟩, -⟩ := Fs.lookup_eq_some.mp hlook
      exact (List.getElem?_eq_some_iff.mp hde).1

theorem Kept.effect {cwd : Nat} {d : Call} {t : Fs.Tree} {L' : List Fs.Hold} (h : Kept sb T fh L k)
    (hs : Fs.Held sb (refs T k) (inums k.fs) L' s) (ht : Effect sb k.fs.disk cwd d t)
    (hswept : Fs.Swept (Fs.Used s) t (Fs.tree sb s.disk)) : Kept sb T fh L' { k with fs := s } := by
  refine h.fs hs ((ht.shaped h.shaped).swept hswept) fun j hj h0 => ?_
  rw [hswept.of_pinned (hs.pinned_iff.mp hj)]
  exact ht.type h0

section

variable [Fs.Devsw]

theorem openInode_held (h : Fs.Held sb b J L s) (hT : Fs.Shaped sb.ninodes (Fs.tree sb s.disk)) (hc : 0 < b c)
    (hroot : rootino < sb.ninodes) (path : List UInt8) (omode : UInt32) :
    wp (openInode sb c path omode) (fun r t => OpenOk sb s.disk (Fs.busy b J L) path (J c) omode ∧ match r with
        | none => Fs.Held sb b J L t ∧ t.disk = s.disk ∧
            (omode &&& oCreate ≠ 0 → ∀ j name, ¬ Lacks (Fs.tree sb s.disk) path (J c) j name)
        | some ip =>
            ∃ n, Fs.Held sb b J (⟨ip, n, true⟩ :: L) t ∧ (omode ≠ 0 → (Fs.tree sb t.disk n).type ≠ Fs.tDir) ∧
            (t.disk = s.disk ∧ (omode &&& oCreate ≠ 0 → ∀ j name, ¬ Lacks (Fs.tree sb s.disk) path (J c) j name) ∨
              omode &&& oCreate ≠ 0 ∧ ∃ j name t₁, Made sb s.disk path (J c) Fs.tFile j n name t₁ ∧
                Fs.Swept (Fs.Used t) t₁ (Fs.tree sb t.disk)))
      (fun e => Fs.PathPanic (Fs.tree sb s.disk) (Fs.startOf path (J c)) e ∧
        ¬ OpenOk sb s.disk (Fs.busy b J L) path (J c) omode) s := by
  rw [openInode]
  by_cases hcreate : omode &&& oCreate ≠ 0
  · simp only [OpenOk, if_pos hcreate]
    refine (Fs.create_held h hT hc hroot (by decide) path 0 0).imp ?_
    rintro r t ⟨hok, hr⟩
    refine ⟨hok, ?_⟩
    unfold Fs.Created at hr
    cases hres : Fs.resolve (Fs.tree sb s.disk) true (Fs.startOf path (J c)) [] (Fs.elems path) with
    | none =>
        rw [hres] at hr
        obtain ⟨rfl, ht, hd⟩ := hr
        exact ⟨ht, hd, fun _ j name hl => (by cases hres.symm.trans hl.1)⟩
    | some o =>
        obtain ⟨j, name⟩ := o
        rw [hres] at hr
        dsimp only at hr
        cases hnum : Fs.inumOf (Fs.tree sb s.disk j).ents name with
        | none =>
            rw [hnum] at hr
            obtain ⟨ip, n, rfl, hn, hn0, hfree, hfirst, ht, hswept⟩ := hr
            have hmem : (⟨ip, n, true⟩ : Fs.Hold) ∈ (⟨ip, n, true⟩ : Fs.Hold) :: L := List.mem_cons_self
            have hswept := hswept.held ht fun x hx => (List.mem_cons.mp hx).symm.imp_right fun hx => by rw [hx]
            refine ⟨n, ht, fun _ => ?_, .inr ⟨hcreate, j, name, _, ⟨⟨hres, hnum⟩, hfirst, hn, hn0, hfree, rfl⟩,
              hswept⟩⟩
            rw [hswept.of_pinned (ht.pinned_iff.mp (.inr ⟨_, hmem, rfl⟩)), Fs.Tree.create, Fs.Tree.link,
              Fs.Tree.setEnts_type, Function.update_self]
            exact show Fs.tFile ≠ Fs.tDir by decide
        | some n =>
            have hnot : ∀ j name, ¬ Lacks (Fs.tree sb s.disk) path (J c) j name := by
              intro j' name' hl
              obtain ⟨rfl, rfl⟩ := Prod.mk.inj (Option.some.inj (hres.symm.trans hl.1))
              cases hnum.symm.trans hl.2
            rw [hnum] at hr
            obtain ⟨hd, hr⟩ := hr
            split at hr
            next htype =>
              obtain ⟨ip, rfl, ht⟩ := hr
              refine ⟨n, ht, fun _ => ?_, .inl ⟨hd, fun _ => hnot⟩⟩
              rw [hd, htype.2]
              decide
            next =>
              obtain ⟨rfl, ht⟩ := hr
              exact ⟨ht, hd, fun _ => hnot⟩
  · simp only [OpenOk, if_neg hcreate]
    have hvoid (P : Prop) (hc : omode &&& oCreate ≠ 0) : P := absurd hc hcreate
    refine wp_bind.mpr <| (Fs.namei_held h hT hc hroot path).mono ?_
      (by rintro e ⟨he, hnot⟩; exact ⟨he.pathPanic, fun hall => hnot hall.1⟩)
    rintro r s₁ ⟨⟨hd₁, hr⟩, hok⟩
    cases hwalk : Fs.walk (Fs.tree sb s.disk) (Fs.startOf path (J c)) (Fs.elems path) with
    | none =>
        rw [hwalk] at hr
        obtain ⟨rfl, h₁⟩ := hr
        exact ⟨⟨hok, fun n hn => (by cases hn)⟩, h₁, hd₁, hvoid _⟩
    | some n =>
        rw [hwalk] at hr
        obtain ⟨ip, rfl, h₁⟩ := hr
        have hmem : (⟨ip, n, true⟩ : Fs.Hold) ∈ (⟨ip, n, true⟩ : Fs.Hold) :: L := List.mem_cons_self
        refine wp_bind.mpr <| (Fs.ilock_held h₁).mono ?_ ?_
        · rintro _ s₂ ⟨h₂, hd₂⟩
          rw [hd₁] at hd₂
          have hlive : (Fs.tree sb s.disk n).type ≠ 0 := hd₂ ▸ h₂.type_ne hmem rfl
          have htype : (s₂.icache ip).type = (Fs.tree sb s.disk n).type := hd₂ ▸ h₂.type_eq hmem rfl
          have hgood : Fs.PathOk (Fs.tree sb s.disk) (Fs.busy b J L) false path (J c) ∧
              ∀ m, some n = some m → (Fs.tree sb s.disk m).type ≠ 0 :=
            ⟨hok, fun m hm => Option.some.inj hm ▸ hlive⟩
          simp only [Fs.inode, wp_bind, wp_gets]
          rw [htype]
          split
          next =>
            refine (Fs.iunlockput_pinned h₂ fun ho => h.pinned (hd₂ ▸ ho)).andThen ?_
            rintro _ t ⟨ht, hd⟩
            exact ⟨hgood, ht, hd.trans hd₂, hvoid _⟩
          next hdir =>
            refine ⟨hgood, n, h₂, fun hmode hd => hdir ⟨?_, hmode⟩, .inl ⟨hd₂, hvoid _⟩⟩
            rw [← hd, hd₂]
        · rintro e ⟨he, h0⟩
          rw [hd₁] at h0
          refine ⟨.inr ⟨he, n, Fs.walk_reach hwalk, h0⟩, fun hall => hall.2 n rfl h0⟩

theorem sysOpen_kept (h : Between sb k) (hp : ¬ (k.ptable p).Dead) (hc : (k.ptable p).cwd = some c)
    (path : List UInt8)
    (omode : UInt32) :
    wp (sysOpen sb p (some path) omode)
      (fun r k' => OpenOk sb k.fs.disk (Fs.busy (refs k.ptable k) (inums k.fs) []) path (inums k.fs c) omode ∧
        Between sb k' ∧
        (∀ j, Fs.Used k.fs j → Fs.Used k'.fs j) ∧
        (k'.tree sb = k.tree sb ∧ (omode &&& oCreate ≠ 0 → ∀ j name, ¬ Lacks (k.tree sb) path
          (inums k.fs c) j name) ∨
          omode &&& oCreate ≠ 0 ∧ (CanOpen k p ∧ 0 ≤ r ∨ ¬ CanOpen k p ∧ r = -1) ∧
            ∃ j n name t₁, Made sb k.fs.disk path (inums k.fs c) Fs.tFile j n name t₁ ∧
              Fs.Swept (Fs.Used k'.fs) t₁ (k'.tree sb)))
      (fun e => Fs.PathPanic (k.tree sb) (Fs.startOf path (inums k.fs c)) e ∧
        ¬ OpenOk sb k.fs.disk (Fs.busy (refs k.ptable k) (inums k.fs) []) path (inums k.fs c) omode) k := by
  obtain ⟨c', hc', hcwd, hpos⟩ := cwd_live h hp
  obtain rfl := Option.some.inj (hc.symm.trans hc')
  rw [sysOpen]
  refine hcwd.andThen ?_
  rintro r k₀ ⟨hr, hk₀⟩
  rw [hr, hk₀]
  refine wp_bind.mpr <| wp_fsM.mpr <| (openInode_held h.kept.held h.kept.shaped hpos h.root path omode).imp ?_
  rintro r s ⟨hok, hr⟩
  cases r with
  | none =>
      obtain ⟨hs, hd, hnot⟩ := hr
      have htree : Fs.tree sb s.disk = k.tree sb := by rw [hd]
      exact ⟨hok, ⟨h.kept.same hs htree, h.procs, h.root⟩, fun m hm => hs.pinned_iff.mp
        (h.kept.held.pinned_iff.mpr hm), .inl ⟨htree, hnot⟩⟩
  | some ip =>
      obtain ⟨n, hs, hmode, hr⟩ := hr
      obtain ⟨t₁, heffect, hswept⟩ : ∃ t₁, Effect sb k.fs.disk (inums k.fs c) (.open (some path) omode) t₁ ∧
          Fs.Swept (Fs.Used s) t₁ (Fs.tree sb s.disk) := by
        rcases hr with ⟨hd, -⟩ | ⟨hcreate, j, name, t₁, hmade, hswept⟩
        · refine ⟨_, .keep _, ?_⟩
          rw [hd]
          exact Fs.Swept.refl _ _
        · exact ⟨t₁, .create (by rw [Call.creates, if_pos hcreate]) hmade, hswept⟩
      have hk₁ : Kept sb k.ptable [] [⟨ip, n, true⟩] { k with fs := s } := h.kept.effect hs heffect hswept
      have hopen : wp (openFile sb p ip omode) _ _ { k with fs := s } := openFile_kept hk₁ h.procs hp hmode
      refine hopen.mono ?_ fun _ => False.elim
      rintro r k' ⟨hk', hprocs, hshrunk, hsame, hused, hr'⟩
      have hbase (m) (hm : Fs.Used k.fs m) : Fs.Pinned (refs k.ptable k) (inums s) [] m := by
        obtain ⟨i, hi, him⟩ | ⟨x, hx, -⟩ := h.kept.held.pinned_iff.mpr hm
        · exact .inl ⟨i, hi, (hs.base i hi).trans him⟩
        · cases hx
      refine ⟨hok, ⟨hk', hprocs, h.root⟩, fun m hm => hused m (hbase m hm), ?_⟩
      rcases hr with ⟨hd, hnot⟩ | ⟨hcreate, j, name, t₁, hmade, hswept⟩
      · refine .inl ⟨?_, hnot⟩
        rw [State.tree, hsame fun ho => ?_]
        · rw [State.tree, ← hd]
        · exact hbase n (h.kept.held.pinned_iff.mp (h.kept.held.pinned (by rw [← hd]; exact ho)))
      · refine .inr ⟨hcreate, ?_, j, n, name, t₁, hmade, (hswept.mono hshrunk.used).trans hshrunk.swept⟩
        exact hr'.imp (by rintro ⟨hcan, hr, _⟩; exact ⟨hcan, hr⟩) id

theorem sysCreate_kept {type : Int16} {call : Call} {path : List UInt8} (h : Between sb k)
    (hp : ¬ (k.ptable p).Dead)
    (hc : (k.ptable p).cwd = some c) (hcall : call.creates = some (path, type)) (h0 : type ≠ 0)
    (hfile : type ≠ Fs.tFile)
    (major minor : Int16) :
    wp (sysCreate sb p (some path) type major minor)
      (fun r k' => Fs.CreateOk sb k.fs.disk (Fs.busy (refs k.ptable k) (inums k.fs) []) path (inums k.fs c) type ∧
        Between sb k' ∧ (∀ j, Fs.Used k'.fs j ↔ Fs.Used k.fs j) ∧
        (r = -1 ∧ k'.tree sb = k.tree sb ∧ (∀ j name, ¬ Lacks (k.tree sb) path (inums k.fs c) j name) ∨
          r = 0 ∧ ∃ j n name t₁, Made sb k.fs.disk path (inums k.fs c) type j n name t₁ ∧
            Fs.Swept (Fs.Used k'.fs) t₁ (k'.tree sb)))
      (fun e => Fs.PathPanic (k.tree sb) (Fs.startOf path (inums k.fs c)) e ∧
        ¬ Fs.CreateOk sb k.fs.disk (Fs.busy (refs k.ptable k) (inums k.fs) []) path (inums k.fs c) type) k := by
  obtain ⟨c', hc', hcwd, hpos⟩ := cwd_live h hp
  obtain rfl := Option.some.inj (hc.symm.trans hc')
  rw [sysCreate]
  refine hcwd.andThen ?_
  rintro r k₀ ⟨hr, hk₀⟩
  rw [hr, hk₀]
  refine wp_bind.mpr <| wp_fsM.mpr <| (Fs.create_held h.kept.held h.kept.shaped hpos h.root h0 path major minor).imp
    ?_
  rintro r s ⟨hok, hr⟩
  have hsame (hd : s.disk = k.fs.disk) (hs : Fs.Held sb (refs k.ptable k) (inums k.fs) [] s) :
      Between sb { k with fs := s } ∧ ∀ j, Fs.Used s j ↔ Fs.Used k.fs j :=
    ⟨⟨h.kept.same hs (by rw [hd]), h.procs, h.root⟩, fun m => hs.pinned_iff.symm.trans h.kept.held.pinned_iff⟩
  unfold Fs.Created at hr
  cases hres : Fs.resolve (k.tree sb) true (Fs.startOf path (inums k.fs c)) [] (Fs.elems path) with
  | none =>
      rw [hres] at hr
      obtain ⟨rfl, hs, hd⟩ := hr
      refine ⟨hok, (hsame hd hs).1, (hsame hd hs).2, .inl ⟨rfl, ?_, fun j name hl =>
        (by cases hres.symm.trans hl.1)⟩⟩
      rw [State.tree, hd]
  | some o =>
      obtain ⟨j, name⟩ := o
      rw [hres] at hr
      dsimp only at hr
      cases hnum : Fs.inumOf (k.tree sb j).ents name with
      | none =>
          rw [hnum] at hr
          obtain ⟨ip, n, rfl, hn, hn0, hfree, hfirst, hs, hswept⟩ := hr
          have hswept := hswept.held hs fun x hx => .inr (by rw [List.mem_singleton.mp hx])
          have hmade : Made sb k.fs.disk path (inums k.fs c) type j n name ((k.tree sb).create j n name type) :=
            ⟨⟨hres, hnum⟩, hfirst, hn, hn0, hfree, rfl⟩
          have hk₁ := h.kept.effect hs (.create hcall hmade) hswept
          refine (iunlockput_kept hk₁).andThen ?_
          rintro _ k' ⟨hk', hshrunk, _, hused, fs, he⟩
          have hp' : k'.ptable = k.ptable := by rw [he]
          refine ⟨hok, ⟨by rw [hp']; exact hk', by rw [hp']; exact h.procs, h.root⟩, fun m => ?_,
            .inr ⟨rfl, j, n, name, _, hmade, ?_⟩⟩
          · rw [← hused m, ← h.kept.held.pinned_iff]
            exact or_congr_left (exists_congr fun i => and_congr_right fun hi => by rw [inums, hs.base i hi])
          · exact (hswept.mono hshrunk.used).trans hshrunk.swept
      | some n =>
          rw [hnum] at hr
          obtain ⟨hd, hr⟩ := hr
          rw [if_neg fun hc => hfile hc.1] at hr
          obtain ⟨rfl, hs⟩ := hr
          refine ⟨hok, (hsame hd hs).1, (hsame hd hs).2, .inl ⟨rfl, ?_, fun j' name' hl => ?_⟩⟩
          · rw [State.tree, hd]
          · obtain ⟨rfl, rfl⟩ := Prod.mk.inj (Option.some.inj (hres.symm.trans hl.1))
            cases hnum.symm.trans hl.2

theorem sysLink_kept (h : Between sb k) (hp : ¬ (k.ptable p).Dead) (hc : (k.ptable p).cwd = some c)
    (old new : List UInt8) :
    wp (sysLink sb p (some old) (some new))
      (fun r k' => Fs.LinkOk sb k.fs.disk (Fs.busy (refs k.ptable k) (inums k.fs) []) old new (inums k.fs c) ∧
        Between sb k' ∧ (∀ j, Fs.Used k.fs j → Fs.Used k'.fs j) ∧ (r = -1 ∧ k'.tree sb = k.tree sb ∨
          r = 0 ∧ ∃ n j name, Fs.walk (k.tree sb) (Fs.startOf old (inums k.fs c)) (Fs.elems old) = some n ∧
            (k.tree sb n).type ≠ 0 ∧ (k.tree sb n).type ≠ Fs.tDir ∧ Lacks (k.tree sb) new (inums k.fs c) j name ∧
            Fs.Swept (Fs.Used k'.fs) ((k.tree sb).linked j name n) (k'.tree sb)))
      (fun e => (Fs.PathPanic (k.tree sb) (Fs.startOf old (inums k.fs c)) e ∨
          Fs.PathPanic (k.tree sb) (Fs.startOf new (inums k.fs c)) e) ∧
        ¬ Fs.LinkOk sb k.fs.disk (Fs.busy (refs k.ptable k) (inums k.fs) []) old new (inums k.fs c)) k := by
  obtain ⟨c', hc', hcwd, hpos⟩ := cwd_live h hp
  obtain rfl := Option.some.inj (hc.symm.trans hc')
  rw [sysLink]
  refine hcwd.andThen fun r k₀ ⟨hr, hk₀⟩ => ?_
  rw [hr, hk₀]
  refine wp_fsM.mpr <| (Fs.sysLink_held h.kept.held h.kept.shaped hpos h.root old new).imp
    fun r s ⟨hok, hs, hr⟩ => ?_
  have hused (m) (hm : Fs.Used k.fs m) : Fs.Used s m := hs.pinned_iff.mp (h.kept.held.pinned_iff.mpr hm)
  rcases hr with ⟨hr, htree⟩ | ⟨hr, n, j, name, hold, hlive, hdir, hres, hnum, hswept⟩
  · exact ⟨hok, ⟨h.kept.same hs htree, h.procs, h.root⟩, hused, .inl ⟨hr, htree⟩⟩
  · have hswept := hswept.held hs fun x hx => .inl hx
    exact ⟨hok, ⟨h.kept.effect hs (.link hold hlive hdir ⟨hres, hnum⟩) hswept, h.procs, h.root⟩, hused,
      .inr ⟨hr, n, j, name, hold, hlive, hdir, ⟨hres, hnum⟩, hswept⟩⟩

theorem sysUnlink_kept (h : Between sb k) (hp : ¬ (k.ptable p).Dead) (hc : (k.ptable p).cwd = some c)
    (path : List UInt8) :
    wp (sysUnlink sb p (some path))
      (fun r k' => Between sb k' ∧ (r = -1 ∧ k'.tree sb = k.tree sb ∨
        r = 0 ∧ ∃ t₁, Effect sb k.fs.disk (inums k.fs c) (.unlink (some path)) t₁ ∧
          Fs.Swept (Fs.Used k'.fs) t₁ (k'.tree sb)))
      (fun e => Fs.UnlinkPanic (k.tree sb) (Fs.startOf path (inums k.fs c)) e ∧
        ¬ Fs.UnlinkOk (k.tree sb) (Fs.busy (refs k.ptable k) (inums k.fs) []) path (inums k.fs c)) k := by
  obtain ⟨c', hc', hcwd, hpos⟩ := cwd_live h hp
  obtain rfl := Option.some.inj (hc.symm.trans hc')
  rw [sysUnlink]
  refine hcwd.andThen fun r k₀ ⟨hr, hk₀⟩ => ?_
  rw [hr, hk₀]
  refine wp_fsM.mpr <| (Fs.sysUnlink_held h.kept.held h.kept.shaped hpos h.root path).imp fun r s ⟨_, hs, hr⟩ => ?_
  rcases hr with ⟨hr, htree⟩ | ⟨hr, j, name, m, n, hres, hname, hlook, hlive, hlink, hbare, hswept⟩
  · exact ⟨⟨h.kept.same hs htree, h.procs, h.root⟩, .inl ⟨hr, htree⟩⟩
  · have hswept := hswept.held hs fun x hx => .inl hx
    have heffect := Effect.unlink hres hname hlook hlive hlink hbare
    exact ⟨⟨h.kept.effect hs heffect hswept, h.procs, h.root⟩, .inr ⟨hr, _, heffect, hswept⟩⟩

end

end Xv6.Kernel
