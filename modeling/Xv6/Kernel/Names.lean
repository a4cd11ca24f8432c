import Xv6.Kernel.Boot

namespace Xv6.Kernel

open Lib Finset
open Lib.Exec hiding update
open Function (update update_apply update_of_ne update_self)

variable {sb : Fs.Layout} {k k' : State} {p : Fin nproc} {c : Fin ninode} {j n : Nat} {path name : List UInt8}
  {type : Int16} {t t' : Fs.Tree} {d : Disk} {cwd : Nat}

def HasName (t : Fs.Tree) (n : Nat) : Prop :=
  ∃ j, (t j).type = Fs.tDir ∧ ∃ de ∈ (t j).ents, de.inum ≠ 0 ∧ de.inum.toNat = n

/-- The same inodes have names, and the directories and the link counts are the same. -/
structure SameNames (t t' : Fs.Tree) : Prop where
  named : ∀ n, (t' n).type ≠ 0 ∧ HasName t' n ↔ (t n).type ≠ 0 ∧ HasName t n
  ents : ∀ j, (t' j).ents = (t j).ents
  nlink : ∀ j, (t' j).nlink = (t j).nlink

theorem SameNames.refl (t : Fs.Tree) : SameNames t t := ⟨fun _ => Iff.rfl, fun _ => rfl, fun _ => rfl⟩

namespace Made

theorem ne_dir (h : Made sb d path cwd type j n name t) : j ≠ n := by
  rintro rfl
  exact absurd (h.free.symm.trans (Fs.resolve_dir h.lacks.1)) (by decide)

theorem ents (h : Made sb d path cwd type j n name t) : (t j).ents =
    Fs.putEnt (Fs.tree sb d j).ents (Fs.vacancy (Fs.tree sb d j).ents) (.of (UInt16.ofNat n) name) := by
  rw [h.eq, Fs.Tree.create, Fs.Tree.link, Fs.Tree.setEnts, update_self, update_of_ne h.ne_dir]
  split
  · rw [Fs.Tree.setNlink_ents]
  · rfl

theorem dir (h : Made sb d path cwd type j n name t) : (t j).type = Fs.tDir := by
  rw [h.eq, Fs.Tree.create_type, if_neg h.ne_dir]
  exact Fs.resolve_dir h.lacks.1

theorem nlink (h : Made sb d path cwd type j n name t) :
    (t j).nlink = if type = Fs.tDir then (Fs.tree sb d j).nlink + 1 else (Fs.tree sb d j).nlink := by
  rw [h.eq, Fs.Tree.create, Fs.Tree.link, Fs.Tree.setEnts_nlink, update_of_ne h.ne_dir]
  split
  · simp [Fs.Tree.setNlink]
  · rfl

theorem new (h : Made sb d path cwd type j n name t) : (t n).type = type ∧ (t n).nlink = 1 := by
  rw [h.eq]
  refine ⟨by rw [Fs.Tree.create_type, if_pos rfl], ?_⟩
  rw [Fs.Tree.create, Fs.Tree.link, Fs.Tree.setEnts_nlink, update_self]

theorem inumOf (h : Made sb d path cwd type j n name t) : Fs.inumOf (t j).ents name = some n := by
  rw [h.ents, Fs.inumOf_link (Fs.ofNat_ne_zero h.lt h.ne) h.lacks.2, Fs.toNat_ofNat_inum h.lt]

theorem same_dir {P : Nat → Prop} (hs : Fs.Swept P t t') (hj : (t j).Orphan → P j) : t' j = t j :=
  (hs j).resolve_right fun ⟨hn, ho, _⟩ => hn (hj ho)

theorem not_sameNames {P : Nat → Prop} (h : Made sb d path cwd type j n name t) (h0 : type ≠ 0)
    (hs : Fs.Swept P t t')
    (hj : (t j).Orphan → P j) : ¬ SameNames (Fs.tree sb d) t' := by
  intro hsame
  have hnew : t' n = t n := same_dir hs fun ho => absurd (h.new.2.symm.trans ho.2) (by decide)
  have hdir : t' j = t j := same_dir hs hj
  have hname : HasName t' n := by
    have hle := Fs.vacancy_le (Fs.tree sb d j).ents
    refine ⟨j, by rw [hdir, h.dir], .of (UInt16.ofNat n) name, ?_, Fs.ofNat_ne_zero h.lt h.ne,
      Fs.toNat_ofNat_inum h.lt⟩
    rw [hdir, h.ents]
    exact List.mem_of_getElem? ((Fs.getElem?_putEnt hle _).trans (if_pos rfl))
  exact ((hsame.named n).mp ⟨by rw [hnew, h.new.1]; exact h0, hname⟩).1 h.free

theorem used_dir (h : Between sb k) (hm : Made sb k.fs.disk path cwd type j n name t) (htype : type ≠ Fs.tDir)
    (ho : (t j).Orphan) : Fs.Used k.fs j := by
  refine h.kept.held.pinned_iff.mp (h.kept.held.pinned ⟨?_, ?_⟩)
  · rw [Fs.resolve_dir hm.lacks.1]
    decide
  · rw [← ho.2, hm.nlink, if_neg htype]

end Made

theorem Lacks.unique {name' : List UInt8} {j' : Nat} (h : Lacks t path cwd j name)
    (h' : Lacks t path cwd j' name') :
    j' = j ∧ name' = name := Prod.mk.inj (Option.some.inj (h'.1.symm.trans h.1))

def Call.OnNames : Call → Prop
  | .open .. | .link .. | .unlink .. | .mkdir .. | .mknod .. => True
  | _ => False

abbrev State.busy (k : State) : Finset Nat := Fs.busy (refs k.ptable k) (inums k.fs) []

def Call.Strands (sb : Fs.Layout) (k : State) (p : Fin nproc) : Call → Prop
  | .open (some path) omode => omode &&& oCreate ≠ 0 ∧ ¬ CanOpen k p ∧ ∃ c j name, (k.ptable p).cwd = some c ∧
      Fs.CreateOk sb k.fs.disk k.busy path (inums k.fs c) Fs.tFile ∧ Lacks (k.tree sb) path (inums k.fs c) j name
  | _ => False

theorem panics {m : KM Int} {Q : Int → State → Prop} {X : Halt → Prop} (h : wp m Q X k) (hQ : ∀ r k', ¬ Q r k')
    (hX : ∀ e, X e → ∃ w, e = .panic w) : ∃ w, m k = .error (.panic w) := by
  cases hm : m k with
  | ok r => exact absurd ((wp_iff.mp h).1 r.1 r.2 hm) (hQ _ _)
  | error e =>
      obtain ⟨w, rfl⟩ := hX e ((wp_iff.mp h).2 e hm)
      exact ⟨w, rfl⟩

theorem pathPanic_panic {e : Halt} (h : Fs.PathPanic t cwd e) : ∃ w, e = .panic w := by
  rcases h with (h | h | h | h) | ⟨h, -⟩ <;> exact ⟨_, h⟩

theorem not_createOk (hl : Lacks (k.tree sb) path cwd j name) (hfull : Fs.DirFull (k.tree sb j).ents)
    (U : Finset Nat) :
    ¬ Fs.CreateOk sb k.fs.disk U path cwd type := by
  intro hok
  have hcan := hok.2 j name hl.1
  rw [hl.2] at hcan
  exact hcan.2.1 hfull

section

variable [Fs.Devsw]

theorem sysCreate_fails {a : Call} {major minor : Int16} (h : Between sb k) (hp : ¬ (k.ptable p).Dead)
    (hc : (k.ptable p).cwd = some c) (ha : a.creates = some (path, type)) (h0 : type ≠ 0) (hfile : type ≠ Fs.tFile)
    (hr : sysCreate sb p (some path) type major minor k = .ok (-1, k')) : k'.tree sb = k.tree sb := by
  rcases ((wp_iff.mp (sysCreate_kept h hp hc ha h0 hfile major minor)).1 _ _ hr).2.2.2 with ⟨-, htree, -⟩ | ⟨hr, -⟩
  · exact htree
  · cases hr

/-- A call on names that fails leaves the names as they were, unless it is `open` with `O_CREATE` of a new
name while the file table or the descriptors of the process are used up. -/
theorem failing_call_keeps_names {a : Call} (h : Between sb k) (hp : ¬ (k.ptable p).Dead) (ha : a.OnNames) :
    (∀ k', a.run sb p k = .ok (-1, k') → SameNames (k.tree sb) (k'.tree sb)) ↔ ¬ a.Strands sb k p := by
  obtain ⟨c, hc, -, -⟩ := cwd_live h hp
  have hsame {k' : State} (htree : k'.tree sb = k.tree sb) : SameNames (k.tree sb) (k'.tree sb) := by
    rw [htree]
    exact .refl _
  have hquit {k' : State} (hr : (pure (-1) : KM Int) k = .ok (-1, k')) : k'.tree sb = k.tree sb := by
    cases hr
    rfl
  cases a with
  | «open» path omode =>
      cases path with
      | none => exact iff_of_true (fun k' hr => hsame (hquit hr)) id
      | some path =>
          have hspec := wp_iff.mp (sysOpen_kept h hp hc path omode)
          constructor
          · rintro hall ⟨hcreate, hfull, c', j, name, hc', hok, hlacks⟩
            obtain rfl := Option.some.inj (hc.symm.trans hc')
            have hopen : OpenOk sb k.fs.disk k.busy path (inums k.fs c) omode := by
              rw [OpenOk, if_pos hcreate]
              exact hok
            cases hrun : sysOpen sb p (some path) omode k with
            | error e => exact (hspec.2 e hrun).2 hopen
            | ok r =>
                obtain ⟨r, k'⟩ := r
                obtain ⟨-, hk', hused, ⟨-, hnot⟩ | ⟨-, hr, j', n, name', t₁, hmade, hswept⟩⟩ := hspec.1 r k' hrun
                · exact hnot hcreate j name hlacks
                · obtain ⟨hcan, -⟩ | ⟨-, rfl⟩ := hr
                  · exact hfull hcan
                  · exact hmade.not_sameNames (by decide) hswept
                      (fun ho => hused _ (hmade.used_dir h (by decide) ho))
                      (hall k' hrun)
          · intro hnot k' hr
            obtain ⟨hok, -, -, ⟨htree, -⟩ | ⟨hcreate, hcan, j, n, name, t₁, hmade, -⟩⟩ := hspec.1 _ _ hr
            · exact hsame htree
            · rw [OpenOk, if_pos hcreate] at hok
              refine absurd ⟨hcreate, fun hc => ?_, c, j, name, hc, hok, hmade.lacks⟩ hnot
              rcases hcan with ⟨-, hneg⟩ | ⟨hfull, -⟩
              · exact absurd hneg (by decide)
              · exact hfull hc
  | link old new =>
      refine iff_of_true (fun k' hr => hsame ?_) id
      cases old with
      | none => exact hquit hr
      | some old =>
          cases new with
          | none => exact hquit hr
          | some new =>
              rcases ((wp_iff.mp (sysLink_kept h hp hc old new)).1 _ _ hr).2.2.2 with ⟨-, htree⟩ | ⟨hr, -⟩
              · exact htree
              · cases hr
  | unlink path =>
      refine iff_of_true (fun k' hr => hsame ?_) id
      cases path with
      | none => exact hquit hr
      | some path =>
          rcases ((wp_iff.mp (sysUnlink_kept h hp hc path)).1 _ _ hr).2 with ⟨-, htree⟩ | ⟨hr, -⟩
          · exact htree
          · cases hr
  | mkdir path =>
      refine iff_of_true (fun k' hr => hsame ?_) id
      cases path with
      | none => exact hquit hr
      | some path =>
          exact sysCreate_fails h hp hc (show (Call.mkdir (some path)).creates = _ from rfl) (by decide)
            (by decide) hr
  | mknod path major minor =>
      refine iff_of_true (fun k' hr => hsame ?_) id
      cases path with
      | none => exact hquit hr
      | some path =>
          exact sysCreate_fails h hp hc (show (Call.mknod (some path) major minor).creates = _ from rfl)
            (by decide) (by decide) hr
  | dup | close | pipe | fork | exec | chdir | exit | wait => exact ha.elim

end

section

attribute [local instance] Fs.noDevices

/-- `link` has counted the new name before it finds that the name is there. -/
theorem failing_call_keeps_names_link : ∃ k',
    (Call.link (some [47, 97]) (some [47, 97])).run Mkfs.sb 0 (boot (mkfsImage [Mkfs.letter 0])) = .ok (-1, k') ∧
      SameNames ((boot (mkfsImage [Mkfs.letter 0])).tree Mkfs.sb) (k'.tree Mkfs.sb) := by
  have hany : ((Call.link (some [47, 97]) (some [47, 97])).run Mkfs.sb 0
      (boot (mkfsImage [Mkfs.letter 0]))).toOption.any fun x => decide (x.1 = -1) := by decide +kernel
  obtain ⟨n, k', hrun, hn⟩ := ok_of_any hany
  obtain rfl : n = -1 := of_decide_eq_true hn
  have hbetween : Between Mkfs.sb (boot (mkfsImage [Mkfs.letter 0])) :=
    between_mkfsImage (by decide +kernel) (by decide) (by decide +kernel) (by decide +kernel)
  have hlive : ¬ ((boot (mkfsImage [Mkfs.letter 0])).ptable 0).Dead := by decide +kernel
  exact ⟨k', hrun, (failing_call_keeps_names (a := .link (some [47, 97]) (some [47, 97])) hbetween hlive
    trivial).mpr id k' hrun⟩

/-- When all descriptors of a process are in use, `open` fails and leaves the file that it has created. -/
theorem open_leaves_file : ∃ k k', Runs.run (Call.step Mkfs.sb) (boot emptyImage)
      ((0, .open (some [47]) 0) :: List.replicate 15 (0, .dup 0)) = some k ∧
    (Call.open (some [98]) 0x202).run Mkfs.sb 0 k = .ok (-1, k') ∧
    (k.tree Mkfs.sb 2).nlink = 0 ∧ (k'.tree Mkfs.sb 2).nlink = 1 := by
  obtain ⟨k, hk, hr⟩ := (Option.any_eq_true _ _).mp (show (Runs.run (Call.step Mkfs.sb) (boot emptyImage)
    ((0, .open (some [47]) 0) :: List.replicate 15 (0, .dup 0))).any (fun k =>
      ((Call.open (some [98]) 0x202).run Mkfs.sb 0 k).toOption.any fun x =>
        decide (x.1 = -1 ∧ (k.tree Mkfs.sb 2).nlink = 0 ∧ (x.2.tree Mkfs.sb 2).nlink = 1)) = true by decide +kernel)
  obtain ⟨n, k', hrun, hx⟩ := ok_of_any hr
  obtain ⟨rfl, h⟩ := of_decide_eq_true hx
  exact ⟨k, k', hk, hrun, h⟩

end

section

variable [Fs.Devsw]

theorem sysCreate_enters {a : Call} (h : Between sb k) (hp : ¬ (k.ptable p).Dead) (hc : (k.ptable p).cwd = some c)
    (ha : a.creates = some (path, type)) (h0 : type ≠ 0) (hfile : type ≠ Fs.tFile) (major minor : Int16)
    (hl : Lacks (k.tree sb) path (inums k.fs c) j name) :
    (∃ r k', sysCreate sb p (some path) type major minor k = .ok (r, k') ∧
        (r = -1 ∧ k'.tree sb = k.tree sb ∨ 0 ≤ r ∧ ∃ n, Fs.inumOf (k'.tree sb j).ents name = some n)) ↔
      Fs.CreateOk sb k.fs.disk k.busy path (inums k.fs c) type ∧
        (type = Fs.tDir → (k.tree sb j).nlink = -1 → Fs.Used k.fs j) := by
  have hspec := wp_iff.mp (sysCreate_kept h hp hc ha h0 hfile major minor)
  constructor
  · rintro ⟨r, k', hrun, hr⟩
    obtain ⟨hok, hk', hused, ⟨-, -, hnot⟩ | ⟨hr0, j', n, name', t₁, hmade, hswept⟩⟩ := hspec.1 r k' hrun
    · exact absurd hl (hnot j name)
    · obtain ⟨rfl, rfl⟩ := hl.unique hmade.lacks
      refine ⟨hok, fun htype hneg => ?_⟩
      rcases hr with ⟨hr, -⟩ | ⟨-, m, hm⟩
      · exact absurd (hr.symm.trans hr0) (by decide)
      · have horphan : (t₁ j').Orphan := by
          refine ⟨by rw [hmade.dir]; decide, ?_⟩
          rw [hmade.nlink, if_pos htype, hneg]
          decide
        rcases hswept j' with hsame | ⟨-, -, hgone⟩
        · rw [← hsame] at horphan
          exact (hused _).mp (hk'.kept.held.pinned_iff.mp (hk'.kept.held.pinned horphan))
        · rw [hgone] at hm
          cases hm
  · rintro ⟨hok, hlink⟩
    cases hrun : sysCreate sb p (some path) type major minor k with
    | error e => exact absurd hok (hspec.2 e hrun).2
    | ok r =>
        obtain ⟨r, k'⟩ := r
        obtain ⟨-, hk', hused, ⟨-, -, hnot⟩ | ⟨hr, j', n, name', t₁, hmade, hswept⟩⟩ := hspec.1 r k' hrun
        · exact absurd hl (hnot j name)
        · obtain ⟨rfl, rfl⟩ := hl.unique hmade.lacks
          refine ⟨r, k', rfl, .inr ⟨by rw [hr], n, ?_⟩⟩
          rw [Made.same_dir hswept fun ho => (hused _).mpr ?_]
          · exact hmade.inumOf
          · by_cases htype : type = Fs.tDir
            · have hzero := ho.2
              rw [hmade.nlink, if_pos htype] at hzero
              exact hlink htype (by rw [← Int16.add_sub_cancel (k.tree sb j').nlink 1, hzero]; rfl)
            · exact hmade.used_dir h htype ho

def Call.target : Call → Option (List UInt8)
  | .open (some path) omode => if omode &&& oCreate ≠ 0 then some path else none
  | .mkdir (some path) => some path
  | .mknod (some path) _ _ => some path
  | .link (some _) (some new) => some new
  | _ => none

/-- What it takes to enter a name into directory `j`: above all, room in the directory. -/
def Call.Room (sb : Fs.Layout) (k : State) (p : Fin nproc) (cwd j : Nat) : Call → Prop
  | .open (some path) _ => Fs.CreateOk sb k.fs.disk k.busy path cwd Fs.tFile ∧ CanOpen k p
  | .mkdir (some path) =>
      Fs.CreateOk sb k.fs.disk k.busy path cwd Fs.tDir ∧ ((k.tree sb j).nlink = -1 → Fs.Used k.fs j)
  | .mknod (some path) _ _ => Fs.CreateOk sb k.fs.disk k.busy path cwd Fs.tDev
  | .link (some old) (some new) => Fs.LinkOk sb k.fs.disk k.busy old new cwd
  | _ => True

def EntersOrFails (sb : Fs.Layout) (k : State) (p : Fin nproc) (a : Call) (j : Nat) (name : List UInt8) : Prop :=
  ∃ r k', a.run sb p k = .ok (r, k') ∧
    (r = -1 ∧ k'.tree sb = k.tree sb ∨ 0 ≤ r ∧ ∃ n, Fs.inumOf (k'.tree sb j).ents name = some n)

theorem sysOpen_enters {omode : UInt32} (h : Between sb k) (hp : ¬ (k.ptable p).Dead)
    (hc : (k.ptable p).cwd = some c)
    (hcreate : omode &&& oCreate ≠ 0) (hl : Lacks (k.tree sb) path (inums k.fs c) j name) :
    EntersOrFails sb k p (.open (some path) omode) j name ↔
      Fs.CreateOk sb k.fs.disk k.busy path (inums k.fs c) Fs.tFile ∧ CanOpen k p := by
  have hspec := wp_iff.mp (sysOpen_kept h hp hc path omode)
  rw [OpenOk, if_pos hcreate] at hspec
  constructor
  · rintro ⟨r, k', hrun, hr⟩
    obtain ⟨hok, -, hused, ⟨-, hnot⟩ | ⟨-, hcan, j', n, name', t₁, hmade, hswept⟩⟩ := hspec.1 r k' hrun
    · exact absurd hl (hnot hcreate j name)
    · obtain ⟨rfl, rfl⟩ := hl.unique hmade.lacks
      refine ⟨hok, ?_⟩
      obtain ⟨hcan, -⟩ | ⟨-, hneg⟩ := hcan
      · exact hcan
      · obtain ⟨-, htree⟩ | ⟨hr, -⟩ := hr
        · refine absurd ?_ (hmade.not_sameNames (by decide) hswept fun ho =>
            hused _ (hmade.used_dir h (by decide) ho))
          rw [htree]
          exact .refl _
        · rw [hneg] at hr
          exact absurd hr (by decide)
  · rintro ⟨hok, hcan⟩
    cases hrun : sysOpen sb p (some path) omode k with
    | error e => exact absurd hok (hspec.2 e hrun).2
    | ok r =>
        obtain ⟨r, k'⟩ := r
        obtain ⟨-, -, hused, ⟨-, hnot⟩ | ⟨-, hr, j', n, name', t₁, hmade, hswept⟩⟩ := hspec.1 r k' hrun
        · exact absurd hl (hnot hcreate j name)
        · obtain ⟨rfl, rfl⟩ := hl.unique hmade.lacks
          obtain ⟨-, hr⟩ | ⟨hfull, -⟩ := hr
          · refine ⟨r, k', hrun, .inr ⟨hr, n, ?_⟩⟩
            rw [Made.same_dir hswept fun ho => hused _ (hmade.used_dir h (by decide) ho)]
            exact hmade.inumOf
          · exact absurd hcan hfull

theorem sysLink_enters {old new : List UInt8} (h : Between sb k) (hp : ¬ (k.ptable p).Dead)
    (hc : (k.ptable p).cwd = some c)
    (hl : Lacks (k.tree sb) new (inums k.fs c) j name) :
    EntersOrFails sb k p (.link (some old) (some new)) j name ↔ Fs.LinkOk sb k.fs.disk k.busy old new
      (inums k.fs c) := by
  have hspec := wp_iff.mp (sysLink_kept h hp hc old new)
  constructor
  · rintro ⟨r, k', hrun, -⟩
    exact (hspec.1 r k' hrun).1
  · intro hok
    cases hrun : sysLink sb p (some old) (some new) k with
    | error e => exact absurd hok (hspec.2 e hrun).2
    | ok r =>
        obtain ⟨r, k'⟩ := r
        obtain ⟨-, hk', hused, hfail | ⟨hr, n, j', name', hold, hlive, hdir, hlacks, hswept⟩⟩ := hspec.1 r k' hrun
        · exact ⟨r, k', hrun, .inl hfail⟩
        · obtain ⟨rfl, rfl⟩ := hl.unique hlacks
          have hj : (k.tree sb j').type = Fs.tDir := Fs.resolve_dir hlacks.1
          have hne : j' ≠ n := by
            rintro rfl
            exact hdir hj
          refine ⟨r, k', hrun, .inr ⟨by rw [hr], n, ?_⟩⟩
          rw [Made.same_dir hswept fun ho => hused _ (h.kept.held.pinned_iff.mp (h.kept.held.pinned ⟨?_, ?_⟩)),
            Fs.Tree.linked, Fs.Tree.link, Fs.Tree.setEnts, update_self, Fs.Tree.setNlink_ents]
          · have hn := Fs.lt_of_type_ne hlive
            rw [Fs.inumOf_link (Fs.ofNat_ne_zero hn ?_) hlacks.2, Fs.toNat_ofNat_inum hn]
            rcases (Fs.walk_reach hold).ne_zero with hstart | h0
            · rw [hstart, Fs.startOf]
              split
              next => decide
              next hpath =>
                -- the current directory cannot be linked
                rw [hstart, Fs.startOf, if_neg hpath] at hdir
                exact absurd (h.kept.cwd p c hc) hdir
            · exact h0
          · rw [hj]
            decide
          · rw [← ho.2, Fs.Tree.linked, Fs.Tree.link, Fs.Tree.setEnts_nlink, Fs.Tree.setNlink_of_ne hne]

/-- A call that is to enter a new name enters it or fails without an effect, if the tables, the disk and the
directory have room for it; otherwise it panics, or `open` leaves behind the name that it has entered. -/
theorem full_directory {a : Call} (h : Between sb k) (hp : ¬ (k.ptable p).Dead) (hc : (k.ptable p).cwd = some c)
    (ha : a.target = some path) (hl : Lacks (k.tree sb) path (inums k.fs c) j name) :
    EntersOrFails sb k p a j name ↔ a.Room sb k p (inums k.fs c) j := by
  match a with
  | .open (some path') omode =>
      rw [Call.target] at ha
      split at ha
      next hcreate =>
        obtain rfl := Option.some.inj ha
        exact sysOpen_enters h hp hc hcreate hl
      next => cases ha
  | .mkdir (some path') =>
      obtain rfl := Option.some.inj ha
      refine (sysCreate_enters h hp hc (show (Call.mkdir (some path')).creates = _ from rfl) (by decide)
        (by decide) 0 0 hl).trans ?_
      exact and_congr_right fun _ => ⟨fun hneg => hneg rfl, fun hneg _ => hneg⟩
  | .mknod (some path') major minor =>
      obtain rfl := Option.some.inj ha
      refine (sysCreate_enters h hp hc (show (Call.mknod (some path') major minor).creates = _ from rfl)
        (by decide) (by decide)
        major minor hl).trans ?_
      exact and_iff_left fun hdir => absurd hdir (by decide)
  | .link (some old) (some new) =>
      obtain rfl := Option.some.inj ha
      exact sysLink_enters h hp hc hl

theorem dirFull_panics {a : Call} (h : Between sb k) (hp : ¬ (k.ptable p).Dead) (hc : (k.ptable p).cwd = some c)
    (ha : a.target = some path) (hl : Lacks (k.tree sb) path (inums k.fs c) j name)
    (hfull : Fs.DirFull (k.tree sb j).ents)
    (hold : ∀ old, a = .link (some old) (some path) →
      ∃ n, Fs.walk (k.tree sb) (Fs.startOf old (inums k.fs c)) (Fs.elems old) = some n ∧ (k.tree sb n).type ≠
        Fs.tDir) :
    ∃ w, a.run sb p k = .error (.panic w) := by
  match a with
  | .open (some path') omode =>
      rw [Call.target] at ha
      split at ha
      next hcreate =>
        obtain rfl := Option.some.inj ha
        refine panics (sysOpen_kept h hp hc path' omode) (fun r k' hok => ?_) fun e he => pathPanic_panic he.1
        have hok := hok.1
        rw [OpenOk, if_pos hcreate] at hok
        exact not_createOk hl hfull _ hok
      next => cases ha
  | .mkdir (some path') =>
      obtain rfl := Option.some.inj ha
      exact panics (sysCreate_kept h hp hc (show (Call.mkdir (some path')).creates = _ from rfl) (by decide)
        (by decide) 0 0)
        (fun r k' hok => not_createOk hl hfull _ hok.1) fun e he => pathPanic_panic he.1
  | .mknod (some path') major minor =>
      obtain rfl := Option.some.inj ha
      exact panics (sysCreate_kept h hp hc (show (Call.mknod (some path') major minor).creates = _ from rfl)
        (by decide)
        (by decide) major minor) (fun r k' hok => not_createOk hl hfull _ hok.1) fun e he => pathPanic_panic he.1
  | .link (some old) (some new) =>
      obtain rfl := Option.some.inj ha
      refine panics (sysLink_kept h hp hc old new) (fun r k' hok => ?_) fun e he => he.1.elim pathPanic_panic
        pathPanic_panic
      obtain ⟨n, hwalk, hdir⟩ := hold old rfl
      have hcan := (((hok.1.2 n hwalk).2 hdir).2 j name hl.1)
      rw [hl.2] at hcan
      exact hcan.1 hfull

end

section

attribute [local instance] Fs.noDevices

theorem full_directory_root : Lacks ((boot emptyImage).tree Mkfs.sb) [97] 1 1 [97] ∧
    (EntersOrFails Mkfs.sb (boot emptyImage) 0 (.mkdir (some [97])) 1 [97] ↔
      (Call.mkdir (some [97])).Room Mkfs.sb (boot emptyImage) 0 1 1) := by
  have hlacks : Lacks ((boot emptyImage).tree Mkfs.sb) [97] 1 1 [97] := by
    unfold Lacks
    decide +kernel
  have hlive : ¬ ((boot emptyImage).ptable 0).Dead := by decide +kernel
  exact ⟨hlacks, full_directory between_emptyImage hlive rfl rfl hlacks⟩

end

section Full

attribute [local instance] Fs.noDevices

def wide : Fs.Layout := ⟨⟨200, 198, 4, 0, 0, 0, 1⟩, by decide, by decide, by decide, by decide⟩

def fullEnt (m : Nat) : Fs.Dirent :=
  if m = 0 then .of 1 Fs.dot else if m = 1 then .of 1 Fs.dotdot
  else .of 2 [UInt8.ofNat (65 + m % 64), UInt8.ofNat (65 + m / 64)]

def fullEnts : List Fs.Dirent := (List.range 4480).map fullEnt

def unfilled : Fs.State where
  disk := Fs.putNode wide (Fs.putNode wide (update (fun _ _ => 0) 1
    (Lib.Bytes.setBit (Lib.Bytes.setBit (fun _ => 0) 0) 1)) 1
    { Fs.Dinode.fresh Fs.tDir with nlink := 1 }) 2 { Fs.Dinode.fresh Fs.tFile with nlink := 4478 }
  icache := update Fs.ICache.empty 0 ⟨{ Fs.Dinode.fresh Fs.tDir with nlink := 1 }, rootdev, 1, 1, true⟩

def bootOn : Except Halt (Int × Fs.State) → State
  | .ok (_, s) => { boot s.disk with fs := s }
  | .error _ => boot emptyImage

def full : State := bootOn (Fs.writei wide 0 (fun p => (fullEnt (p / 16)).src (p % 16)) 0 71680 unfilled)

theorem consistent_unfilled : Fs.Consistent wide unfilled := by
  have hentry (i : Fin ninode) (hi : 0 < (unfilled.icache i).ref) : i = 0 := by
    by_contra hne
    simp [unfilled, hne, Fs.ICache.empty] at hi
  refine .of_empty (fun j hj => ?_) (fun b hb => ?_) ⟨fun i hi => ?_, fun i hi => ?_, fun i j hi hj _ => ?_,
    fun i hi _ => ?_⟩
    fun i hi _ => ?_
  · revert j
    decide +kernel
  · rw [unfilled, Fs.putNode, Fs.inUse_of_inode wide _ _ (by decide), Fs.putNode,
      Fs.inUse_of_inode wide _ _ (by decide)]
    revert b
    decide +kernel
  · obtain rfl := hentry i hi
    rfl
  · obtain rfl := hentry i hi
    show 1 < wide.ninodes
    decide
  · rw [hentry i hi, hentry j hj]
  · obtain rfl := hentry i hi
    show Fs.tDir ≠ 0
    decide
  · obtain rfl := hentry i hi
    rw [show (unfilled.icache 0).inum = 1 from rfl, unfilled, Fs.dinode_putNode, if_neg (by decide),
      Fs.dinode_putNode, if_pos rfl]
    rfl

theorem full_spec : ∃ s, full = { boot s.disk with fs := s } ∧ (s.icache 0).inum = 1 ∧ Between wide full ∧
    full.tree wide = update (update (fun _ => .unused) 2
    ⟨Fs.tFile, 4478, [], 0⟩) 1 ⟨Fs.tDir, 1, fullEnts, 0⟩ := by
  have hname (m) : (fullEnt m).name.length = dirsiz := by
    unfold fullEnt
    split
    · rfl
    · split
      · rfl
      · exact Cstr.length_strncpy _ _
  have hinum (m) : (fullEnt m).inum.toNat < 4 := by
    unfold fullEnt
    split
    · decide
    · split
      · decide
      · show (2 : UInt16).toNat < 4
        decide
  obtain ⟨s, x, hw, hx⟩ : ∃ s x, Fs.writei wide 0 (fun p => (fullEnt (p / 16)).src (p % 16)) 0 71680 unfilled =
    .ok (71680, s) ∧
      Fs.Written wide 0 (fun p => (fullEnt (p / 16)).src (p % 16)) 0 (16 * 4480) unfilled s x :=
    Fs.writei_ok consistent_unfilled (by decide) (by decide) (by decide) (by unfold Fs.WriteBad; decide)
      (by decide +kernel)
  have hfull : full = { boot s.disk with fs := s } := congrArg bootOn hw
  have hothers (j : Nat) (hj : j ≠ 1) : Fs.tree wide unfilled.disk j =
      update (fun _ => Fs.Node.unused) 2 ⟨Fs.tFile, 4478, [], 0⟩ j := by
    by_cases hlt : j < 4
    · revert hj
      revert j
      decide +kernel
    · rw [update_of_ne (by omega)]
      exact if_neg hlt
  have htree : Fs.tree wide s.disk = update (update (fun _ => .unused) 2 ⟨Fs.tFile, 4478, [], 0⟩) 1
      ⟨Fs.tDir, 1, fullEnts, 0⟩ := by
    rw [hx.touched.tree_eq (by decide) consistent_unfilled.filled, hx.node_fill hname (by decide) (by decide)]
    funext j
    by_cases hj : j = 1
    · rw [hj, update_self]
      exact update_self ..
    · rw [update_of_ne hj, ← hothers j hj]
      exact update_of_ne hj ..
  have href (i : Fin ninode) : (s.icache i).ref = if i = 0 then 1 else 0 := by
    rw [hx.icache]
    by_cases hi : i = 0
    · rw [hi, update_self]
      rfl
    · rw [update_of_ne hi, if_neg hi]
      simp [unfilled, hi, Fs.ICache.empty]
  have hdir (j : Nat) (hj : (Fs.tree wide s.disk j).type = Fs.tDir) : j = 1 := by
    by_contra hne
    rw [htree, update_of_ne hne, update_apply] at hj
    split at hj
    · exact absurd hj (by decide)
    · exact absurd hj (by decide)
  have hroot : (s.icache 0).inum = 1 := by
    rw [hx.icache]
    rfl
  refine ⟨s, hfull, hroot, ?_⟩
  rw [hfull]
  refine ⟨between_boot hx.consistent href hroot ⟨fun j hj => ?_, fun j m de hj hde => ?_⟩ ?_ fun j hj => ?_, htree⟩
  · rw [hdir j hj, htree]
    rfl
  · rw [hdir j hj, htree] at hde
    simp only [update_self] at hde
    obtain ⟨l, -, rfl⟩ := List.mem_map.mp (List.mem_of_getElem? hde)
    exact hinum l
  · rw [htree]
    rfl
  · rw [htree] at hj
    by_cases h1 : j = 1
    · rw [h1, update_self] at hj
      exact absurd hj.2 (show (1 : Int16) ≠ 0 by decide)
    · rw [update_of_ne h1, update_apply] at hj
      split at hj
      · exact absurd hj (by decide)
      · exact absurd hj (by decide)

theorem fullEnt_ne_zero (m : Nat) : (fullEnt m).inum ≠ 0 := by
  unfold fullEnt
  split
  · decide
  · split
    · decide
    · show (2 : UInt16) ≠ 0
      decide

theorem dirFull_full : Fs.DirFull fullEnts := by
  have hnone : Fs.firstFrom (·.inum = 0) 0 fullEnts = none := by
    refine Fs.firstFrom_zero_eq_none.mpr fun m de hde => ?_
    obtain ⟨l, -, rfl⟩ := List.mem_map.mp (List.mem_of_getElem? hde)
    exact fullEnt_ne_zero l
  rw [Fs.DirFull, Fs.vacancy, hnone, Option.getD_none, fullEnts, List.length_map, List.length_range]
  decide

theorem inumOf_full : Fs.inumOf fullEnts [97, 97, 97] = none := by
  refine Fs.inumOf_eq_none.mpr fun m de hde his => ?_
  obtain ⟨l, -, rfl⟩ := List.mem_map.mp (List.mem_of_getElem? hde)
  have hlen : (fullEnt l).text.length ≤ 2 := by
    unfold fullEnt
    split
    · decide
    · split
      · decide
      · rw [Fs.Dirent.text_of]
        exact (List.takeWhile_prefix _).length_le.trans (List.length_take_le' _ _)
  rw [← his.2] at hlen
  exact absurd hlen (by decide)

theorem lookup_full : Fs.inumOf fullEnts [67, 65] = some 2 := by
  refine Option.map_eq_some_iff.mpr ⟨(2, 2), Fs.lookup_eq_some.mpr ⟨⟨fullEnt 2, ?_, by decide, rfl⟩,
    fun m hm de hde => ?_⟩, rfl⟩
  · rw [fullEnts, List.getElem?_map, List.getElem?_range (by decide)]
    rfl
  · rw [fullEnts, List.getElem?_map, List.getElem?_range (by omega)] at hde
    obtain rfl := Option.some.inj hde
    revert m
    decide

attribute [irreducible] fullEnts full

/-- In a full directory every call panics that is to enter a name, although there are inodes and blocks left. -/
theorem full_directory_panics : Between wide full ∧ Fs.DirFull (full.tree wide 1).ents ∧
    Lacks (full.tree wide) [97, 97, 97] 1 1 [97, 97, 97] ∧
    (∃ w, sysLink wide 0 (some [67, 65]) (some [97, 97, 97]) full = .error (.panic w)) ∧
    (∃ w, sysOpen wide 0 (some [97, 97, 97]) 0x202 full = .error (.panic w)) ∧
    (∃ w, sysMkdir wide 0 (some [97, 97, 97]) full = .error (.panic w)) ∧
    ∃ w, sysMknod wide 0 (some [97, 97, 97]) 1 1 full = .error (.panic w) := by
  obtain ⟨s, hfull, hroot, h, htree⟩ := full_spec
  have hnode : full.tree wide 1 = ⟨Fs.tDir, 1, fullEnts, 0⟩ := by rw [htree, update_self]
  have hinum : inums full.fs 0 = 1 := by
    rw [hfull]
    exact hroot
  have hproc : full.ptable 0 = (boot s.disk).ptable 0 := by rw [hfull]
  have hlive : ¬ (full.ptable 0).Dead := by
    rw [hproc]
    exact show ¬ ((boot s.disk).ptable 0).Dead by simp [boot, Proc.Dead]
  have hcwd : (full.ptable 0).cwd = some 0 := by
    rw [hproc]
    rfl
  have hdir : Fs.DirFull (full.tree wide 1).ents := by
    rw [hnode]
    exact dirFull_full
  have hlacks : Lacks (full.tree wide) [97, 97, 97] 1 1 [97, 97, 97] := by
    refine ⟨?_, by rw [hnode]; exact inumOf_full⟩
    rw [show Fs.elems [97, 97, 97] = [[97, 97, 97]] by decide, show Fs.startOf [97, 97, 97] 1 = 1 from rfl,
      Fs.resolve, hnode, if_pos rfl, if_pos ⟨rfl, rfl⟩]
  have hlacks' : Lacks (full.tree wide) [97, 97, 97] (inums full.fs 0) 1 [97, 97, 97] := by
    rw [hinum]
    exact hlacks
  have hpanic {a : Call} (ha : a.target = some [97, 97, 97]) := dirFull_panics h hlive hcwd ha hlacks' hdir
  refine ⟨h, hdir, hlacks, ?_, ?_, ?_, ?_⟩
  · refine hpanic (a := .link (some [67, 65]) (some [97, 97, 97])) rfl fun old hold => ⟨2, ?_, ?_⟩
    · obtain rfl : [67, 65] = old := by
        cases hold
        rfl
      rw [hinum, show Fs.elems [67, 65] = [[67, 65]] by decide, show Fs.startOf [67, 65] 1 = 1 from rfl,
        Fs.walk, hnode, if_pos rfl, lookup_full]
      rfl
    · rw [htree]
      show Fs.tFile ≠ Fs.tDir
      decide
  · exact hpanic (a := .open (some [97, 97, 97]) 0x202) (by decide) (fun old hold => by cases hold)
  · exact hpanic (a := .mkdir (some [97, 97, 97])) rfl (fun old hold => by cases hold)
  · exact hpanic (a := .mknod (some [97, 97, 97]) 1 1) rfl (fun old hold => by cases hold)

end Full

end Xv6.Kernel
