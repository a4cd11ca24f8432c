import Xv6.Fs.Namespace

namespace Xv6.Fs

open Lib Lib.Exec

variable {sb : Layout} {b J : Fin ninode → Nat} {s t : State} {cwd ip : Fin ninode} {j n : Nat} {L : List Hold}
    {T : Tree}
  {name : List UInt8} {e : Halt}

def CreateOk (sb : Layout) (d : Disk) (U : Finset Nat) (path : List UInt8) (cwd : Nat) (type : Int16) : Prop :=
  PathOk (tree sb d) U true path cwd ∧
    ∀ j name, resolve (tree sb d) true (startOf path cwd) [] (elems path) = some (j, name) →
      match inumOf (tree sb d j).ents name with
      | none => CanCreate sb d (insert j U) j type
      | some n => Fits (insert j U) n ∧ (tree sb d n).type ≠ 0

def Created (sb : Layout) (b J : Fin ninode → Nat) (L : List Hold) (s : State) (type : Int16)
    (o : Option (Nat × List UInt8)) (r : Option (Fin ninode)) (t : State) : Prop :=
  match o with
  | none => r = none ∧ Held sb b J L t ∧ t.disk = s.disk
  | some (j, name) =>
      match inumOf (tree sb s.disk j).ents name with
      | some n => t.disk = s.disk ∧
          if type = tFile ∧ (tree sb s.disk n).type = tFile then ∃ ip, r = some ip ∧
            Held sb b J (⟨ip, n, true⟩ :: L) t
          else r = none ∧ Held sb b J L t
      | none => ∃ ip n, r = some ip ∧ n < sb.ninodes ∧ n ≠ 0 ∧ (tree sb s.disk n).type = 0 ∧
          firstFreeInode sb s.disk = some n ∧ Held sb b J (⟨ip, n, true⟩ :: L) t ∧
          Swept (Pinned b J L) ((tree sb s.disk).create j n name type) (tree sb t.disk)

def PathPanic (T : Tree) (a : Nat) (e : Halt) : Prop :=
  Exhausted e ∨ e = .panic .ilockNoType ∧ ∃ n, Reach T a n ∧ (T n).type = 0

theorem NamexPanic.pathPanic (h : NamexPanic b L T j e) : PathPanic T j e :=
  h.imp_left fun ⟨he, _⟩ => .inr (.inl he)

theorem pathPanic_setNlink {a : Nat} {l : Int16} : PathPanic (T.setNlink n l) a e ↔ PathPanic T a e := by
  simp only [PathPanic, Reach, Tree.step_setNlink, Tree.setNlink_type]

theorem Tree.setNlink_back (T : Tree) (n : Nat) :
    (T.setNlink n ((T n).nlink + 1)).setNlink n ((T.setNlink n ((T n).nlink + 1) n).nlink - 1) = T := by
  have hsub : (T.setNlink n ((T n).nlink + 1) n).nlink - 1 = (T n).nlink := by simp [Tree.setNlink]
  rw [hsub, Tree.setNlink_setNlink, Tree.setNlink_nlink]

theorem linkBad_held {ip : Fin ninode} {l : Bool} (h : Held sb b J (⟨ip, n, l⟩ :: L) s)
    (hlive : (tree sb s.disk n).type ≠ 0)
    (hpin : ((tree sb s.disk).setNlink n ((tree sb s.disk n).nlink - 1) n).Orphan → Pinned b J L n) :
    wp (linkBad sb ip) (fun r t => r = -1 ∧ Held sb b J L t ∧
      tree sb t.disk = (tree sb s.disk).setNlink n ((tree sb s.disk n).nlink - 1)) (fun _ => False) s := by
  rw [linkBad]
  refine (ilock_live h hlive).bind ?_
  rintro _ s₁ ⟨h₁, hd₁⟩
  have hmem : (⟨ip, n, true⟩ : Hold) ∈ (⟨ip, n, true⟩ : Hold) :: L := List.mem_cons_self
  have hnlink : (s₁.icache ip).nlink = (tree sb s.disk n).nlink := hd₁ ▸ h₁.nlink_eq hmem rfl
  simp only [inode, setInode, wp_bind, wp_gets, wp_update]
  rw [hnlink]
  refine (setNlink_held h₁ hmem rfl _).mono ?_ fun _ => False.elim
  rintro _ s₂ ⟨h₂, ht₂, _⟩
  rw [hd₁] at ht₂
  refine wp_bind.mpr <| (iunlockput_pinned h₂ fun ho => hpin (by rwa [ht₂] at ho)).mono ?_ fun _ => False.elim
  rintro _ t ⟨h₃, hd₃⟩
  exact ⟨rfl, h₃, by rw [hd₃, ht₂]⟩

def LinkOk (sb : Layout) (d : Disk) (U : Finset Nat) (old new : List UInt8) (cwd : Nat) : Prop :=
  PathOk (tree sb d) U false old cwd ∧
    ∀ n, walk (tree sb d) (startOf old cwd) (elems old) = some n → (tree sb d n).type ≠ 0 ∧
      ((tree sb d n).type ≠ tDir → PathOk (tree sb d) (insert n U) true new cwd ∧
        ∀ j name, resolve (tree sb d) true (startOf new cwd) [] (elems new) = some (j, name) →
          match inumOf (tree sb d j).ents name with
          | none => CanLink sb d (tree sb d j).ents
          | some k => Fits (insert j (insert n U)) k)

def Tree.linked (T : Tree) (j : Nat) (name : List UInt8) (n : Nat) : Tree :=
  (T.setNlink n ((T n).nlink + 1)).link j name n

/-- What `sys_link` does: nothing, or it adds the new name. -/
def Linked (sb : Layout) (b J : Fin ninode → Nat) (L : List Hold) (s : State) (old new : List UInt8) (cwd : Nat)
    (r : Int) (t : State) : Prop :=
  Held sb b J L t ∧ (r = -1 ∧ tree sb t.disk = tree sb s.disk ∨
    r = 0 ∧ ∃ n j name, walk (tree sb s.disk) (startOf old cwd) (elems old) = some n ∧
      (tree sb s.disk n).type ≠ 0 ∧ (tree sb s.disk n).type ≠ tDir ∧
      resolve (tree sb s.disk) true (startOf new cwd) [] (elems new) = some (j, name) ∧
      inumOf (tree sb s.disk j).ents name = none ∧
      Swept (Pinned b J L) ((tree sb s.disk).linked j name n) (tree sb t.disk))

def Dots (name : List UInt8) : Prop := namecmp name dot = 0 ∨ namecmp name dotdot = 0

def Tree.unlinked (T : Tree) (j k n : Nat) : Tree :=
  let T₁ := if (T n).type = tDir then (T.unlink j k).setNlink j ((T j).nlink - 1) else T.unlink j k
  T₁.setNlink n ((T₁ n).nlink - 1)

def UnlinkOk (T : Tree) (U : Finset Nat) (path : List UInt8) (cwd : Nat) : Prop :=
  PathOk T U true path cwd ∧
    ∀ j name, resolve T true (startOf path cwd) [] (elems path) = some (j, name) → ¬ Dots name →
      ∀ n, inumOf (T j).ents name = some n → Fits (insert j U) n ∧ (T n).type ≠ 0 ∧ 1 ≤ (T n).nlink

/-- What `sys_unlink` does: nothing, or it removes the name. -/
def Unlinked (sb : Layout) (b J : Fin ninode → Nat) (L : List Hold) (s : State) (path : List UInt8) (cwd : Nat)
    (r : Int) (t : State) : Prop :=
  Held sb b J L t ∧ (r = -1 ∧ tree sb t.disk = tree sb s.disk ∨
    r = 0 ∧ ∃ j name k n, resolve (tree sb s.disk) true (startOf path cwd) [] (elems path) = some (j, name) ∧
      ¬ Dots name ∧ lookup (tree sb s.disk j).ents name = some (k, n) ∧ (tree sb s.disk n).type ≠ 0 ∧
      1 ≤ (tree sb s.disk n).nlink ∧ ((tree sb s.disk n).type = tDir → Bare (tree sb s.disk n).ents) ∧
      Swept (Pinned b J L) ((tree sb s.disk).unlinked j k n) (tree sb t.disk))

theorem Tree.linked_type (T : Tree) (j : Nat) (name : List UInt8) (n k : Nat) :
    (T.linked j name n k).type = (T k).type := by
  rw [linked, link, setEnts_type, setNlink_type]

theorem Tree.unlinked_type (T : Tree) (j k n m : Nat) : (T.unlinked j k n m).type = (T m).type := by
  rw [unlinked, setNlink_type]
  split
  · rw [setNlink_type, unlink, setEnts_type]
  · rw [unlink, setEnts_type]

theorem Shaped.linked (h : Shaped sb.ninodes T) (j : Nat) (name : List UInt8) (hn : n < sb.ninodes) :
    Shaped sb.ninodes (T.linked j name n) := (h.setNlink n _).link j name hn

theorem Shaped.unlinked {k : Nat} (h : Shaped sb.ninodes T) (hk : k < (T j).ents.length) (hn : n < sb.ninodes) :
    Shaped sb.ninodes (T.unlinked j k n) := by
  have hunlink : Shaped sb.ninodes (T.unlink j k) := h.setEnts hk.le (Nat.zero_lt_of_lt hn)
  refine setNlink ?_ n _
  split
  · exact hunlink.setNlink j _
  · exact hunlink

theorem Vanished.swept_setNlink {L' : List Hold} {T' : Tree} (h : Vanished b J L' j T T') (hL : ∀ x ∈ L, x ∈ L')
    (hn : n ≠ j)
    (l : Int16) : Swept (Pinned b J L) (T.setNlink n l) (T'.setNlink n l) := by
  obtain ⟨hpin, ho, rfl⟩ := h
  intro k
  by_cases hkj : k = j
  · subst hkj
    rw [Tree.setNlink_of_ne hn.symm, Tree.setNlink_of_ne hn.symm, Function.update_self]
    exact .inr ⟨fun hp => hpin (hp.mono hL), ho, rfl⟩
  · left
    by_cases hkn : k = n
    · subst hkn
      simp [Tree.setNlink, hkj]
    · rw [Tree.setNlink_of_ne hkn, Tree.setNlink_of_ne hkn, Function.update_of_ne hkj]

section Calls

variable [Devsw]

theorem unlinkEntry_held {dp : Fin ninode} {k : Nat} (h : Held sb b J (⟨ip, n, true⟩ :: ⟨dp, j, true⟩ :: L) s)
    (hT : Shaped sb.ninodes (tree sb s.disk)) (hj : (tree sb s.disk j).type = tDir)
    (hk : k < (tree sb s.disk j).ents.length) :
    wp (unlinkEntry sb dp ip (16 * k)) (fun r t => r = 0 ∧ Held sb b J L t ∧
      Swept (Pinned b J L) ((tree sb s.disk).unlinked j k n) (tree sb t.disk)) (fun _ => False) s := by
  have hip : (⟨ip, n, true⟩ : Hold) ∈ (⟨ip, n, true⟩ : Hold) :: ⟨dp, j, true⟩ :: L := List.mem_cons_self
  have hdp : (⟨dp, j, true⟩ : Hold) ∈ (⟨ip, n, true⟩ : Hold) :: ⟨dp, j, true⟩ :: L :=
    List.mem_cons_of_mem _ List.mem_cons_self
  set T₁ : Tree := if (tree sb s.disk n).type = tDir then
    ((tree sb s.disk).unlink j k).setNlink j ((tree sb s.disk j).nlink - 1) else (tree sb s.disk).unlink j
      k with hT₁
  rw [unlinkEntry]
  refine wp_bind.mpr <| (clear_held h hdp rfl hT hj hk).imp fun r s₁ ⟨hr, h₁, ht₁⟩ => ?_
  rw [if_neg (not_not.mpr hr)]
  have hdots : wp (unlinkDots sb dp ip) (fun _ t => Held sb b J (⟨ip, n, true⟩ :: ⟨dp, j, true⟩ :: L) t ∧
      tree sb t.disk = T₁) (fun _ => False) s₁ := by
    have htype : (s₁.icache ip).type = (tree sb s.disk n).type := by
      rw [h₁.type_eq hip rfl, ht₁, Tree.unlink, Tree.setEnts_type]
    have hnlink : (s₁.icache dp).nlink = (tree sb s.disk j).nlink := by
      rw [h₁.nlink_eq hdp rfl, ht₁, Tree.unlink, Tree.setEnts_nlink]
    simp only [unlinkDots, inode, setInode, wp_bind, wp_gets]
    by_cases hdir : (tree sb s.disk n).type = tDir
    · rw [if_pos (htype.trans hdir), hT₁, if_pos hdir]
      simp only [wp_bind, wp_gets, wp_update]
      rw [hnlink]
      refine (setNlink_held h₁ hdp rfl _).imp fun _ t ⟨ht, htree, _⟩ => ⟨ht, ?_⟩
      rw [htree, ht₁]
    · rw [if_neg fun he => hdir (htype.symm.trans he), hT₁, if_neg hdir]
      exact ⟨h₁, ht₁⟩
  refine wp_bind.mpr <| hdots.imp fun _ s₂ ⟨h₂, ht₂⟩ => ?_
  refine wp_bind.mpr <| (iunlockput_held h₂.swap).imp fun _ s₃ ⟨h₃, hd₃⟩ => ?_
  have hmem : (⟨ip, n, true⟩ : Hold) ∈ (⟨ip, n, true⟩ : Hold) :: L := List.mem_cons_self
  have hput : tree sb s₃.disk n = T₁ n ∧
      ∀ l, Swept (Pinned b J L) (T₁.setNlink n l) ((tree sb s₃.disk).setNlink n l) := by
    rcases hd₃ with hd₃ | hd₃
    · rw [hd₃, ht₂]
      exact ⟨rfl, fun l => Swept.refl _ _⟩
    · have hnj : n ≠ j := fun hnj => hd₃.1 (.inr ⟨_, hmem, hnj⟩)
      rw [ht₂] at hd₃
      refine ⟨?_, hd₃.swept_setNlink (fun x hx => List.mem_cons_of_mem _ hx) hnj⟩
      rw [hd₃.2.2, Function.update_of_ne hnj]
  have hnlink : (s₃.icache ip).nlink = (T₁ n).nlink := by rw [h₃.nlink_eq hmem rfl, hput.1]
  simp only [inode, setInode, wp_bind, wp_gets, wp_update]
  rw [hnlink]
  refine (setNlink_held h₃ hmem rfl ((T₁ n).nlink - 1)).imp fun _ s₄ ⟨h₄, ht₄, _⟩ => ?_
  refine wp_bind.mpr <| (iunlockput_held h₄).imp fun _ t ⟨h₅, hd₅⟩ => ⟨rfl, h₅, ?_⟩
  refine (hput.2 ((T₁ n).nlink - 1)).trans ?_
  rw [← ht₄]
  rcases hd₅ with hd₅ | hd₅
  · rw [hd₅]
    exact Swept.refl _ _
  · exact hd₅.swept fun x hx => hx

theorem create_held {cwd : Fin ninode} {type : Int16} (h : Held sb b J L s)
    (hT : Shaped sb.ninodes (tree sb s.disk))
    (hc : 0 < b cwd) (hroot : rootino < sb.ninodes) (hty : type ≠ 0) (path : List UInt8) (major minor : Int16) :
    wp (create sb cwd path type major minor)
      (fun r t => CreateOk sb s.disk (busy b J L) path (J cwd) type ∧
        Created sb b J L s type (resolve (tree sb s.disk) true (startOf path (J cwd)) [] (elems path)) r t)
      (fun e => PathPanic (tree sb s.disk) (startOf path (J cwd)) e ∧
        ¬ CreateOk sb s.disk (busy b J L) path (J cwd) type) s := by
  rw [create]
  refine wp_bind.mpr <| (namex_held h hT hc hroot path true).mono ?_
    (by rintro e ⟨he, hnot⟩; exact ⟨he.pathPanic, fun hc => hnot hc.1⟩)
  rintro r s₁ ⟨⟨hd₁, hr⟩, hok⟩
  unfold CreateOk
  cases hres : resolve (tree sb s.disk) true (startOf path (J cwd)) [] (elems path) with
  | none =>
      rw [hres] at hr
      obtain ⟨rfl, h₁⟩ := hr
      exact ⟨⟨hok, fun j name hj => (by cases hj)⟩, rfl, h₁, hd₁⟩
  | some o =>
      obtain ⟨j, name⟩ := o
      rw [hres] at hr
      obtain ⟨dp, rfl, h₁⟩ := hr
      have hdir := resolve_dir hres
      have hmem : (⟨dp, j, true⟩ : Hold) ∈ (⟨dp, j, true⟩ : Hold) :: L := List.mem_cons_self
      have hexact (P : Nat → List UInt8 → Prop) :
          (PathOk (tree sb s.disk) (busy b J L) true path (J cwd) ∧ ∀ j' name', some (j, name) = some (j',
            name') → P j' name') ↔
            P j name := by
        refine ⟨fun hc => hc.2 j name rfl, fun hP => ⟨hok, fun j' name' he => ?_⟩⟩
        obtain ⟨rfl, rfl⟩ := Prod.mk.inj (Option.some.inj he)
        exact hP
      rw [hexact]
      unfold Created
      dsimp only
      refine wp_bind.mpr <| (ilock_live h₁ (by rw [hd₁, hdir]; decide)).mono ?_ fun _ => False.elim
      rintro _ s₂ ⟨h₂, hd₂⟩
      rw [hd₁] at hd₂
      rw [← hd₂] at hT hdir ⊢
      refine wp_bind.mpr <| (dirlookup_held h₂ hmem rfl hT hdir name).mono ?_ ?_
      · rintro r s₃ ⟨hd₃, hr⟩
        cases hlook : lookup (tree sb s₂.disk j).ents name with
        | none =>
            have hnum : inumOf (tree sb s₂.disk j).ents name = none := by rw [inumOf, hlook]; rfl
            rw [hlook] at hr
            obtain ⟨rfl, rfl⟩ := hr
            rw [hnum]
            refine wp_bind.mpr <| (createNew_held h₂ hT hdir hnum hty major minor).mono ?_
              (by rintro e ⟨he, hcan⟩; exact ⟨.inl he, hcan⟩)
            rintro ip t ⟨hcan, n, hnew⟩
            exact ⟨hcan, ip, n, rfl, hnew⟩
        | some kn =>
            obtain ⟨k, n⟩ := kn
            have hnum : inumOf (tree sb s₂.disk j).ents name = some n := by rw [inumOf, hlook]; rfl
            rw [hlook] at hr
            obtain ⟨ip, rfl, h₃⟩ := hr
            rw [hnum]
            have hfit := h₃.fits
            rw [busy_cons] at hfit
            have hpin (m) (ho : (tree sb s₂.disk m).Orphan) : Pinned b J L m := h.pinned (by rwa [hd₂] at ho)
            refine wp_bind.mpr <| (iunlockput_pinned h₃.swap fun ho => ?_).mono ?_ fun _ => False.elim
            · exact (hpin j (hd₃ ▸ ho)).mono fun x hx => List.mem_cons_of_mem _ hx
            · rintro _ s₄ ⟨h₄, hd₄⟩
              rw [hd₃] at hd₄
              refine wp_bind.mpr <| (ilock_held h₄).mono ?_ ?_
              · rintro _ s₅ ⟨h₅, hd₅⟩
                have hip : (⟨ip, n, true⟩ : Hold) ∈ (⟨ip, n, true⟩ : Hold) :: L := List.mem_cons_self
                rw [hd₄] at hd₅
                have hlive := h₅.type_ne hip rfl
                have htype : (s₅.icache ip).type = (tree sb s₂.disk n).type := hd₅ ▸ h₅.type_eq hip rfl
                rw [hd₅] at hlive
                simp only [inode, wp_bind, wp_gets]
                rw [htype]
                split
                next => exact ⟨⟨hfit, hlive⟩, hd₅, ip, rfl, h₅⟩
                next =>
                  refine wp_bind.mpr <| (iunlockput_pinned h₅ fun ho => hpin n (hd₅ ▸ ho)).mono ?_
                    fun _ => False.elim
                  rintro _ t ⟨ht, hd⟩
                  exact ⟨⟨hfit, hlive⟩, hd.trans hd₅, rfl, ht⟩
              · rintro e ⟨he, h0⟩
                rw [hd₄] at h0
                refine ⟨.inr ⟨he, n, (resolve_reach (hd₂ ▸ hres)).tail ⟨hdir, name, hnum⟩, h0⟩, fun hc => hc.2 h0⟩
      · rintro e ⟨he, _, n, hn, hfit⟩
        refine ⟨.inl (.inr (.inl he)), ?_⟩
        rw [hn]
        rw [busy_cons] at hfit
        exact fun hc => hfit hc.1

theorem linkEntry_held {dp : Fin ninode} (h : Held sb b J (⟨dp, j, false⟩ :: ⟨ip, n, false⟩ :: L) s)
    (hT : Shaped sb.ninodes T) (hs : tree sb s.disk = T.setNlink n ((T n).nlink + 1)) (hj : (T j).type = tDir)
    (hlive : (T n).type ≠ 0) (hn : (T n).type ≠ tDir) (hpin : ∀ m, (T m).Orphan → Pinned b J L m) :
    wp (do
        ilock sb dp
        let d ← inode dp
        let x ← inode ip
        if d.dev ≠ x.dev then do
          iunlockput sb dp
          linkBad sb ip
        else do
          let r ← dirlink sb dp name x.inum
          if r < 0 then do
            iunlockput sb dp
            linkBad sb ip
          else do
            iunlockput sb dp
            iput sb ip
            pure 0 : FsM Int)
      (fun r t => Held sb b J L t ∧
        match inumOf (T j).ents name with
        | none => r = 0 ∧ CanLink sb s.disk (T j).ents ∧ Swept (Pinned b J L) (T.linked j name n) (tree sb t.disk)
        | some k => r = -1 ∧ Fits (insert j (insert n (busy b J L))) k ∧ tree sb t.disk = T)
      (fun e => Exhausted e ∧
        match inumOf (T j).ents name with
        | none => ¬ CanLink sb s.disk (T j).ents
        | some k => ¬ Fits (insert j (insert n (busy b J L))) k) s := by
  have hjn : j ≠ n := by
    rintro rfl
    exact hn hj
  have hnode : tree sb s.disk j = T j := by rw [hs, Tree.setNlink_of_ne hjn]
  refine (ilock_live h (by rw [hnode, hj]; decide)).andThen ?_
  rintro _ s₁ ⟨h₁, hd₁⟩
  have hdp : (⟨dp, j, true⟩ : Hold) ∈ (⟨dp, j, true⟩ : Hold) :: ⟨ip, n, false⟩ :: L := List.mem_cons_self
  have hip : (⟨ip, n, false⟩ : Hold) ∈ (⟨dp, j, true⟩ : Hold) :: ⟨ip, n, false⟩ :: L :=
    List.mem_cons_of_mem _ List.mem_cons_self
  have hdev : (s₁.icache dp).dev = (s₁.icache ip).dev := by
    rw [h₁.consistent.cache.dev _ (h₁.ref_pos hdp), h₁.consistent.cache.dev _ (h₁.ref_pos hip)]
  have hinum : (s₁.icache ip).inum = n := (h₁.held _ hip).1
  have hTs : Shaped sb.ninodes (tree sb s₁.disk) := by
    rw [hd₁, hs]
    exact hT.setNlink n _
  simp only [inode, wp_bind, wp_gets]
  rw [if_neg (not_not.mpr hdev), hinum]
  rw [← hd₁] at hs hnode ⊢
  have hdir : (tree sb s₁.disk j).type = tDir := by rw [hnode, hj]
  have hbusy : busy b J (⟨dp, j, true⟩ :: ⟨ip, n, false⟩ :: L) = insert j (insert n (busy b J L)) := by
    rw [busy_cons, busy_cons]
  cases hnum : inumOf (T j).ents name with
  | none =>
      have hlink : wp (dirlink sb dp name n) _ _ s₁ := dirlink_held h₁ hdp rfl hTs hdir (by rw [hnode, hnum]) n
      rw [hnode] at hlink
      refine wp_bind.mpr <| hlink.imp ?_
      rintro r s₂ ⟨hr, hcan, h₂, _, ht₂⟩
      have htree : tree sb s₂.disk = T.linked j name n := by rw [ht₂, hs, Tree.linked]
      rw [if_neg (by rw [hr]; decide)]
      refine (iunlockput_pinned h₂ fun ho => ?_).andThen ?_
      · rw [Node.Orphan, htree, Tree.linked, Tree.link, Tree.setEnts_type, Tree.setEnts_nlink,
          Tree.setNlink_of_ne hjn] at ho
        exact (hpin j ho).mono fun x hx => List.mem_cons_of_mem _ hx
      · rintro _ s₃ ⟨h₃, hd₃⟩
        refine (iput_held h₃).andThen ?_
        rintro _ t ⟨h₄, hd₄⟩
        refine ⟨h₄, rfl, hcan, ?_⟩
        rw [← htree]
        rcases hd₄ with hd₄ | hd₄
        · rw [hd₄, hd₃]
          exact Swept.refl _ _
        · rw [hd₃] at hd₄
          exact hd₄.swept fun x hx => hx
  | some k =>
      have hlink : wp (dirlink sb dp name n) _ _ s₁ :=
        dirlink_held_present h₁ hdp rfl hTs hdir (by rw [hnode, hnum]) n
      rw [hbusy] at hlink
      refine wp_bind.mpr <| hlink.imp ?_
      rintro r s₂ ⟨hr, hfit, h₂, hd₂⟩
      rw [if_pos (by rw [hr]; decide)]
      refine (iunlockput_pinned h₂ fun ho => ?_).andThen ?_
      · rw [hd₂] at ho
        exact (hpin j (hnode ▸ ho)).mono fun x hx => List.mem_cons_of_mem _ hx
      · rintro _ s₃ ⟨h₃, hd₃⟩
        rw [← hd₂, ← hd₃] at hs
        refine (linkBad_held h₃ ?_ fun ho => hpin n ?_).mono ?_ fun _ => False.elim
        · rw [hs, Tree.setNlink_type]
          exact hlive
        · rwa [hs, Tree.setNlink_back] at ho
        · rintro r t ⟨hr, h₄, ht₄⟩
          refine ⟨h₄, hr, hfit, ?_⟩
          rw [ht₄, hs, Tree.setNlink_back]

theorem sysLink_held (h : Held sb b J L s) (hT : Shaped sb.ninodes (tree sb s.disk))
    (hc : 0 < b cwd) (hroot : rootino < sb.ninodes) (old new : List UInt8) :
    wp (sysLink sb cwd old new)
      (fun r t => LinkOk sb s.disk (busy b J L) old new (J cwd) ∧ Linked sb b J L s old new (J cwd) r t)
      (fun e => (PathPanic (tree sb s.disk) (startOf old (J cwd)) e ∨ PathPanic (tree sb s.disk)
        (startOf new (J cwd)) e) ∧
        ¬ LinkOk sb s.disk (busy b J L) old new (J cwd)) s := by
  rw [sysLink]
  refine wp_bind.mpr <| (namei_held h hT hc hroot old).mono ?_
    (by rintro e ⟨he, hnot⟩; exact ⟨.inl he.pathPanic, fun hc => hnot hc.1⟩)
  rintro r s₁ ⟨⟨hd₁, hr⟩, hok⟩
  cases hwalk : walk (tree sb s.disk) (startOf old (J cwd)) (elems old) with
  | none =>
      rw [hwalk] at hr
      obtain ⟨rfl, h₁⟩ := hr
      exact ⟨⟨hok, fun n hn => absurd (hwalk.symm.trans hn) (fun h => by cases h)⟩, h₁, .inl ⟨rfl, by rw [hd₁]⟩⟩
  | some n =>
      rw [hwalk] at hr
      obtain ⟨ip, rfl, h₁⟩ := hr
      have hmem : (⟨ip, n, true⟩ : Hold) ∈ (⟨ip, n, true⟩ : Hold) :: L := List.mem_cons_self
      refine wp_bind.mpr <| (ilock_held h₁).mono ?_ ?_
      · rintro _ s₂ ⟨h₂, hd₂⟩
        rw [hd₁] at hd₂
        have hlive : (tree sb s.disk n).type ≠ 0 := hd₂ ▸ h₂.type_ne hmem rfl
        have htype : (s₂.icache ip).type = (tree sb s.disk n).type := hd₂ ▸ h₂.type_eq hmem rfl
        have hnlink : (s₂.icache ip).nlink = (tree sb s.disk n).nlink := hd₂ ▸ h₂.nlink_eq hmem rfl
        simp only [inode, setInode, wp_bind, wp_gets]
        by_cases hdir : (tree sb s.disk n).type = tDir
        · rw [if_pos (htype.trans hdir)]
          refine wp_bind.mpr <| (iunlockput_pinned h₂ fun ho => h.pinned (hd₂ ▸ ho)).mono ?_
            fun _ => False.elim
          rintro _ t ⟨ht, hd⟩
          refine ⟨⟨hok, fun m hm => ?_⟩, ht, .inl ⟨rfl, by rw [hd, hd₂]⟩⟩
          obtain rfl := Option.some.inj (hwalk.symm.trans hm)
          exact ⟨hlive, fun hnd => absurd hdir hnd⟩
        · rw [if_neg fun he => hdir (htype.symm.trans he)]
          have hlinkOk : LinkOk sb s.disk (busy b J L) old new (J cwd) ↔
              PathOk (tree sb s.disk) (insert n (busy b J L)) true new (J cwd) ∧
                ∀ j name, resolve (tree sb s.disk) true (startOf new (J cwd)) [] (elems new) = some (j, name) →
                  match inumOf (tree sb s.disk j).ents name with
                  | none => CanLink sb s.disk (tree sb s.disk j).ents
                  | some k => Fits (insert j (insert n (busy b J L))) k := by
            refine ⟨fun hall => (hall.2 n hwalk).2 hdir, fun hp => ⟨hok, fun m hm => ?_⟩⟩
            obtain rfl := Option.some.inj (hwalk.symm.trans hm)
            exact ⟨hlive, fun _ => hp⟩
          rw [hlinkOk]
          simp only [wp_bind, wp_update]
          rw [hnlink]
          refine (setNlink_held h₂ hmem rfl ((tree sb s.disk n).nlink + 1)).mono ?_ fun _ => False.elim
          rintro _ s₃ ⟨h₃, ht₃, hf₃⟩
          rw [hd₂] at ht₃ hf₃
          refine (iunlock_held h₃ hmem).andThen fun _ s₄ heq => ?_
          rw [heq]
          have hT₃ : Shaped sb.ninodes (tree sb s₃.disk) := ht₃ ▸ hT.setNlink n _
          have hnamex := namex_held h₃.unlock hT₃ hc hroot new true
          rw [ht₃, Tree.resolve_setNlink, Tree.pathOk_setNlink, busy_cons] at hnamex
          refine wp_bind.mpr <| hnamex.mono ?_ ?_
          · rintro r s₅ ⟨⟨hd₅, hr⟩, hok₅⟩
            cases hres : resolve (tree sb s.disk) true (startOf new (J cwd)) [] (elems new) with
            | none =>
                rw [hres] at hr
                obtain ⟨rfl, h₅⟩ := hr
                rw [← hd₅] at ht₃
                refine (linkBad_held h₅ ?_ fun ho => h.pinned ?_).mono ?_ fun _ => False.elim
                · rw [ht₃, Tree.setNlink_type]
                  exact hlive
                · rwa [ht₃, Tree.setNlink_back] at ho
                · rintro r t ⟨hr, ht, htree⟩
                  rw [ht₃, Tree.setNlink_back] at htree
                  exact ⟨⟨hok₅, fun j name hj => (by cases hj)⟩, ht, .inl ⟨hr, htree⟩⟩
            | some o =>
                obtain ⟨j, name⟩ := o
                rw [hres] at hr
                obtain ⟨dp, rfl, h₅⟩ := hr
                rw [← hd₅] at ht₃ hf₃
                have hfree : CanLink sb s₅.disk = CanLink sb s.disk := by
                  funext es
                  rw [CanLink, CanLink, hf₃]
                refine (linkEntry_held h₅ hT ht₃ (resolve_dir hres) hlive hdir fun m hm => h.pinned hm).mono
                  ?_ ?_
                · rintro r t ⟨ht, hr⟩
                  rw [hfree] at hr
                  cases hnum : inumOf (tree sb s.disk j).ents name with
                  | none =>
                      rw [hnum] at hr
                      obtain ⟨hr, hcan, hswept⟩ := hr
                      refine ⟨⟨hok₅, fun j' name' he => ?_⟩, ht, .inr ⟨hr, n, j, name, hwalk, hlive, hdir, hres,
                        hnum, hswept⟩⟩
                      obtain ⟨rfl, rfl⟩ := Prod.mk.inj (Option.some.inj he)
                      rw [hnum]
                      exact hcan
                  | some k =>
                      rw [hnum] at hr
                      obtain ⟨hr, hfit, htree⟩ := hr
                      refine ⟨⟨hok₅, fun j' name' he => ?_⟩, ht, .inl ⟨hr, htree⟩⟩
                      obtain ⟨rfl, rfl⟩ := Prod.mk.inj (Option.some.inj he)
                      rw [hnum]
                      exact hfit
                · rintro e ⟨he, hr⟩
                  refine ⟨.inl (.inl he), fun hall => ?_⟩
                  have hname := hall.2 j name rfl
                  rw [hfree] at hr
                  cases hnum : inumOf (tree sb s.disk j).ents name with
                  | none =>
                      rw [hnum] at hr hname
                      exact hr hname
                  | some k =>
                      rw [hnum] at hr hname
                      exact hr hname
          · rintro e ⟨he, hnot⟩
            refine ⟨.inr ?_, fun hall => hnot hall.1⟩
            exact pathPanic_setNlink.mp he.pathPanic
      · rintro e ⟨he, h0⟩
        rw [hd₁] at h0
        exact ⟨.inl (.inr ⟨he, n, walk_reach hwalk, h0⟩), fun hall => (hall.2 n hwalk).1 h0⟩

def UnlinkPanic (T : Tree) (a : Nat) (e : Halt) : Prop :=
  PathPanic T a e ∨ e = .panic .unlinkNlink ∧ ∃ j n name, Reach T a j ∧ (T j).type = tDir ∧ ¬ Dots name ∧
    inumOf (T j).ents name = some n ∧ (T n).type ≠ 0 ∧ (T n).nlink < 1

theorem sysUnlink_held (h : Held sb b J L s) (hT : Shaped sb.ninodes (tree sb s.disk)) (hc : 0 < b cwd)
    (hroot : rootino < sb.ninodes) (path : List UInt8) :
    wp (sysUnlink sb cwd path)
      (fun r t => UnlinkOk (tree sb s.disk) (busy b J L) path (J cwd) ∧ Unlinked sb b J L s path (J cwd) r t)
      (fun e => UnlinkPanic (tree sb s.disk) (startOf path (J cwd)) e ∧
        ¬ UnlinkOk (tree sb s.disk) (busy b J L) path (J cwd)) s := by
  rw [sysUnlink]
  refine wp_bind.mpr <| (namex_held h hT hc hroot path true).mono ?_
    (by rintro e ⟨he, hnot⟩; exact ⟨.inl he.pathPanic, fun hc => hnot hc.1⟩)
  rintro r s₁ ⟨⟨hd₁, hr⟩, hok⟩
  cases hres : resolve (tree sb s.disk) true (startOf path (J cwd)) [] (elems path) with
  | none =>
      rw [hres] at hr
      obtain ⟨rfl, h₁⟩ := hr
      exact ⟨⟨hok, fun j name hj => absurd (hres.symm.trans hj) (fun h => by cases h)⟩, h₁, .inl ⟨rfl, by rw [hd₁]⟩⟩
  | some o =>
      obtain ⟨j, name⟩ := o
      rw [hres] at hr
      obtain ⟨dp, rfl, h₁⟩ := hr
      have hdir := resolve_dir hres
      have hmem : (⟨dp, j, true⟩ : Hold) ∈ (⟨dp, j, true⟩ : Hold) :: L := List.mem_cons_self
      have hiff : UnlinkOk (tree sb s.disk) (busy b J L) path (J cwd) ↔ (¬ Dots name →
          ∀ n, inumOf (tree sb s.disk j).ents name = some n → Fits (insert j (busy b J L)) n ∧
            (tree sb s.disk n).type ≠ 0 ∧ 1 ≤ (tree sb s.disk n).nlink) := by
        refine ⟨fun hall => hall.2 j name hres, fun hP => ⟨hok, fun j' name' he => ?_⟩⟩
        obtain ⟨rfl, rfl⟩ := Prod.mk.inj (Option.some.inj (hres.symm.trans he))
        exact hP
      rw [hiff]
      refine (ilock_live h₁ (by rw [hd₁, hdir]; decide)).andThen ?_
      rintro _ s₂ ⟨h₂, hd₂⟩
      rw [hd₁] at hd₂
      have hput : wp (do iunlockput sb dp; pure (-1) : FsM Int) (fun r t => r = -1 ∧ Held sb b J L t ∧
        t.disk = s.disk)
          (fun _ => False) s₂ :=
        (iunlockput_pinned h₂ fun ho => h.pinned (hd₂ ▸ ho)).bind fun _ t ht => ⟨rfl, ht.1, ht.2.trans hd₂⟩
      by_cases hdots : namecmp name dot = 0 ∨ namecmp name dotdot = 0
      · rw [if_pos hdots]
        refine hput.mono ?_ fun _ => False.elim
        rintro r t ⟨hr, ht, hd⟩
        exact ⟨fun hnd => absurd hdots hnd, ht, .inl ⟨hr, by rw [hd]⟩⟩
      · rw [if_neg hdots]
        have hT₂ : Shaped sb.ninodes (tree sb s₂.disk) := hd₂ ▸ hT
        have hlookup : wp (dirlookup sb dp name) _ _ s₂ := dirlookup_held h₂ hmem rfl hT₂ (by rw [hd₂, hdir]) name
        rw [hd₂, busy_cons] at hlookup
        refine wp_bind.mpr <| hlookup.mono ?_
          (by rintro e ⟨he, _, n, hn, hfit⟩; exact ⟨.inl (.inl (.inr (.inl he))), fun hall =>
            hfit (hall hdots n hn).1⟩)
        rintro r s₃ ⟨hd₃, hr⟩
        cases hlook : lookup (tree sb s.disk j).ents name with
        | none =>
            have hnum : inumOf (tree sb s.disk j).ents name = none := by rw [inumOf, hlook]; rfl
            rw [hlook] at hr
            obtain ⟨rfl, rfl⟩ := hr
            refine hput.mono ?_ fun _ => False.elim
            rintro r t ⟨hr, ht, hd⟩
            exact ⟨fun _ n hn => absurd (hnum.symm.trans hn) (fun h => by cases h), ht, .inl ⟨hr, by rw [hd]⟩⟩
        | some kn =>
            obtain ⟨k, n⟩ := kn
            have hnum : inumOf (tree sb s.disk j).ents name = some n := by rw [inumOf, hlook]; rfl
            rw [hlook] at hr
            obtain ⟨ip, rfl, h₃⟩ := hr
            have hfit := h₃.fits
            rw [busy_cons] at hfit
            have hreach := resolve_reach hres
            have hip : (⟨ip, n, true⟩ : Hold) ∈ (⟨ip, n, true⟩ : Hold) :: ⟨dp, j, true⟩ :: L := List.mem_cons_self
            refine wp_bind.mpr <| (ilock_held h₃).mono ?_ ?_
            · rintro _ s₄ ⟨h₄, hd₄⟩
              rw [hd₃] at hd₄
              have hlive : (tree sb s.disk n).type ≠ 0 := hd₄ ▸ h₄.type_ne hip rfl
              have htype : (s₄.icache ip).type = (tree sb s.disk n).type := hd₄ ▸ h₄.type_eq hip rfl
              have hnlink : (s₄.icache ip).nlink = (tree sb s.disk n).nlink := hd₄ ▸ h₄.nlink_eq hip rfl
              simp only [inode, wp_bind, wp_gets]
              rw [htype, hnlink]
              by_cases hzero : (tree sb s.disk n).nlink < 1
              · rw [if_pos hzero]
                exact ⟨.inr ⟨rfl, j, n, name, hreach, hdir, hdots, hnum, hlive, hzero⟩,
                  fun hall => Int16.not_lt.mpr (hall hdots n hnum).2.2 hzero⟩
              · rw [if_neg hzero]
                have hgood : ¬ Dots name → ∀ m, inumOf (tree sb s.disk j).ents name = some m →
                    Fits (insert j (busy b J L)) m ∧ (tree sb s.disk m).type ≠ 0 ∧
                      1 ≤ (tree sb s.disk m).nlink := by
                  intro _ m hm
                  obtain rfl := Option.some.inj (hnum.symm.trans hm)
                  exact ⟨hfit, hlive, Int16.not_lt.mp hzero⟩
                have hempty : wp (if (tree sb s.disk n).type = tDir then isdirempty sb ip else pure true)
                    (fun r t => t = s₄ ∧
                      (r = true ↔ ((tree sb s.disk n).type = tDir → Bare (tree sb s.disk n).ents)))
                        (fun _ => False) s₄ := by
                  by_cases hnd : (tree sb s.disk n).type = tDir
                  · obtain ⟨hopen, hents⟩ :=
                      h₄.openDir hip rfl (by rw [hd₄, hnd]) (by rw [hd₄]; exact hT.rest n hnd)
                    rw [if_pos hnd, wp, hopen.isdirempty_eq]
                    refine ⟨rfl, ?_⟩
                    rw [decide_eq_true_eq, hents, hd₄]
                    exact ⟨fun h _ => h, fun h => h hnd⟩
                  · rw [if_neg hnd]
                    exact ⟨rfl, fun _ h => absurd h hnd, fun _ => rfl⟩
                refine wp_bind.mpr <| hempty.mono ?_ fun _ => False.elim
                rintro r s₅ ⟨hs₅, hr⟩
                rw [hs₅]
                by_cases hbare : (tree sb s.disk n).type = tDir → Bare (tree sb s.disk n).ents
                · rw [if_pos (hr.mpr hbare)]
                  have hk : k < (tree sb s.disk j).ents.length := by
                    obtain ⟨⟨de, hde, -⟩, -⟩ := lookup_eq_some.mp hlook
                    exact (List.getElem?_eq_some_iff.mp hde).1
                  rw [← hd₄] at hT hdir hk
                  refine (unlinkEntry_held h₄ hT hdir hk).mono ?_ fun _ => False.elim
                  rintro r t ⟨hr, ht, hswept⟩
                  rw [hd₄] at hswept
                  exact ⟨hgood, ht, .inr ⟨hr, j, name, k, n, hres, hdots, hlook, hlive, Int16.not_lt.mp hzero,
                    hbare, hswept⟩⟩
                · rw [if_neg (mt hr.mp hbare)]
                  have hpin (m) (ho : (tree sb s₄.disk m).Orphan) : Pinned b J L m := h.pinned (by rwa [hd₄] at ho)
                  refine (iunlockput_pinned h₄ fun ho => ?_).andThen ?_
                  · exact (hpin n ho).mono fun x hx => List.mem_cons_of_mem _ hx
                  · rintro _ s₆ ⟨h₆, hd₆⟩
                    refine (iunlockput_pinned h₆ fun ho => hpin j (hd₆ ▸ ho)).andThen ?_
                    rintro _ t ⟨ht, hd⟩
                    exact ⟨hgood, ht, .inl ⟨rfl, by rw [hd, hd₆, hd₄]⟩⟩
            · rintro e ⟨he, h0⟩
              rw [hd₃] at h0
              exact ⟨.inl (.inr ⟨he, n, hreach.tail ⟨hdir, name, hnum⟩, h0⟩), fun hall =>
                (hall hdots n hnum).2.1 h0⟩

end Calls

end Xv6.Fs
