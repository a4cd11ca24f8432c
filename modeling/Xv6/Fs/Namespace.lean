import Xv6.Fs.ByteString
import Xv6.Fs.Path

namespace Xv6.Fs

open Lib Lib.Exec
open Function (update_apply update_comm update_eq_self update_idem update_of_ne update_self)

variable {sb : Layout} {b J : Fin ninode → Nat} {s t : State} {i : Fin ninode} {j n k : Nat} {x : Hold}
    {L : List Hold}
  {T T' : Tree} {name : List UInt8} {es : List Dirent} {e : Halt}

def DirFull (es : List Dirent) : Prop := maxfile * bsize < 16 * vacancy es + 16

instance (es : List Dirent) : Decidable (DirFull es) := inferInstanceAs (Decidable (_ < _))

def entGrowth (es : List Dirent) : Nat := growth (blocks (16 * es.length)) (blocks (16 * vacancy es + 16))

def CanLink (sb : Layout) (d : Disk) (es : List Dirent) : Prop :=
  ¬ DirFull es ∧ entGrowth es ≤ (freeList sb d).length

def CanClaim (sb : Layout) (d : Disk) (U : Finset Nat) : Prop := ∃ n, firstFreeInode sb d = some n ∧ Fits U n

def CanCreate (sb : Layout) (d : Disk) (U : Finset Nat) (j : Nat) (type : Int16) : Prop :=
  CanClaim sb d U ∧ ¬ DirFull (tree sb d j).ents ∧
    (if type = tDir then 1 else 0) + entGrowth (tree sb d j).ents ≤ (freeList sb d).length

def Exhausted (e : Halt) : Prop :=
  e = .panic .iallocNoInodes ∨ e = .panic .igetNoInodes ∨ e = .panic .ballocOutOfBlocks ∨ e = .panic .dirlink

namespace OpenDir

variable [Devsw]

theorem dirlink_absent_spec (h : OpenDir sb i s) (inum : Nat) (hl : lookup (s.ents i) name = none) :
    wp (dirlink sb i name inum) (fun r t => r = 0 ∧ CanLink sb s.disk (s.ents i) ∧
        freeList sb t.disk = (freeList sb s.disk).drop (entGrowth (s.ents i)) ∧
        ∃ y, Written sb i (Dirent.of (UInt16.ofNat inum) name).src (16 * vacancy (s.ents i)) 16 s t y ∧
          y.node t.disk = { (s.icache i).toDinode.node s.disk with
            ents := putEnt (s.ents i) (vacancy (s.ents i)) (.of (UInt16.ofNat inum) name) })
      (fun e => Exhausted e ∧ ¬ CanLink sb s.disk (s.ents i)) s := by
  have hvac := vacancy_le (s.ents i)
  have hlen := h.length_ents
  have hsize := h.size_le
  have hmax := maxfile_bsize
  have hoff : (UInt32.ofNat (16 * vacancy (s.ents i))).toNat = 16 * vacancy (s.ents i) :=
    UInt32.toNat_ofNat_of_lt' (by show _ < 2 ^ 32; omega)
  have hn : dirent16.toNat = 16 := rfl
  have hname : (Dirent.of (UInt16.ofNat inum) name).name.length = dirsiz := Cstr.length_strncpy ..
  have hdev : (s.icache i).type ≠ tDev := by rw [h.type]; decide
  rw [wp_congr (h.dirlink_absent inum hl)]
  by_cases hfull : DirFull (s.ents i)
  · have hbad : writei sb i (Dirent.of (UInt16.ofNat inum) name).src (UInt32.ofNat (16 * vacancy (s.ents i)))
      dirent16 s =
        .ok (-1, s) := writei_bad hdev (.inr (.inr (by rw [hoff]; exact hfull)))
    rw [wp, bind_ok hbad]
    exact ⟨.inr (.inr (.inr rfl)), fun hcan => hcan.1 hfull⟩
  · have hle : UInt32.ofNat (16 * vacancy (s.ents i)) ≤ (s.icache i).size := by
      rw [UInt32.le_iff_toNat_le, hoff]
      omega
    have htakes : Takes sb _ (writei sb i (Dirent.of (UInt16.ofNat inum) name).src
        (UInt32.ofNat (16 * vacancy (s.ents i))) dirent16) s :=
      writei_takes h.consistent h.ref h.valid hdev hle (by rw [hoff]; exact not_lt.mp hfull)
    rw [hoff, hn, ← hlen] at htakes
    refine wp_bind.mpr <| ((h.writei_entry hname hvac).conj htakes).mono ?_
      (by rintro e ⟨_, he, hlt⟩; exact ⟨.inr (.inr (.inl he)), fun hcan => absurd hcan.2 (not_le.mpr hlt)⟩)
    rintro r t ⟨hw, hle, hfree⟩
    rcases hw with ⟨-, -, hbad⟩ | ⟨rfl, y, hy, hnode⟩
    · exact absurd hbad hfull
    · exact ⟨rfl, ⟨hfull, hle⟩, hfree, y, hy, hnode⟩

end OpenDir

theorem entGrowth_nil : entGrowth [] = 1 := by decide

theorem vacancy_dot (hn : UInt16.ofNat n ≠ 0) : vacancy [Dirent.of (UInt16.ofNat n) dot] = 1 := by
  have : (Dirent.of (UInt16.ofNat n) dot).inum ≠ 0 := hn
  simp [vacancy, firstFrom, List.findIdx?_cons, this]

theorem entGrowth_dot (hn : UInt16.ofNat n ≠ 0) : entGrowth [Dirent.of (UInt16.ofNat n) dot] = 0 := by
  rw [entGrowth, vacancy_dot hn]
  show growth (blocks 16) (blocks 32) = 0
  decide

theorem inumOf_dot (n : UInt16) : inumOf [Dirent.of n dot] dotdot = none := by
  refine inumOf_eq_none.mpr fun k de hk hde => ?_
  obtain rfl : de = Dirent.of n dot := by simpa using List.mem_of_getElem? hk
  exact absurd hde.2 (by rw [Dirent.text_of]; decide)

namespace Tree

def setNlink (T : Tree) (j : Nat) (n : Int16) : Tree := Function.update T j { T j with nlink := n }

def setEnts (T : Tree) (j : Nat) (es : List Dirent) : Tree := Function.update T j { T j with ents := es }

def link (T : Tree) (j : Nat) (name : List UInt8) (n : Nat) : Tree :=
  T.setEnts j (putEnt (T j).ents (vacancy (T j).ents) (.of (UInt16.ofNat n) name))

def unlink (T : Tree) (j k : Nat) : Tree := T.setEnts j (putEnt (T j).ents k .zero)

def create (T : Tree) (j n : Nat) (name : List UInt8) (type : Int16) : Tree :=
  link (Function.update (if type = tDir then T.setNlink j ((T j).nlink + 1) else T) n
    ⟨type, 1, if type = tDir then [.of (UInt16.ofNat n) dot, .of (UInt16.ofNat j) dotdot] else [], 0⟩) j name n

theorem setNlink_type (T : Tree) (j : Nat) (l : Int16) (k : Nat) : (T.setNlink j l k).type = (T k).type := by
  by_cases hk : k = j
  · subst hk
    simp [setNlink]
  · simp [setNlink, hk]

theorem setNlink_ents (T : Tree) (j : Nat) (l : Int16) (k : Nat) : (T.setNlink j l k).ents = (T k).ents := by
  by_cases hk : k = j
  · subst hk
    simp [setNlink]
  · simp [setNlink, hk]

theorem setEnts_type (T : Tree) (j : Nat) (es : List Dirent) (k : Nat) : (T.setEnts j es k).type = (T k).type := by
  by_cases hk : k = j
  · subst hk
    simp [setEnts]
  · simp [setEnts, hk]

theorem setEnts_nlink (T : Tree) (j : Nat) (es : List Dirent) (k : Nat) :
    (T.setEnts j es k).nlink = (T k).nlink := by
  by_cases hk : k = j
  · subst hk
    simp [setEnts]
  · simp [setEnts, hk]

theorem setNlink_setNlink (T : Tree) (j : Nat) (l l' : Int16) :
    (T.setNlink j l).setNlink j l' = T.setNlink j l' := by
  simp [setNlink]

theorem setNlink_nlink (T : Tree) (j : Nat) : T.setNlink j (T j).nlink = T := update_eq_self j T

theorem setNlink_of_ne {j k : Nat} (hk : k ≠ j) (T : Tree) (l : Int16) : T.setNlink j l k = T k :=
  update_of_ne hk ..

theorem step_setNlink (T : Tree) (j : Nat) (l : Int16) : Step (T.setNlink j l) = Step T := by
  funext a c
  simp only [Step, setNlink_type, setNlink_ents]

theorem resolve_setNlink (T : Tree) (j : Nat) (l : Int16) (parent : Bool) (k : Nat) (name : List UInt8)
    (cs : List (List UInt8)) : resolve (T.setNlink j l) parent k name cs = resolve T parent k name cs := by
  induction cs generalizing k name with
  | nil => rfl
  | cons c cs ih => simp only [resolve, setNlink_type, setNlink_ents, ih]

theorem passes_setNlink (T : Tree) (j : Nat) (l : Int16) (U : Finset Nat) (parent : Bool) (k : Nat)
    (cs : List (List UInt8)) : Passes (T.setNlink j l) U parent k cs ↔ Passes T U parent k cs := by
  induction cs generalizing k with
  | nil => rfl
  | cons c cs ih => simp only [Passes, setNlink_type, setNlink_ents, ih]

theorem pathOk_setNlink (T : Tree) (j : Nat) (l : Int16) (U : Finset Nat) (parent : Bool) (path : List UInt8)
    (cwd : Nat) :
    PathOk (T.setNlink j l) U parent path cwd ↔ PathOk T U parent path cwd := by
  rw [PathOk, PathOk, passes_setNlink]

theorem setNlink_update_of_ne {j n : Nat} (hjn : j ≠ n) (T : Tree) (l : Int16) (x : Node) :
    setNlink (Function.update T n x) j l = Function.update (T.setNlink j l) n x := by
  rw [setNlink, setNlink, update_of_ne hjn, update_comm hjn]

theorem link_dots (T : Tree) {n : Nat} (hn : UInt16.ofNat n ≠ 0) (j : Nat) (type l : Int16) :
    link (link (Function.update T n ⟨type, l, [], 0⟩) n dot n) n dotdot j =
      Function.update T n ⟨type, l, [.of (UInt16.ofNat n) dot, .of (UInt16.ofNat j) dotdot], 0⟩ := by
  have hone : link (Function.update T n ⟨type, l, [], 0⟩) n dot n =
      Function.update T n ⟨type, l, [.of (UInt16.ofNat n) dot], 0⟩ := by
    simp [link, setEnts, putEnt]
  rw [hone]
  simp [link, setEnts, putEnt, vacancy_dot hn]

end Tree

theorem inumOf_link {inum : UInt16} (hi : inum ≠ 0) (hn : inumOf es name = none) :
    inumOf (putEnt es (vacancy es) (.of inum name)) name = some inum.toNat := by
  have hle := vacancy_le es
  refine Option.map_eq_some_iff.mpr ⟨(vacancy es, inum.toNat), lookup_eq_some.mpr ⟨?_, fun m hm de hde => ?_⟩, rfl⟩
  · exact ⟨.of inum name, by rw [getElem?_putEnt hle, if_pos rfl], (Dirent.is_of hi).mpr rfl, rfl⟩
  · rw [getElem?_putEnt hle, if_neg (by omega)] at hde
    exact inumOf_eq_none.mp hn m de hde

theorem Tree.create_type (T : Tree) (j n : Nat) (name : List UInt8) (type : Int16) (k : Nat) :
    (T.create j n name type k).type = if k = n then type else (T k).type := by
  rw [create, link, setEnts_type, update_apply]
  split
  next => rfl
  next =>
    split
    · rw [setNlink_type]
    · rfl

/-- From `T` to `T'`, inodes without a name and without references have vanished, and nothing else has changed. -/
def Swept (P : Nat → Prop) (T T' : Tree) : Prop :=
  ∀ k, T' k = T k ∨ ¬ P k ∧ (T k).Orphan ∧ T' k = .unused

theorem Swept.refl (P : Nat → Prop) (T : Tree) : Swept P T T := fun _ => .inl rfl

theorem Swept.trans {P : Nat → Prop} {T'' : Tree} (h : Swept P T T') (h' : Swept P T' T'') : Swept P T T'' := by
  intro k
  rcases h k with he | ⟨hk, ho, hu⟩
  · rw [← he]
    exact h' k
  · refine .inr ⟨hk, ho, ?_⟩
    rcases h' k with he' | ⟨-, -, hu'⟩
    · rw [he', hu]
    · exact hu'

theorem Swept.of_pinned {P : Nat → Prop} (h : Swept P T T') (hj : P j) : T' j = T j :=
  (h j).resolve_right fun ⟨hn, _⟩ => hn hj

theorem Swept.mono {P Q : Nat → Prop} (h : Swept P T T') (hQ : ∀ j, Q j → P j) : Swept Q T T' :=
  fun k => (h k).imp_right fun ⟨hk, ho⟩ => ⟨mt (hQ k) hk, ho⟩

theorem Swept.held {L' : List Hold} (h : Swept (Pinned b J L) T (tree sb t.disk)) (ht : Held sb b J L' t)
    (hL : ∀ x ∈ L', x ∈ L ∨ x.locked = true) : Swept (Used t) T (tree sb t.disk) := by
  intro k
  refine (h k).imp_right fun ⟨hk, ho, hu⟩ => ⟨fun hused => ?_, ho, hu⟩
  rcases ht.pinned_iff.mpr hused with hb | ⟨x, hx, rfl⟩
  · exact hk (.inl hb)
  · rcases hL x hx with hx | hl
    · exact hk (.inr ⟨x, hx, rfl⟩)
    · exact ht.type_ne hx hl (by rw [hu]; rfl)

theorem Shaped.swept {P : Nat → Prop} (h : Shaped n T) (hs : Swept P T T') : Shaped n T' := by
  have hsame (j) (hj : (T' j).type = tDir) : T' j = T j := by
    refine (hs j).resolve_right fun ⟨_, _, hu⟩ => ?_
    rw [hu] at hj
    cases hj
  refine ⟨fun j hj => ?_, fun j k de hj hk => ?_⟩
  · have he := hsame j hj
    rw [he] at hj ⊢
    exact h.rest j hj
  · have he := hsame j hj
    rw [he] at hj hk
    exact h.inum j k de hj hk

theorem Pinned.mono {L' : List Hold} (h : Pinned b J L j) (hL : ∀ x ∈ L, x ∈ L') : Pinned b J L' j :=
  h.imp_right fun ⟨x, hx, hxj⟩ => ⟨x, hL x hx, hxj⟩

theorem Vanished.swept {L' : List Hold} (h : Vanished b J L' j T T') (hL : ∀ x ∈ L, x ∈ L') :
    Swept (Pinned b J L) T T' := by
  obtain ⟨hpin, ho, rfl⟩ := h
  intro k
  by_cases hk : k = j
  · subst hk
    exact .inr ⟨fun hp => hpin (hp.mono hL), ho, update_self ..⟩
  · exact .inl (update_of_ne hk ..)

theorem toNat_ofNat_inum (hn : n < sb.ninodes) : (UInt16.ofNat n).toNat = n :=
  UInt16.toNat_ofNat_of_lt' (by have := sb.ninodes_le; show n < 2 ^ 16; omega)

namespace Shaped

theorem update {x : Node} (h : Shaped n T) (j : Nat) (hrest : x.type = tDir → x.rest = 0)
    (hents : x.type = tDir → ∀ (k : Nat) de, x.ents[k]? = some de → de.inum.toNat < n) :
    Shaped n (Function.update T j x) := by
  refine ⟨fun m hm => ?_, fun m k de hm hk => ?_⟩
  · by_cases hmj : m = j
    · subst hmj
      rw [update_self] at hm ⊢
      exact hrest hm
    · rw [update_of_ne hmj] at hm ⊢
      exact h.rest m hm
  · by_cases hmj : m = j
    · subst hmj
      rw [update_self] at hm hk
      exact hents hm k de hk
    · rw [update_of_ne hmj] at hm hk
      exact h.inum m k de hm hk

theorem setNlink (h : Shaped n T) (j : Nat) (l : Int16) : Shaped n (T.setNlink j l) :=
  h.update j (fun ht => h.rest j ht) fun ht k de hk => h.inum j k de ht hk

theorem setEnts (h : Shaped n T) (hk : k ≤ (T j).ents.length) {de : Dirent} (hde : de.inum.toNat < n) :
    Shaped n (T.setEnts j (putEnt (T j).ents k de)) := by
  refine h.update j (fun ht => h.rest j ht) fun ht m de' hm => ?_
  rw [getElem?_putEnt hk] at hm
  split at hm
  next => exact Option.some.inj hm ▸ hde
  next => exact h.inum j m de' ht hm

theorem link (h : Shaped sb.ninodes T) (j : Nat) (name : List UInt8) (hn : n < sb.ninodes) :
    Shaped sb.ninodes (T.link j name n) :=
  h.setEnts (vacancy_le _) ((toNat_ofNat_inum hn).trans_lt hn)

theorem fresh (h : Shaped sb.ninodes T) (hn : n < sb.ninodes) (hj : j < sb.ninodes) (m : Nat) (type l : Int16) :
    Shaped sb.ninodes (Function.update T m
      ⟨type, l, if type = tDir then [.of (UInt16.ofNat n) dot, .of (UInt16.ofNat j) dotdot] else [], 0⟩) := by
  refine h.update m (fun _ => rfl) fun hty k de hk => ?_
  have hmem := List.mem_of_getElem? hk
  simp only [if_pos (show type = tDir from hty), List.mem_cons, List.not_mem_nil, or_false] at hmem
  rcases hmem with rfl | rfl
  · exact (toNat_ofNat_inum hn).trans_lt hn
  · exact (toNat_ofNat_inum hj).trans_lt hj

theorem create (h : Shaped sb.ninodes T) (hn : n < sb.ninodes) (hj : j < sb.ninodes) (name : List UInt8)
    (type : Int16) :
    Shaped sb.ninodes (T.create j n name type) := by
  refine link (fresh ?_ hn hj n type 1) j name hn
  split
  · exact h.setNlink j _
  · exact h

end Shaped

theorem setNlink_held (h : Held sb b J L s) (hx : x ∈ L) (hl : x.locked = true) (n : Int16) :
    wp (iupdate sb x.ip) (fun _ t => Held sb b J L t ∧
        tree sb t.disk = (tree sb s.disk).setNlink x.inum n ∧ freeList sb t.disk = freeList sb s.disk)
      (fun _ => False) { s with icache := Function.update s.icache x.ip { s.icache x.ip with nlink := n } } := by
  obtain ⟨hheld, htree⟩ := h.setNlink hx hl n
  have hlt := h.inum_lt hx
  rw [← (h.held x hx).1] at htree hlt ⊢
  simp only [iupdate, inode, bread, logWrite, wp_bind, wp_gets, wp_update, update_self]
  exact ⟨hheld, htree, freeList_congr fun c _ => inUse_of_inode sb _ _ hlt c⟩

theorem ialloc_inodes (type : Int16) (s : State) :
    wp (ialloc sb rootdev type) (fun ip t => firstFreeInode sb s.disk = some (t.icache ip).inum) (fun e =>
      e = .panic .iallocNoInodes ∧ firstFreeInode sb s.disk = none ∨
      e = .panic .igetNoInodes ∧ ∃ n, firstFreeInode sb s.disk = some n ∧
        ∀ i, 0 < (s.icache i).ref ∧ (s.icache i).key ≠ (rootdev, n)) s := by
  simp only [ialloc, wp_bind, wp_gets]
  cases hf : firstFreeInode sb s.disk with
  | none => exact .inl ⟨rfl, rfl⟩
  | some n =>
      simp only [bread, logWrite, wp_bind, wp_gets, wp_update]
      refine (igetM_any rootdev n _).mono (fun ip t ⟨_, hgot⟩ => ?_) fun e ⟨he, hfull⟩ => .inr ⟨he, n, rfl, hfull⟩
      rcases hgot with ⟨-, hn, rfl⟩ | ⟨-, hic⟩
      · simpa [State.setRef] using hn.symm
      · simp [hic]

theorem claim_held {type : Int16} (h : Held sb b J L s) (hty : type ≠ 0) :
    wp (ialloc sb rootdev type) (fun ip t => wp (ilock sb ip) (fun _ u => ∃ n, n < sb.ninodes ∧ n ≠ 0 ∧
        (tree sb s.disk n).type = 0 ∧ firstFreeInode sb s.disk = some n ∧ (u.icache ip).inum = n ∧
          ∀ major minor : Int16, let v := u.putInode sb ip { (u.icache ip).toDinode with major, minor, nlink := 1 }
          Held sb b J (⟨ip, n, true⟩ :: L) v ∧
            tree sb v.disk = Function.update (tree sb s.disk) n ⟨type, 1, [], 0⟩ ∧
            freeList sb v.disk = freeList sb s.disk) (fun _ => False) t)
      (fun e => Exhausted e ∧ ¬ CanClaim sb s.disk (busy b J L)) s := by
  refine ((ialloc_spec h.consistent type).conj (ialloc_inodes type s)).mono ?_ ?_
  rotate_left
  · rintro e ⟨_, ⟨he, hnone⟩ | ⟨he, n, hsome, hfull⟩⟩
    · refine ⟨.inl he, ?_⟩
      rintro ⟨n, hn, _⟩
      rw [hnone] at hn
      cases hn
    · refine ⟨.inr (.inl he), ?_⟩
      rintro ⟨m, hm, hfit⟩
      refine h.not_fits hfull ?_
      rw [hsome] at hm
      exact Option.some.inj hm ▸ hfit
  rintro ip t ⟨⟨hc, n, hlt, hn0, h0, hgot⟩, hfirst⟩
  have hT0 : (tree sb s.disk n).type = 0 := by
    rw [tree_of_lt hlt]
    exact h0
  have hdisk : t.disk = putNode sb s.disk n (.fresh type) := by
    rcases hgot with ⟨-, -, rfl⟩ | ⟨-, -, rfl⟩ <;> rfl
  have hother (k) (hk : k ≠ ip) : t.icache k = s.icache k := by
    rcases hgot with ⟨-, -, rfl⟩ | ⟨-, -, rfl⟩
    · simp [State.setRef, hk]
    · simp [State.recycle, hk]
  have hself : (t.icache ip).ref = (s.icache ip).ref + 1 ∧ (t.icache ip).inum = n ∧
      (0 < (s.icache ip).ref → (s.icache ip).inum = n) := by
    rcases hgot with ⟨-, hn, rfl⟩ | ⟨-, hr, rfl⟩
    · exact ⟨by simp [State.setRef], by simpa [State.setRef] using hn, fun _ => hn⟩
    · exact ⟨by simp [State.recycle, show (s.icache ip).ref = 0 from hr], by simp [State.recycle],
        fun hpos => absurd hpos (by rw [show (s.icache ip).ref = 0 from hr]; exact lt_irrefl 0)⟩
  have hnode : dinode sb t.disk (t.icache ip).inum = .fresh type := by
    rw [hself.2.1, hdisk, dinode_putNode, if_pos rfl]
  refine (ilock_spec hc (by omega) (by rw [hnode]; exact hty)).imp ?_
  rintro _ u ⟨hcu, hdu, hicu⟩
  have hui : u.icache ip = { t.icache ip with toDinode := .fresh type, valid := true } := by
    rw [hicu, update_self, hnode]
  refine ⟨n, hlt, hn0, hT0, by rw [hfirst, hself.2.1], by rw [hui]; exact hself.2.1, fun major minor => ?_⟩
  intro v
  have hut (k) : (u.icache k).ref = (t.icache k).ref ∧ (u.icache k).inum = (t.icache k).inum := by
    by_cases hk : k = ip
    · rw [hk, hui]
      exact ⟨rfl, rfl⟩
    · rw [hicu, update_of_ne hk]
      exact ⟨rfl, rfl⟩
  have hvu (k) : (v.icache k).ref = (u.icache k).ref ∧ (v.icache k).inum = (u.icache k).inum ∧
      (v.icache k).valid = (u.icache k).valid := by
    by_cases hk : k = ip
    · subst hk; simp [v, State.putInode]
    · simp [v, State.putInode, hk]
  have huv (k) (hk : k ≠ ip) : u.icache k = s.icache k := by rw [hicu, update_of_ne hk, hother k hk]
  have hvalid : (u.icache ip).valid = true := by rw [hui]
  obtain ⟨hcv, htouch, hvnode⟩ := hcu.putInode (y := { (u.icache ip).toDinode with major, minor, nlink := 1 })
    (by rw [(hut ip).1]; omega) hvalid rfl rfl rfl
  have hinum : (u.icache ip).inum = n := (hut ip).2.trans hself.2.1
  have hclaim : Touched sb n (.fresh type) s.disk u.disk := by
    rw [hdu, hdisk]
    exact ⟨fun k _ => dinode_putNode k, fun k hk _ ht => Owned.sameFile_putNode h.consistent.owns hlt hk ht⟩
  have htree : tree sb v.disk = Function.update (tree sb s.disk) n ⟨type, 1, [], 0⟩ := by
    rw [htouch.tree_eq (hinum ▸ hlt) hcu.filled, hclaim.tree_eq hlt h.consistent.filled, hvnode, hinum,
      update_idem, hui]
    exact congrArg (fun x : Node => Function.update (tree sb s.disk) n { x with nlink := 1 })
      (node_fresh u.disk type)
  refine ⟨h.frame hcv ((h.exact.take ip).congr fun k => ?_) (fun k hks _ => ?_) (fun y hy => ?_) fun k hk => ?_,
    htree, ?_⟩
  · rw [(hvu k).1, (hut k).1]
    by_cases hk : k = ip
    · rw [hk, update_self, hself.1]
    · rw [update_of_ne hk, hother k hk]
  · by_cases hk : k = ip
    · subst hk
      rw [(hvu k).2.1, (hvu k).2.2, hinum, hself.2.2 hks]
      exact ⟨rfl, fun _ => hvalid⟩
    · rw [(hvu k).2.1, (hvu k).2.2, huv k hk]
      exact ⟨rfl, id⟩
  · rcases List.mem_cons.mp hy with rfl | hy
    · exact .inr ⟨(hvu ip).2.1.trans hinum, fun _ => (hvu ip).2.2.trans hvalid⟩
    · exact .inl hy
  · have hkn : k ≠ n := by
      rintro rfl
      rw [htree, update_self] at hk
      exact absurd hk.2 (show (1 : Int16) ≠ 0 by decide)
    rw [htree, update_of_ne hkn] at hk
    refine .inl ⟨hk, fun m hm hmk => ?_⟩
    by_cases hmi : m = ip
    · subst hmi
      exact absurd (hmk.symm.trans (hself.2.2 hm)) hkn
    · rw [(hvu m).1, huv m hmi]
      exact hm
  · show freeList sb (putNode sb u.disk (u.icache ip).inum _) = _
    rw [putNode, freeList_congr fun c _ => inUse_of_inode sb _ _ (hinum ▸ hlt) c, hdu, hdisk, putNode,
      freeList_congr fun c _ => inUse_of_inode sb _ _ hlt c]

theorem ofNat_ne_zero (hn : n < sb.ninodes) (h0 : n ≠ 0) : UInt16.ofNat n ≠ 0 := by
  rw [Ne, ← UInt16.toNat_inj, toNat_ofNat_inum hn]
  exact h0

section Calls

variable [Devsw]

theorem dirlink_held (h : Held sb b J L s) (hx : x ∈ L) (hl : x.locked = true)
    (hT : Shaped sb.ninodes (tree sb s.disk)) (ht : (tree sb s.disk x.inum).type = tDir)
    (hnone : inumOf (tree sb s.disk x.inum).ents name = none) (n : Nat) :
    wp (dirlink sb x.ip name n) (fun r t => r = 0 ∧ CanLink sb s.disk (tree sb s.disk x.inum).ents ∧
      Held sb b J L t ∧
        freeList sb t.disk = (freeList sb s.disk).drop (entGrowth (tree sb s.disk x.inum).ents) ∧
        tree sb t.disk = (tree sb s.disk).link x.inum name n)
      (fun e => Exhausted e ∧ ¬ CanLink sb s.disk (tree sb s.disk x.inum).ents) s := by
  obtain ⟨hdir, hents⟩ := h.openDir hx hl ht (hT.rest _ ht)
  have hlook : lookup (s.ents x.ip) name = none := by
    rw [hents]
    exact Option.map_eq_none_iff.mp hnone
  have hspec := hdir.dirlink_absent_spec n hlook
  rw [hents] at hspec
  refine hspec.imp fun r t ⟨hr, hcan, hfree, y, hy, hnode⟩ => ?_
  have htouch := hy.touched
  rw [(h.held x hx).1] at htouch
  obtain ⟨hheld, htree⟩ := h.touch hx hl hy.consistent htouch hy.icache
  refine ⟨hr, hcan, hheld, hfree, ?_⟩
  rw [htree, hnode, h.node_eq hx hl]
  rfl

theorem dirlink_held_present (h : Held sb b J L s) (hx : x ∈ L) (hl : x.locked = true)
    (hT : Shaped sb.ninodes (tree sb s.disk)) (ht : (tree sb s.disk x.inum).type = tDir)
    (hsome : inumOf (tree sb s.disk x.inum).ents name = some k) (n : Nat) :
    wp (dirlink sb x.ip name n) (fun r t => r = -1 ∧ Fits (busy b J L) k ∧ Held sb b J L t ∧ t.disk = s.disk)
      (fun e => Exhausted e ∧ ¬ Fits (busy b J L) k) s := by
  rw [dirlink]
  refine wp_bind.mpr <| (dirlookup_held h hx hl hT ht name).mono (fun r s₁ ⟨hd₁, hr⟩ => ?_)
    fun e ⟨he, _, m, hm, hfit⟩ => ⟨.inr (.inl he), Option.some.inj (hsome.symm.trans hm) ▸ hfit⟩
  obtain ⟨⟨m, k⟩, hlook, rfl⟩ := Option.map_eq_some_iff.mp hsome
  rw [hlook] at hr
  obtain ⟨ip, rfl, h₁⟩ := hr
  refine wp_bind.mpr ((iput_pinned h₁ fun ho => ?_).mono (fun _ t ⟨ht, hd⟩ => ⟨rfl, h₁.fits, ht, hd.trans hd₁⟩)
    fun _ => False.elim)
  rw [hd₁] at ho
  exact h.pinned ho

theorem clear_held (h : Held sb b J L s) (hx : x ∈ L) (hl : x.locked = true)
    (hT : Shaped sb.ninodes (tree sb s.disk)) (ht : (tree sb s.disk x.inum).type = tDir)
    (hk : k < (tree sb s.disk x.inum).ents.length) :
    wp (writei sb x.ip Dirent.zero.src (UInt32.ofNat (16 * k)) dirent16) (fun r t => r = 16 ∧ Held sb b J L t ∧
        tree sb t.disk = (tree sb s.disk).unlink x.inum k) (fun _ => False) s := by
  obtain ⟨hdir, hents⟩ := h.openDir hx hl ht (hT.rest _ ht)
  have hname : Dirent.zero.name.length = dirsiz := List.length_replicate
  rw [← hents] at hk
  obtain ⟨t, hw, -⟩ := hdir.writei_entry_ok hname (.inl hk)
  have hspec := (wp_iff.mp (hdir.writei_entry hname hk.le)).1 _ t hw
  rw [wp, hw]
  rcases hspec with ⟨hr, -⟩ | ⟨-, y, hy, hnode⟩
  · cases hr
  · have htouch := hy.touched
    rw [(h.held x hx).1] at htouch
    obtain ⟨hheld, htree⟩ := h.touch hx hl hy.consistent htouch hy.icache
    refine ⟨rfl, hheld, ?_⟩
    rw [htree, hnode, h.node_eq hx hl, hents]
    rfl

theorem createDots_held {ip dp : Fin ninode} (h : Held sb b J (⟨ip, n, true⟩ :: ⟨dp, j, true⟩ :: L) s)
    (hT : Shaped sb.ninodes T) (hs : tree sb s.disk = Function.update T n ⟨tDir, 1, [], 0⟩) (hjn : j ≠ n)
    (h0 : n ≠ 0) :
    wp (createDots sb dp ip) (fun _ t => Held sb b J (⟨ip, n, true⟩ :: ⟨dp, j, true⟩ :: L) t ∧
        tree sb t.disk = Function.update (T.setNlink j ((T j).nlink + 1)) n
          ⟨tDir, 1, [.of (UInt16.ofNat n) dot, .of (UInt16.ofNat j) dotdot], 0⟩ ∧
        (freeList sb s.disk).length = (freeList sb t.disk).length + 1)
      (fun e => Exhausted e ∧ (freeList sb s.disk).length < 1) s := by
  have hip : (⟨ip, n, true⟩ : Hold) ∈ (⟨ip, n, true⟩ : Hold) :: ⟨dp, j, true⟩ :: L := List.mem_cons_self
  have hdp : (⟨dp, j, true⟩ : Hold) ∈ (⟨ip, n, true⟩ : Hold) :: ⟨dp, j, true⟩ :: L :=
    List.mem_cons_of_mem _ List.mem_cons_self
  have hn16 : UInt16.ofNat n ≠ 0 := ofNat_ne_zero (h.inum_lt hip) h0
  have hTs : Shaped sb.ninodes (tree sb s.disk) := by
    rw [hs]
    exact hT.update n (fun _ => rfl) fun _ k de hk => nomatch hk
  have hnlink : (s.icache dp).nlink = (T j).nlink := by
    have := h.nlink_eq hdp rfl
    rwa [hs, update_of_ne hjn] at this
  have hdinum : (s.icache dp).inum = j := (h.held _ hdp).1
  simp only [createDots, inode, setInode, wp_bind, wp_gets, wp_update]
  rw [hnlink]
  refine (setNlink_held h hdp rfl ((T j).nlink + 1)).mono (fun _ s₁ ⟨h₁, ht₁, hf₁⟩ => ?_) fun _ => False.elim
  have hT₁ : Shaped sb.ninodes (tree sb s₁.disk) := ht₁ ▸ hTs.setNlink j _
  rw [hs, Tree.setNlink_update_of_ne hjn] at ht₁
  have hn₁ : tree sb s₁.disk n = ⟨tDir, 1, [], 0⟩ := by rw [ht₁, update_self]
  have hinum₁ : (s₁.icache ip).inum = n := (h₁.held _ hip).1
  have hlink₁ : wp (dirlink sb ip dot n) _ _ s₁ := dirlink_held h₁ hip rfl hT₁ (by rw [hn₁]) (by rw [hn₁]; rfl) n
  rw [hn₁] at hlink₁
  simp only [wp_bind, wp_gets]
  rw [hinum₁, hdinum]
  refine hlink₁.mono (fun r s₂ ⟨hr, hcan₁, h₂, hf₂, ht₂⟩ => ?_) fun e ⟨he, hcan⟩ => ⟨he, ?_⟩
  · have hT₂ : Shaped sb.ninodes (tree sb s₂.disk) := ht₂ ▸ hT₁.link n dot (h.inum_lt hip)
    have hn₂ : tree sb s₂.disk n = ⟨tDir, 1, [.of (UInt16.ofNat n) dot], 0⟩ := by
      rw [ht₂, Tree.link, Tree.setEnts, update_self, hn₁]
      rfl
    have hlink₂ : wp (dirlink sb ip dotdot j) _ _ s₂ :=
      dirlink_held h₂ hip rfl hT₂ (by rw [hn₂]) (by rw [hn₂]; exact inumOf_dot _) j
    rw [hn₂] at hlink₂
    rw [if_neg (by rw [hr]; decide)]
    refine wp_bind.mpr <| hlink₂.mono (fun r s₃ ⟨hr, _, h₃, hf₃, ht₃⟩ => ?_) fun e ⟨_, hcan⟩ => (hcan ⟨?_, ?_⟩).elim
    · rw [if_neg (by rw [hr]; decide)]
      refine ⟨h₃, ?_, ?_⟩
      · rw [ht₃, ht₂, ht₁]
        exact Tree.link_dots _ hn16 ..
      · rw [hf₃, hf₂, hf₁, entGrowth_nil, entGrowth_dot hn16]
        have hle := hcan₁.2
        rw [entGrowth_nil, hf₁] at hle
        rw [List.length_drop, List.length_drop]
        omega
    · rw [DirFull, vacancy_dot hn16]
      decide
    · rw [entGrowth_dot hn16]
      exact Nat.zero_le _
  · by_contra hlt
    refine hcan ⟨by decide, ?_⟩
    rw [entGrowth_nil, hf₁]
    omega

theorem nameNew_held {ip dp : Fin ninode} {type : Int16} (h : Held sb b J (⟨ip, n, true⟩ :: ⟨dp, j, true⟩ :: L) s)
    (hT : Shaped sb.ninodes T) (hs : tree sb s.disk = Function.update T n ⟨type, 1, [], 0⟩)
    (hjn : j ≠ n) (h0 : n ≠ 0)
    (ht : (T j).type = tDir) (hnone : inumOf (T j).ents name = none) :
    wp (do
        (if type = tDir then createDots sb dp ip else pure ())
        let r ← dirlink sb dp name n
        if r < 0 then panic .createDirlink
        else do
          iunlockput sb dp
          pure ip : FsM (Fin ninode))
      (fun r t => r = ip ∧ ¬ DirFull (T j).ents ∧
        (if type = tDir then 1 else 0) + entGrowth (T j).ents ≤ (freeList sb s.disk).length ∧
        Held sb b J (⟨ip, n, true⟩ :: L) t ∧ Swept (Pinned b J L) (T.create j n name type) (tree sb t.disk))
      (fun e => Exhausted e ∧ ¬ (¬ DirFull (T j).ents ∧
        (if type = tDir then 1 else 0) + entGrowth (T j).ents ≤ (freeList sb s.disk).length)) s := by
  have hn : n < sb.ninodes := h.inum_lt (x := ⟨ip, n, true⟩) List.mem_cons_self
  have hdp : (⟨dp, j, true⟩ : Hold) ∈ (⟨ip, n, true⟩ : Hold) :: ⟨dp, j, true⟩ :: L :=
    List.mem_cons_of_mem _ List.mem_cons_self
  have hj : j < sb.ninodes := h.inum_lt hdp
  set T₁ : Tree := Function.update (if type = tDir then T.setNlink j ((T j).nlink + 1) else T) n
    ⟨type, 1, if type = tDir then [.of (UInt16.ofNat n) dot, .of (UInt16.ofNat j) dotdot] else [], 0⟩ with hT₁
  have hdots : wp (if type = tDir then createDots sb dp ip else pure ())
      (fun _ t => Held sb b J (⟨ip, n, true⟩ :: ⟨dp, j, true⟩ :: L) t ∧ tree sb t.disk = T₁ ∧
        (freeList sb s.disk).length = (freeList sb t.disk).length + if type = tDir then 1 else 0)
      (fun e => Exhausted e ∧ type = tDir ∧ (freeList sb s.disk).length < 1) s := by
    by_cases hty : type = tDir
    · subst hty
      rw [if_pos rfl]
      refine (createDots_held h hT hs hjn h0).mono (fun _ t ⟨hh, htree, hf⟩ => ⟨hh, ?_, hf⟩) fun e ⟨he, hlt⟩ =>
        ⟨he, rfl, hlt⟩
      rw [htree, hT₁, if_pos rfl, if_pos rfl]
    · rw [if_neg hty]
      refine ⟨h, ?_, ?_⟩
      · rw [hs, hT₁, if_neg hty, if_neg hty]
      · rw [if_neg hty, Nat.add_zero]
  have hshape : Shaped sb.ninodes T₁ := by
    refine Shaped.fresh ?_ hn hj n type 1
    split
    · exact hT.setNlink j _
    · exact hT
  have hnode : (T₁ j).type = tDir ∧ (T₁ j).ents = (T j).ents := by
    rw [hT₁, update_of_ne hjn]
    split
    · rw [Tree.setNlink_type, Tree.setNlink_ents]
      exact ⟨ht, rfl⟩
    · exact ⟨ht, rfl⟩
  refine wp_bind.mpr <| hdots.mono (fun _ s₁ ⟨h₁, ht₁, hf₁⟩ => ?_) fun e ⟨he, hty, hlt⟩ => ⟨he, fun hc => ?_⟩
  · rw [← ht₁] at hshape hnode
    have hlink : wp (dirlink sb dp name n) _ _ s₁ :=
      dirlink_held h₁ hdp rfl hshape hnode.1 (by rw [hnode.2]; exact hnone) n
    rw [hnode.2] at hlink
    refine wp_bind.mpr <| hlink.mono (fun r s₂ ⟨hr, hcan, h₂, _, ht₂⟩ => ?_) fun e ⟨he, hcan⟩ =>
      ⟨he, fun hc => hcan ⟨hc.1, ?_⟩⟩
    · rw [if_neg (by rw [hr]; decide)]
      refine wp_bind.mpr <| (iunlockput_held h₂.swap).mono (fun _ t ⟨h₃, hd⟩ => ⟨rfl, hcan.1, ?_, h₃, ?_⟩)
        fun _ => False.elim
      · have := hcan.2
        omega
      · rw [ht₁] at ht₂
        rw [show T.create j n name type = tree sb s₂.disk from ht₂.symm]
        rcases hd with hd | hd
        · rw [hd]
          exact Swept.refl _ _
        · exact hd.swept fun x hx => List.mem_cons_of_mem _ hx
    · have := hc.2
      omega
  · have := hc.2
    rw [if_pos hty] at this
    omega

theorem createNew_held {dp : Fin ninode} {type : Int16} (h : Held sb b J (⟨dp, j, true⟩ :: L) s)
    (hT : Shaped sb.ninodes (tree sb s.disk)) (ht : (tree sb s.disk j).type = tDir)
    (hnone : inumOf (tree sb s.disk j).ents name = none) (hty : type ≠ 0) (major minor : Int16) :
    wp (createNew sb dp name type major minor)
      (fun ip t => CanCreate sb s.disk (insert j (busy b J L)) j type ∧ ∃ n, n < sb.ninodes ∧ n ≠ 0 ∧
        (tree sb s.disk n).type = 0 ∧ firstFreeInode sb s.disk = some n ∧ Held sb b J (⟨ip, n, true⟩ :: L) t ∧
        Swept (Pinned b J L) ((tree sb s.disk).create j n name type) (tree sb t.disk))
      (fun e => Exhausted e ∧ ¬ CanCreate sb s.disk (insert j (busy b J L)) j type) s := by
  have hdev : (s.icache dp).dev = rootdev := h.consistent.cache.dev _ (h.ref_pos List.mem_cons_self)
  have hj : j < sb.ninodes := h.inum_lt List.mem_cons_self
  simp only [createNew, inode, setInode, wp_bind, wp_gets]
  rw [hdev]
  refine (claim_held h hty).mono (fun ip s₁ hlock => ?_) ?_
  · refine wp_bind.mpr <| hlock.mono ?_ fun _ => False.elim
    rintro _ s₂ ⟨n, hn, hn0, hfree, hfirst, hinum, hnew⟩
    obtain ⟨h₃, ht₃, hf₃⟩ := hnew major minor
    have hjn : j ≠ n := by
      rintro rfl
      rw [ht] at hfree
      cases hfree
    subst hinum
    simp only [iupdate, inode, bread, logWrite, wp_bind, wp_gets, wp_update, update_self]
    apply wp_bind.mp
    have hname := nameNew_held h₃ hT ht₃ hjn hn0 ht hnone
    rw [hf₃] at hname
    refine hname.mono ?_ (by rintro e ⟨he, hcan⟩; exact ⟨he, fun hc => hcan hc.2⟩)
    rintro r t ⟨hr, hfull, hle, h₄, hswept⟩
    rw [hr]
    have hfit := h₃.fits
    rw [busy_cons] at hfit
    exact ⟨⟨⟨_, hfirst, hfit⟩, hfull, hle⟩, _, hn, hn0, hfree, hfirst, h₄, hswept⟩
  · rintro e ⟨he, hcan⟩
    refine ⟨he, fun hc => hcan ?_⟩
    rw [busy_cons]
    exact hc.1

end Calls

end Xv6.Fs
