import Xv6.Fs.Tree

namespace Xv6.Fs

open Lib Lib.Exec Lib.Cstr

variable {sb : Layout} {s t : State} {i : Fin ninode} {x : Dinode} {j k m n : Nat} {de : Dirent}
  {name : List UInt8} {es : List Dirent}

def Dirent.Is (name : List UInt8) (de : Dirent) : Prop := de.inum ≠ 0 ∧ Cstr.text dirsiz name = de.text

instance (name : List UInt8) (de : Dirent) : Decidable (de.Is name) := inferInstanceAs (Decidable (_ ∧ _))

theorem Dirent.is_iff : de.Is name ↔ de.inum ≠ 0 ∧ namecmp name de.name = 0 := by
  rw [Dirent.Is, Dirent.text, namecmp, strncmp_eq_zero_iff]

def firstFrom (p : Dirent → Prop) [DecidablePred p] (k : Nat) (es : List Dirent) : Option Nat :=
  ((es.drop k).findIdx? fun de => decide (p de)).map (· + k)

section FirstFrom

variable {p : Dirent → Prop} [DecidablePred p]

theorem firstFrom_of_le (h : es.length ≤ k) : firstFrom p k es = none := by
  rw [firstFrom, List.drop_of_length_le h]
  rfl

theorem firstFrom_of_getElem? (h : es[k]? = some de) :
    firstFrom p k es = if p de then some k else firstFrom p (k + 1) es := by
  obtain ⟨hk, rfl⟩ := List.getElem?_eq_some_iff.mp h
  rw [firstFrom, List.drop_eq_getElem_cons hk, List.findIdx?_cons]
  by_cases hp : p es[k]
  · simp [hp]
  · rw [if_neg (by simpa using hp), if_neg hp, firstFrom, Option.map_map]
    congr 1
    funext m
    simp only [Function.comp_apply]
    omega

theorem firstFrom_zero_eq_some : firstFrom p 0 es = some k ↔
    (∃ de, es[k]? = some de ∧ p de) ∧ ∀ m < k, ∀ de, es[m]? = some de → ¬ p de := by
  simp only [firstFrom, List.drop_zero, Nat.add_zero, Option.map_id', List.findIdx?_eq_some_iff_getElem,
    decide_eq_true_eq]
  constructor
  · rintro ⟨hk, hp, hlt⟩
    refine ⟨⟨es[k], List.getElem?_eq_getElem hk, hp⟩, fun m hm de hde => ?_⟩
    obtain ⟨_, rfl⟩ := List.getElem?_eq_some_iff.mp hde
    exact hlt m hm
  · rintro ⟨⟨de, hde, hp⟩, hlt⟩
    obtain ⟨hk, rfl⟩ := List.getElem?_eq_some_iff.mp hde
    exact ⟨hk, hp, fun m hm => hlt m hm _ (List.getElem?_eq_getElem (hm.trans hk))⟩

theorem firstFrom_zero_eq_none : firstFrom p 0 es = none ↔ ∀ (m : Nat) de, es[m]? = some de → ¬ p de := by
  simp only [firstFrom, List.drop_zero, Nat.add_zero, Option.map_id', List.findIdx?_eq_none_iff,
    decide_eq_false_iff_not]
  constructor
  · intro h m de hde
    exact h de (List.mem_of_getElem? hde)
  · intro h de hde
    obtain ⟨m, hm⟩ := List.mem_iff_getElem?.mp hde
    exact h m de hm

end FirstFrom

def lookup (es : List Dirent) (name : List UInt8) : Option (Nat × Nat) :=
  (firstFrom (·.Is name) 0 es).map fun k => (k, (es.getD k .zero).inum.toNat)

theorem lookup_eq_some : lookup es name = some (k, n) ↔
    (∃ de, es[k]? = some de ∧ de.Is name ∧ de.inum.toNat = n) ∧ ∀ m < k, ∀ de, es[m]? = some de → ¬ de.Is name := by
  rw [lookup, Option.map_eq_some_iff]
  constructor
  · rintro ⟨m, hm, he⟩
    obtain ⟨rfl, rfl⟩ := Prod.mk.inj he
    obtain ⟨⟨de, hde, hp⟩, hlt⟩ := firstFrom_zero_eq_some.mp hm
    refine ⟨⟨de, hde, hp, ?_⟩, hlt⟩
    rw [List.getD_eq_getElem?_getD, hde, Option.getD_some]
  · rintro ⟨⟨de, hde, hp, rfl⟩, hlt⟩
    refine ⟨k, firstFrom_zero_eq_some.mpr ⟨⟨de, hde, hp⟩, hlt⟩, ?_⟩
    rw [List.getD_eq_getElem?_getD, hde, Option.getD_some]

theorem lookup_eq_none : lookup es name = none ↔ ∀ (m : Nat) de, es[m]? = some de → ¬ de.Is name := by
  rw [lookup, Option.map_eq_none_iff, firstFrom_zero_eq_none]

def vacancy (es : List Dirent) : Nat := (firstFrom (·.inum = 0) 0 es).getD es.length

theorem vacancy_le (es : List Dirent) : vacancy es ≤ es.length := by
  unfold vacancy
  cases h : firstFrom (·.inum = 0) 0 es with
  | none => exact le_rfl
  | some k =>
      obtain ⟨⟨de, hde, -⟩, -⟩ := firstFrom_zero_eq_some.mp h
      exact (List.getElem?_eq_some_iff.mp hde).1.le

theorem getElem?_vacancy (h : es[vacancy es]? = some de) : de.inum = 0 := by
  unfold vacancy at h
  cases hf : firstFrom (·.inum = 0) 0 es with
  | none =>
      rw [hf, Option.getD_none, List.getElem?_eq_none le_rfl] at h
      cases h
  | some k =>
      obtain ⟨⟨de', hde, h0⟩, -⟩ := firstFrom_zero_eq_some.mp hf
      rw [hf, Option.getD_some, hde] at h
      exact Option.some.inj h ▸ h0

def Bare (es : List Dirent) : Prop := ∀ de ∈ es.drop 2, de.inum = 0

instance (es : List Dirent) : Decidable (Bare es) := inferInstanceAs (Decidable (∀ _ ∈ _, _))

structure OpenDir (sb : Layout) (i : Fin ninode) (s : State) : Prop where
  consistent : Consistent sb s
  ref : 0 < (s.icache i).ref
  valid : (s.icache i).valid = true
  type : (s.icache i).type = tDir
  rest : ((s.icache i).toDinode.node s.disk).rest = 0

abbrev State.ents (s : State) (i : Fin ninode) : List Dirent := ((s.icache i).toDinode.node s.disk).ents

namespace OpenDir

theorem size_mod (h : OpenDir sb i s) : (s.icache i).size.toNat % 16 = 0 := by
  have := h.rest
  simpa [Dinode.node, h.type] using this

theorem length_ents (h : OpenDir sb i s) : 16 * (s.ents i).length = (s.icache i).size.toNat := by
  have := h.size_mod
  rw [State.ents, Dinode.length_ents h.type, Dinode.slots]
  omega

theorem size_le (h : OpenDir sb i s) : (s.icache i).size.toNat ≤ maxfile * bsize :=
  blocks_le_iff.mp (h.consistent.filled_cached h.ref h.valid).le_maxfile

theorem slots_eq (h : OpenDir sb i s) : (s.icache i).slots = (s.ents i).length := (Dinode.length_ents h.type).symm

variable [Devsw]

theorem readi_entry (h : OpenDir sb i s) (hk : (s.ents i)[k]? = some de) :
    ∃ bs, readi sb i (UInt32.ofNat (16 * k)) dirent16 s = .ok ((16, bs), s) ∧ Dirent.ofBytes bs = de := by
  have hlt : k < (s.ents i).length := (List.getElem?_eq_some_iff.mp hk).1
  have hlen := h.length_ents
  have hsize := h.size_le
  have hmax := maxfile_bsize
  have hoff : (UInt32.ofNat (16 * k)).toNat = 16 * k := UInt32.toNat_ofNat_of_lt' (by show _ < 2 ^ 32; omega)
  have hn : dirent16.toNat = 16 := rfl
  have hread : wp (readi sb i (UInt32.ofNat (16 * k)) dirent16) _ _ s :=
    readi_filled (h.consistent.filled_cached h.ref h.valid) (by rw [h.type]; decide)
  have hw := wp_iff.mp hread
  cases hm : readi sb i (UInt32.ofNat (16 * k)) dirent16 s with
  | error e => exact (hw.2 e hm).elim
  | ok r =>
      obtain ⟨⟨r, bs⟩, t⟩ := r
      obtain ⟨rfl, hbad | ⟨-, -, hr, hbs⟩⟩ := hw.1 _ _ hm
      · exfalso
        obtain ⟨-, hbad | hbad⟩ := hbad
        · rw [UInt32.lt_iff_toNat_lt, hoff] at hbad
          omega
        · omega
      · simp only [hoff, hn] at hr hbs
        rw [show min 16 ((t.icache i).size.toNat - 16 * k) = 16 by omega] at hbs
        refine ⟨bs, ?_, ?_⟩
        · rw [hr, hbs]
          simp
        · rw [State.ents, Dinode.node_ents h.type, List.getElem?_map,
            List.getElem?_range (h.slots_eq.symm ▸ hlt)] at hk
          rw [← Option.some.inj hk, hbs]
          rfl

/-- What `dirlookup` does once it knows where the name is. -/
def getFound (dev : Nat) : Option (Nat × Nat) → FsM (Option (Fin ninode × Nat))
  | none => pure none
  | some (k, n) => do
      let ip ← igetM dev n
      pure (some (ip, 16 * k))

theorem lookupFrom_eq (h : OpenDir sb i s) (name : List UInt8) {fuel : Nat} (hf : (s.ents i).length < fuel + k) :
    lookupFrom sb i name fuel (16 * k) s = getFound (s.icache i).dev
      ((firstFrom (·.Is name) k (s.ents i)).map fun m => (m, ((s.ents i).getD m .zero).inum.toNat)) s := by
  have hlen := h.length_ents
  induction fuel generalizing k with
  | zero =>
      rw [firstFrom_of_le (by omega)]
      rfl
  | succ fuel ih =>
      rw [lookupFrom, bind_ok (inode_eq i s)]
      by_cases hk : k < (s.ents i).length
      · rw [if_pos (by omega)]
        obtain ⟨bs, hread, hbs⟩ := h.readi_entry (List.getElem?_eq_getElem hk)
        rw [bind_ok hread, firstFrom_of_getElem? (List.getElem?_eq_getElem hk)]
        simp only [ne_eq, not_true_eq_false, if_false, hbs]
        by_cases h0 : (s.ents i)[k].inum = 0
        · rw [if_pos h0, if_neg (fun hc => hc.1 h0)]
          exact ih (k := k + 1) (by omega)
        · rw [if_neg h0]
          by_cases hn : namecmp name (s.ents i)[k].name = 0
          · rw [if_pos hn, if_pos (Dirent.is_iff.mpr ⟨h0, hn⟩)]
            simp only [Option.map_some, List.getD_eq_getElem _ _ hk]
            rfl
          · rw [if_neg hn, if_neg (fun hc => hn (Dirent.is_iff.mp hc).2)]
            exact ih (k := k + 1) (by omega)
      · rw [if_neg (by omega), firstFrom_of_le (by omega)]
        rfl

theorem dirlookup_eq (h : OpenDir sb i s) (name : List UInt8) :
    dirlookup sb i name s = getFound (s.icache i).dev (lookup (s.ents i) name) s := by
  have hslots := h.slots_eq
  rw [Dinode.slots] at hslots
  rw [dirlookup, bind_ok (inode_eq i s), if_neg (not_not.mpr h.type), hslots]
  exact h.lookupFrom_eq name (k := 0) (by omega)

theorem emptyFrom_eq (h : OpenDir sb i s) {fuel : Nat} (hk : k ≤ (s.ents i).length)
    (hf : (s.ents i).length < fuel + k) :
    emptyFrom sb i fuel (16 * k) s = .ok (16 * (firstFrom (·.inum = 0) k (s.ents i)).getD (s.ents i).length,
      s) := by
  have hlen := h.length_ents
  induction fuel generalizing k with
  | zero => omega
  | succ fuel ih =>
      rw [emptyFrom, bind_ok (inode_eq i s)]
      by_cases hlt : k < (s.ents i).length
      · rw [if_pos (by omega)]
        obtain ⟨bs, hread, hbs⟩ := h.readi_entry (List.getElem?_eq_getElem hlt)
        rw [bind_ok hread, firstFrom_of_getElem? (List.getElem?_eq_getElem hlt)]
        simp only [ne_eq, not_true_eq_false, if_false, hbs]
        by_cases h0 : (s.ents i)[k].inum = 0
        · rw [if_pos h0, if_pos h0]
          rfl
        · rw [if_neg h0, if_neg h0]
          exact ih (k := k + 1) (by omega) (by omega)
      · rw [if_neg (by omega), firstFrom_of_le (by omega), Option.getD_none, show k = (s.ents i).length by omega]
        rfl

theorem emptyAfter_eq (h : OpenDir sb i s) {fuel : Nat} (hf : (s.ents i).length < fuel + k) :
    emptyAfter sb i fuel (16 * k) s = .ok ((firstFrom (·.inum ≠ 0) k (s.ents i)).isNone, s) := by
  have hlen := h.length_ents
  induction fuel generalizing k with
  | zero =>
      rw [firstFrom_of_le (by omega)]
      rfl
  | succ fuel ih =>
      rw [emptyAfter, bind_ok (inode_eq i s)]
      by_cases hlt : k < (s.ents i).length
      · rw [if_pos (by omega)]
        obtain ⟨bs, hread, hbs⟩ := h.readi_entry (List.getElem?_eq_getElem hlt)
        rw [bind_ok hread, firstFrom_of_getElem? (List.getElem?_eq_getElem hlt)]
        simp only [ne_eq, not_true_eq_false, if_false, hbs]
        by_cases h0 : (s.ents i)[k].inum = 0
        · rw [if_neg (not_not.mpr h0), if_neg (not_not.mpr h0)]
          exact ih (k := k + 1) (by omega)
        · rw [if_pos h0, if_pos h0]
          rfl
      · rw [if_neg (by omega), firstFrom_of_le (by omega)]
        rfl

theorem isdirempty_eq (h : OpenDir sb i s) : isdirempty sb i s = .ok (decide (Bare (s.ents i)), s) := by
  have hslots := h.slots_eq
  rw [Dinode.slots] at hslots
  rw [isdirempty, bind_ok (inode_eq i s), hslots, h.emptyAfter_eq (k := 2) (by omega)]
  have hbare : (firstFrom (·.inum ≠ 0) 2 (s.ents i)).isNone = decide (Bare (s.ents i)) := by
    rw [Bool.eq_iff_iff, decide_eq_true_iff]
    simp [firstFrom, Bare]
  rw [hbare]

theorem writei_entry (h : OpenDir sb i s) (hde : de.name.length = dirsiz) (hk : k ≤ (s.ents i).length) :
    wp (writei sb i de.src (UInt32.ofNat (16 * k)) dirent16) (fun r t =>
        r = -1 ∧ t = s ∧ maxfile * bsize < 16 * k + 16 ∨
        r = 16 ∧ ∃ x, Written sb i de.src (16 * k) 16 s t x ∧
          x.node t.disk = { (s.icache i).toDinode.node s.disk with ents := putEnt (s.ents i) k de })
      BmapPanic s := by
  have hlen := h.length_ents
  have hsize := h.size_le
  have hmax := maxfile_bsize
  have hoff : (UInt32.ofNat (16 * k)).toNat = 16 * k := UInt32.toNat_ofNat_of_lt' (by show _ < 2 ^ 32; omega)
  have hn : dirent16.toNat = 16 := rfl
  refine (writei_spec h.consistent h.ref h.valid (by rw [h.type]; decide)).imp fun r t hr => ?_
  rw [hoff, hn] at hr
  rcases hr with ⟨hr, ht, hbad | hbad⟩ | ⟨hr, -, -, x, hx⟩
  · rw [UInt32.lt_iff_toNat_lt, hoff] at hbad
    omega
  · exact .inl ⟨hr, ht, hbad⟩
  · exact .inr ⟨hr, x, hx, hx.node_eq hde h.type h.rest hk⟩

theorem dirlink_present (h : OpenDir sb i s) (inum : Nat) (hl : lookup (s.ents i) name = some (k, n)) :
    dirlink sb i name inum s = (do let ip ← igetM (s.icache i).dev n; iput sb ip; pure (-1) : FsM Int) s := by
  have hlook := h.dirlookup_eq name
  rw [hl] at hlook
  show (dirlookup sb i name >>= _) s = _
  cases hg : igetM (s.icache i).dev n s with
  | error e =>
      rw [getFound, bind_error hg] at hlook
      rw [bind_error hlook, bind_error hg]
  | ok r =>
      obtain ⟨ip, t⟩ := r
      rw [getFound, bind_ok hg] at hlook
      rw [bind_ok hlook, bind_ok hg]

theorem dirlink_absent (h : OpenDir sb i s) (inum : Nat) (hl : lookup (s.ents i) name = none) :
    dirlink sb i name inum s = (do
      let r ← writei sb i (Dirent.of (UInt16.ofNat inum) name).src (UInt32.ofNat (16 * vacancy (s.ents i))) dirent16
      if r ≠ 16 then panic .dirlink else pure 0 : FsM Int) s := by
  have hlook := h.dirlookup_eq name
  have hslots := h.slots_eq
  rw [Dinode.slots] at hslots
  rw [hl] at hlook
  show (dirlookup sb i name >>= _) s = _
  rw [bind_ok hlook]
  dsimp only
  rw [bind_ok (inode_eq i s), hslots, bind_ok (h.emptyFrom_eq (k := 0) (Nat.zero_le _) (by omega))]
  rfl

end OpenDir

end Xv6.Fs
