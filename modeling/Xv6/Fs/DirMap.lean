import Xv6.Fs.Lookup
import Xv6.Fs.Supply

namespace Xv6.Fs

open Lib Lib.Exec

variable {sb : Layout} {s t : State} {i : Fin ninode} {k n : Nat} {de : Dirent} {name : List UInt8}
    {es : List Dirent}

def Distinct (es : List Dirent) : Prop :=
  ∀ (k m : Nat) (a b : Dirent), es[k]? = some a → es[m]? = some b → a.inum ≠ 0 → b.inum ≠ 0 → a.text =
    b.text → k = m

def inumOf (es : List Dirent) (name : List UInt8) : Option Nat := (lookup es name).map Prod.snd

abbrev textOf (name : List UInt8) : List UInt8 := Cstr.text dirsiz name

theorem inumOf_eq_none : inumOf es name = none ↔ ∀ (k : Nat) de, es[k]? = some de → ¬ de.Is name := by
  rw [inumOf, Option.map_eq_none_iff, lookup_eq_none]

theorem Distinct.lookup_iff (h : Distinct es) :
    lookup es name = some (k, n) ↔ ∃ de, es[k]? = some de ∧ de.Is name ∧ de.inum.toNat = n := by
  rw [lookup_eq_some]
  refine ⟨And.left, fun ⟨de, hk, hde, hn⟩ => ⟨⟨de, hk, hde, hn⟩, fun m hm de' hm' hde' => ?_⟩⟩
  have := h m k de' de hm' hk hde'.1 hde.1 (hde'.2.symm.trans hde.2)
  omega

theorem Distinct.inumOf_iff (h : Distinct es) :
    inumOf es name = some n ↔ ∃ (k : Nat) (de : Dirent), es[k]? = some de ∧ de.Is name ∧ de.inum.toNat = n := by
  rw [inumOf, Option.map_eq_some_iff]
  constructor
  · rintro ⟨⟨k, n⟩, hl, rfl⟩
    exact ⟨k, h.lookup_iff.mp hl⟩
  · rintro ⟨k, hk⟩
    exact ⟨(k, n), h.lookup_iff.mpr hk, rfl⟩

theorem Distinct.putEnt (h : Distinct es) (hk : k ≤ es.length)
    (hnew : ∀ (m : Nat) de', es[m]? = some de' → de'.inum ≠ 0 → de'.text ≠ de.text) : Distinct
    (Fs.putEnt es k de) := by
  intro m m' a b hm hm' ha hb hab
  rw [getElem?_putEnt hk] at hm hm'
  split at hm <;> split at hm'
  next e e' => rw [e, e']
  next =>
    obtain rfl := Option.some.inj hm
    exact absurd hab.symm (hnew m' b hm' hb)
  next =>
    obtain rfl := Option.some.inj hm'
    exact absurd hab (hnew m a hm ha)
  next => exact h m m' a b hm hm' ha hb hab

theorem Dirent.is_of {inum : UInt16} (hi : inum ≠ 0) {name' : List UInt8} :
    (Dirent.of inum name).Is name' ↔ textOf name' = textOf name := by
  rw [Dirent.Is, Dirent.text_of]
  exact and_iff_right hi

theorem Distinct.link (h : Distinct es) {inum : UInt16} (hi : inum ≠ 0) (hn : inumOf es name = none) :
    Distinct (Fs.putEnt es (vacancy es) (.of inum name)) ∧
      ∀ name', inumOf (Fs.putEnt es (vacancy es) (.of inum name)) name' =
        if textOf name' = textOf name then some inum.toNat else inumOf es name' := by
  have hle := vacancy_le es
  have habsent := inumOf_eq_none.mp hn
  have hd : Distinct (Fs.putEnt es (vacancy es) (.of inum name)) := by
    refine h.putEnt hle fun m de' hm h0 he => habsent m de' hm ⟨h0, ?_⟩
    rw [he, Dirent.text_of]
  refine ⟨hd, fun name' => Option.ext fun n => ?_⟩
  rw [hd.inumOf_iff]
  constructor
  · rintro ⟨m, de, hm, hde, rfl⟩
    rw [getElem?_putEnt hle] at hm
    split at hm
    next =>
      obtain rfl := Option.some.inj hm
      rw [if_pos ((Dirent.is_of hi).mp hde)]
      rfl
    next =>
      have hne : textOf name' ≠ textOf name := fun e => habsent m de hm ⟨hde.1, e.symm.trans hde.2⟩
      rw [if_neg hne, h.inumOf_iff]
      exact ⟨m, de, hm, hde, rfl⟩
  · intro hsome
    by_cases he : textOf name' = textOf name
    · rw [if_pos he] at hsome
      exact ⟨vacancy es, .of inum name, by rw [getElem?_putEnt hle, if_pos rfl], (Dirent.is_of hi).mpr he,
        Option.some.inj hsome⟩
    · rw [if_neg he] at hsome
      obtain ⟨m, de, hm, hde, hn'⟩ := h.inumOf_iff.mp hsome
      have hmv : m ≠ vacancy es := by
        rintro rfl
        exact hde.1 (getElem?_vacancy hm)
      exact ⟨m, de, by rwa [getElem?_putEnt hle, if_neg hmv], hde, hn'⟩

theorem Distinct.unlink (h : Distinct es) (hl : lookup es name = some (k, n)) :
    Distinct (Fs.putEnt es k .zero) ∧
      ∀ name', inumOf (Fs.putEnt es k .zero) name' = if textOf name' =
        textOf name then none else inumOf es name' := by
  obtain ⟨de₀, hk, hde₀, -⟩ := h.lookup_iff.mp hl
  have hle : k ≤ es.length := (List.getElem?_eq_some_iff.mp hk).1.le
  have hget (m) (de : Dirent) (hm : (Fs.putEnt es k .zero)[m]? = some de) (h0 : de.inum ≠ 0) :
      m ≠ k ∧ es[m]? = some de := by
    rw [getElem?_putEnt hle] at hm
    split at hm
    next => exact absurd (congrArg Dirent.inum (Option.some.inj hm).symm) h0
    next hmk => exact ⟨hmk, hm⟩
  have hd : Distinct (Fs.putEnt es k .zero) := fun m m' a b hm hm' ha hb hab =>
    h m m' a b (hget m a hm ha).2 (hget m' b hm' hb).2 ha hb hab
  refine ⟨hd, fun name' => Option.ext fun n => ?_⟩
  rw [hd.inumOf_iff]
  constructor
  · rintro ⟨m, de, hm, hde, rfl⟩
    obtain ⟨hmk, hm⟩ := hget m de hm hde.1
    have hne : textOf name' ≠ textOf name := fun e =>
      hmk (h m k de de₀ hm hk hde.1 hde₀.1 (hde.2.symm.trans (e.trans hde₀.2)))
    rw [if_neg hne, h.inumOf_iff]
    exact ⟨m, de, hm, hde, rfl⟩
  · intro hsome
    by_cases he : textOf name' = textOf name
    · rw [if_pos he] at hsome
      cases hsome
    · rw [if_neg he] at hsome
      obtain ⟨m, de, hm, hde, hn'⟩ := h.inumOf_iff.mp hsome
      have hmk : m ≠ k := by
        rintro rfl
        rw [hk] at hm
        obtain rfl := Option.some.inj hm
        exact he (hde.2.trans hde₀.2.symm)
      exact ⟨m, de, by rwa [getElem?_putEnt hle, if_neg hmk], hde, hn'⟩

theorem igetM_any (dev n : Nat) (s : State) :
    wp (igetM dev n) (fun ip t => t.disk = s.disk ∧
        ((0 < (s.icache ip).ref ∧ (s.icache ip).inum = n ∧ t = s.setRef ip ((s.icache ip).ref + 1)) ∨
          ((s.icache ip).ref = 0 ∧ t.icache = Function.update s.icache ip
            { s.icache ip with dev := dev, inum := n, ref := 1, valid := false })))
      (fun e => e = .panic .igetNoInodes ∧ ∀ k, 0 < (s.icache k).ref ∧ (s.icache k).key ≠ (dev, n)) s := by
  simp only [igetM, wp_bind, wp_gets]
  cases hg : iget s.icache dev n with
  | none => exact ⟨rfl, iget_none hg⟩
  | some r =>
      obtain ⟨ip, c⟩ := r
      simp only [wp_bind, wp_update, wp_pure]
      rcases iget_cases hg with ⟨hr, hk, rfl⟩ | ⟨-, h0, rfl⟩
      · exact ⟨trivial, .inl ⟨hr, congrArg Prod.snd hk, rfl⟩⟩
      · exact ⟨trivial, .inr ⟨h0, rfl⟩⟩

theorem iget_iput (dev n : Nat) (s : State) :
    wp (do let ip ← igetM dev n; iput sb ip; pure (-1) : FsM Int) (fun r t => r = -1 ∧ t.disk = s.disk ∧
        ∀ k, (t.icache k).ref = (s.icache k).ref ∧ (0 < (s.icache k).ref → t.icache k = s.icache k))
      (fun e => e = .panic .igetNoInodes ∧ ∀ k, 0 < (s.icache k).ref) s := by
  rw [wp_bind]
  refine (igetM_any dev n s).mono (fun ip t ⟨hdisk, ht⟩ => ?_) fun e ⟨he, hfull⟩ => ⟨he, fun k => (hfull k).1⟩
  rcases ht with ⟨hr, -, rfl⟩ | ⟨h0, hic⟩
  · have hlive : ¬ ((s.icache ip).ref + 1 = 1 ∧ (s.icache ip).valid = true ∧ (s.icache ip).nlink = 0) := by omega
    simp only [iput, inode, setInode, State.setRef, wp_bind, wp_gets, Function.update_self]
    rw [if_neg hlive]
    refine ⟨rfl, rfl, fun k => ?_⟩
    by_cases hk : k = ip
    · subst hk
      simp
    · simp [hk]
  · simp only [iput, inode, setInode, wp_bind, wp_gets, hic, Function.update_self, Bool.false_eq_true, false_and,
      and_false, if_false]
    refine ⟨rfl, hdisk, fun k => ?_⟩
    by_cases hk : k = ip
    · subst hk
      simp [h0]
    · simp [hk, hic]

namespace OpenDir

theorem of_cache (h : OpenDir sb i s) (hdisk : t.disk = s.disk)
    (hc : ∀ k, (t.icache k).ref = (s.icache k).ref ∧ (0 < (s.icache k).ref → t.icache k = s.icache k)) :
    OpenDir sb i t ∧ t.ents i = s.ents i := by
  have hi := (hc i).2 h.ref
  have hcons : Consistent sb { s with icache := t.icache } := by
    refine h.consistent.of_cache fun k hk => ?_
    rw [(hc k).1] at hk
    rw [(hc k).2 hk]
    exact ⟨hk, rfl, fun hv => ⟨hv, rfl⟩⟩
  rw [← hdisk] at hcons
  refine ⟨⟨hcons, ?_, ?_, ?_, ?_⟩, ?_⟩
  · rw [hi]; exact h.ref
  · rw [hi]; exact h.valid
  · rw [hi]; exact h.type
  · rw [hi, hdisk]; exact h.rest
  · rw [State.ents, hi, hdisk]

theorem of_written {x : Dinode} (h : OpenDir sb i s) (hx : Written sb i de.src (16 * k) 16 s t x)
    (hnode : x.node t.disk = { (s.icache i).toDinode.node s.disk with ents := putEnt (s.ents i) k de }) :
    OpenDir sb i t ∧ t.ents i = putEnt (s.ents i) k de := by
  have hi : t.icache i = { s.icache i with toDinode := x } := by rw [hx.icache, Function.update_self]
  refine ⟨⟨hx.consistent, ?_, ?_, ?_, ?_⟩, ?_⟩
  · rw [hi]; exact h.ref
  · rw [hi]; exact h.valid
  · rw [hi]; exact hx.type.trans h.type
  · rw [hi]
    show (x.node t.disk).rest = 0
    rw [hnode]
    exact h.rest
  · rw [State.ents, hi]
    show (x.node t.disk).ents = _
    rw [hnode]

end OpenDir

def CacheFull (s : State) (e : Halt) : Prop := e = .panic .igetNoInodes ∧ ∀ k, 0 < (s.icache k).ref

section Calls

variable [Devsw]

def Yields (sb : Layout) (i : Fin ninode) (s : State) (name : List UInt8) : Option Nat → Prop
  | none => dirlookup sb i name s = .ok (none, s)
  | some n => wp (dirlookup sb i name)
      (fun r t => ∃ ip off, r = some (ip, off) ∧ (t.icache ip).inum = n ∧ t.disk = s.disk) (CacheFull s) s

namespace OpenDir

theorem yields (h : OpenDir sb i s) (name : List UInt8) : Yields sb i s name (inumOf (s.ents i) name) := by
  have heq := h.dirlookup_eq name
  unfold inumOf
  cases hl : lookup (s.ents i) name with
  | none =>
      rw [hl] at heq
      exact heq
  | some r =>
      obtain ⟨k, n⟩ := r
      rw [hl] at heq
      simp only [Option.map_some, Yields, wp, heq]
      refine wp_bind.mpr <| (igetM_any _ n s).mono ?_
        (by rintro e ⟨he, hfull⟩; exact ⟨he, fun k => (hfull k).1⟩)
      rintro ip t ⟨hdisk, ht⟩
      refine ⟨ip, 16 * k, rfl, ?_, hdisk⟩
      rcases ht with ⟨-, hn, rfl⟩ | ⟨-, hic⟩
      · simpa [State.setRef] using hn
      · rw [hic, Function.update_self]

theorem dirlink_present_spec (h : OpenDir sb i s) (inum : Nat) (hp : inumOf (s.ents i) name ≠ none) :
    wp (dirlink sb i name inum) (fun r t => r = -1 ∧ t.disk = s.disk ∧ OpenDir sb i t ∧ t.ents i = s.ents i)
      (CacheFull s) s := by
  cases hl : lookup (s.ents i) name with
  | none => exact absurd (by rw [inumOf, hl]; rfl) hp
  | some r =>
      obtain ⟨k, n⟩ := r
      rw [wp, h.dirlink_present inum hl]
      exact (iget_iput _ n s).imp (by rintro r t ⟨hr, hdisk, hc⟩; exact ⟨hr, hdisk, h.of_cache hdisk hc⟩)

def Room (sb : Layout) (i : Fin ninode) (s : State) : Prop :=
  vacancy (s.ents i) < (s.ents i).length ∨
    (s.icache i).size.toNat + 16 ≤ maxfile * bsize ∧
      growth (blocks (s.icache i).size.toNat) (blocks ((s.icache i).size.toNat + 16)) ≤ (freeList sb s.disk).length

theorem writei_entry_ok (h : OpenDir sb i s) (hde : de.name.length = dirsiz)
    (hk : k < (s.ents i).length ∨ k = (s.ents i).length ∧ (s.icache i).size.toNat + 16 ≤ maxfile * bsize ∧
      growth (blocks (s.icache i).size.toNat) (blocks ((s.icache i).size.toNat + 16)) ≤
        (freeList sb s.disk).length) :
    ∃ t, writei sb i de.src (UInt32.ofNat (16 * k)) dirent16 s = .ok (16, t) ∧ OpenDir sb i t ∧
      t.ents i = putEnt (s.ents i) k de := by
  have hlen := h.length_ents
  have hsize := h.size_le
  have hmax := maxfile_bsize
  have hoff : (UInt32.ofNat (16 * k)).toNat = 16 * k := UInt32.toNat_ofNat_of_lt' (by show _ < 2 ^ 32; omega)
  have hn : dirent16.toNat = 16 := rfl
  have hle : UInt32.ofNat (16 * k) ≤ (s.icache i).size := by
    rw [UInt32.le_iff_toNat_le, hoff]
    omega
  have htakes : wp (writei sb i de.src (UInt32.ofNat (16 * k)) dirent16) _ _ s :=
    writei_takes h.consistent h.ref h.valid (by rw [h.type]; decide) hle (by rw [hoff, hn]; omega)
  have hspec := wp_iff.mp ((h.writei_entry hde (by omega : k ≤ _)).conj htakes)
  cases hm : writei sb i de.src (UInt32.ofNat (16 * k)) dirent16 s with
  | error e =>
      have hlt := (hspec.2 e hm).2.2
      rw [hoff, hn] at hlt
      rcases hk with hk | ⟨rfl, -, hfree⟩
      · rw [growth_of_le] at hlt
        · exact absurd hlt (Nat.not_lt_zero _)
        · exact blocks_le_iff.mpr (le_trans (by omega) (blocks_le_iff.mp le_rfl))
      · rw [hlen] at hlt
        omega
  | ok r =>
      obtain ⟨r, t⟩ := r
      rcases (hspec.1 r t hm).1 with ⟨-, -, hbad⟩ | ⟨hr, x, hx, hnode⟩
      · omega
      · exact ⟨t, by rw [hr], h.of_written hx hnode⟩

end OpenDir

/-- A directory is a finite map from names to inode numbers, which `dirlookup` reads, `dirlink` extends and
the clearing of an entry restricts. -/
theorem directory_is_map (h : OpenDir sb i s) (hd : Distinct (s.ents i)) (hroom : OpenDir.Room sb i s)
    (name : List UInt8) (inum : UInt16) (hi : inum ≠ 0) :
    (∀ name', Yields sb i s name' (inumOf (s.ents i) name')) ∧
      (inumOf (s.ents i) name ≠ none → wp (dirlink sb i name inum.toNat)
        (fun r t => r = -1 ∧ t.disk = s.disk ∧ OpenDir sb i t ∧ t.ents i = s.ents i) (CacheFull s) s) ∧
      (inumOf (s.ents i) name = none → ∃ t, dirlink sb i name inum.toNat s = .ok (0, t) ∧ OpenDir sb i t ∧
        Distinct (t.ents i) ∧ ∀ name', Yields sb i t name'
          (if textOf name' = textOf name then some inum.toNat else inumOf (s.ents i) name')) ∧
      ∀ ip off t u, dirlookup sb i name s = .ok (some (ip, off), t) → OpenDir sb i u → u.ents i = s.ents i →
        ∃ v, writei sb i Dirent.zero.src (UInt32.ofNat off) dirent16 u = .ok (16, v) ∧ OpenDir sb i v ∧
          Distinct (v.ents i) ∧ ∀ name', Yields sb i v name'
            (if textOf name' = textOf name then none else inumOf (s.ents i) name') := by
  refine ⟨h.yields, h.dirlink_present_spec inum.toNat, fun hn => ?_, fun ip off t u hlook hu hents => ?_⟩
  · have hl : lookup (s.ents i) name = none := Option.map_eq_none_iff.mp hn
    have hk : vacancy (s.ents i) < (s.ents i).length ∨ vacancy (s.ents i) = (s.ents i).length ∧
        (s.icache i).size.toNat + 16 ≤ maxfile * bsize ∧ growth (blocks (s.icache i).size.toNat)
          (blocks ((s.icache i).size.toNat + 16)) ≤ (freeList sb s.disk).length := by
      have := vacancy_le (s.ents i)
      rcases hroom with hlt | hgrow
      · exact .inl hlt
      · rcases this.lt_or_eq with hlt | heq
        · exact .inl hlt
        · exact .inr ⟨heq, hgrow⟩
    have hname : (Dirent.of inum name).name.length = dirsiz := Cstr.length_strncpy ..
    obtain ⟨t, hw, ht, hents⟩ := h.writei_entry_ok hname hk
    obtain ⟨hd', hmap⟩ := hd.link hi hn
    rw [← hents] at hd' hmap
    refine ⟨t, ?_, ht, hd', fun name' => ?_⟩
    · rw [h.dirlink_absent inum.toNat hl, UInt16.ofNat_toNat, bind_ok hw]
      rfl
    · rw [← hmap name']
      exact ht.yields name'
  · rw [h.dirlookup_eq name] at hlook
    cases hl : lookup (s.ents i) name with
    | none =>
        rw [hl] at hlook
        cases hlook
    | some r =>
        obtain ⟨k, n⟩ := r
        have hoff : off = 16 * k := by
          rw [hl, OpenDir.getFound] at hlook
          cases hg : igetM (s.icache i).dev n s with
          | error e =>
              rw [bind_error hg] at hlook
              cases hlook
          | ok r =>
              rw [bind_ok hg] at hlook
              cases hlook
              rfl
        obtain ⟨⟨de, hde, -⟩, -⟩ := lookup_eq_some.mp hl
        have hk : k < (u.ents i).length := hents ▸ (List.getElem?_eq_some_iff.mp hde).1
        have hname : Dirent.zero.name.length = dirsiz := List.length_replicate
        obtain ⟨v, hw, hv, hvents⟩ := hu.writei_entry_ok hname (.inl hk)
        obtain ⟨hd', hmap⟩ := hd.unlink hl
        rw [hents] at hvents
        rw [← hvents] at hd' hmap
        refine ⟨v, by rw [hoff, hw], hv, hd', fun name' => ?_⟩
        rw [← hmap name']
        exact hv.yields name'

end Calls

section

attribute [local instance] noDevices

theorem openDir_fresh : OpenDir tiny 0 (freshNode tDir) :=
  ⟨consistent_freshNode (by decide), by decide, by decide, by decide, by decide +kernel⟩

theorem directory_is_map_fresh :
    ∃ t, dirlink tiny 0 [97, 98] 5 (freshNode tDir) = .ok (0, t) ∧ Yields tiny 0 t [97, 98, 0, 99] (some 5) := by
  have hents : (freshNode tDir).ents 0 = [] := by decide +kernel
  have hdistinct : Distinct ((freshNode tDir).ents 0) := fun k m a b hk => by
    rw [hents] at hk
    cases hk
  obtain ⟨t, hlink, -, -, hmap⟩ := (directory_is_map openDir_fresh hdistinct
    (.inr (by decide +kernel)) [97, 98] 5 (by decide)).2.2.1 (by rw [hents]; rfl)
  exact ⟨t, hlink, hmap [97, 98, 0, 99]⟩

end

end Xv6.Fs
