import Xv6.Fs.Held
import Mathlib

namespace Xv6.Fs

open Lib Lib.Exec

variable {path rest name : List UInt8} {l : List UInt8}

def runs (l : List UInt8) : List (List UInt8) := (l.splitOnP (· == slash)).filter (· ≠ [])

theorem runs_slash (l : List UInt8) : runs (slash :: l) = runs l := by
  have h : ([] ++ slash :: l).splitOnP (· == slash) = [] :: l.splitOnP (· == slash) :=
    List.splitOnP_append_cons_of_forall_mem (by simp) slash (by simp) l
  rw [List.nil_append] at h
  rw [runs, h, List.filter_cons_of_neg (by simp)]
  rfl

theorem runs_dropWhile (l : List UInt8) : runs (l.dropWhile (· = slash)) = runs l := by
  induction l with
  | nil => rfl
  | cons a l ih =>
      by_cases h : a = slash
      · rw [h, List.dropWhile_cons_of_pos (by simp), ih, runs_slash]
      · rw [List.dropWhile_cons_of_neg (by simpa using h)]

theorem runs_word {w : List UInt8} (hw : w ≠ []) (hs : ∀ a ∈ w, a ≠ slash) (hl : l = [] ∨ ∃ l', l = slash :: l') :
    runs (w ++ l) = w :: runs l := by
  have hsep (a) (ha : a ∈ w) : (a == slash) = false := by simpa using hs a ha
  rcases hl with rfl | ⟨l', rfl⟩
  · rw [List.append_nil, runs, List.splitOnP_eq_singleton hsep, List.filter_cons_of_pos (by simpa using hw)]
    rfl
  · rw [runs, List.splitOnP_append_cons_of_forall_mem hsep slash (by simp), List.filter_cons_of_pos
      (by simpa using hw), runs_slash]
    rfl

def cstr (path : List UInt8) : List UInt8 := path.takeWhile (· ≠ 0)

def elems (path : List UInt8) : List (List UInt8) := (runs (cstr path)).map (·.take dirsiz)

theorem cstr_eq_nil_iff : cstr path = [] ↔ path.headD 0 = 0 := by
  cases path with
  | nil => simp [cstr]
  | cons a path =>
      by_cases h : a = 0
      · simp [cstr, h]
      · simp [cstr, h]

theorem cstr_dropWhile (path : List UInt8) : cstr (path.dropWhile (· = slash)) = (cstr path).dropWhile
    (· = slash) := by
  induction path with
  | nil => rfl
  | cons a path ih =>
      by_cases hs : a = slash
      · have h0 : a ≠ 0 := by rw [hs]; decide
        rw [List.dropWhile_cons_of_pos (by simpa using hs), ih, cstr, cstr, List.takeWhile_cons_of_pos
          (by simpa using h0), List.dropWhile_cons_of_pos (by simpa using hs)]
      · rw [List.dropWhile_cons_of_neg (by simpa using hs)]
        by_cases h0 : a = 0
        · rw [cstr, List.takeWhile_cons_of_neg (by simpa using h0)]
          rfl
        · rw [cstr, List.takeWhile_cons_of_pos (by simpa using h0), List.dropWhile_cons_of_neg (by simpa using hs)]

theorem cstr_word (path : List UInt8) :
    let w := path.takeWhile fun c => c ≠ slash ∧ c ≠ 0
    cstr path = w ++ cstr (path.drop w.length) := by
  induction path with
  | nil => rfl
  | cons a path ih =>
      by_cases h : a ≠ slash ∧ a ≠ 0
      · rw [List.takeWhile_cons_of_pos (by simpa using h)]
        simp only [List.length_cons, List.drop_succ_cons, List.cons_append]
        rw [← ih, cstr, List.takeWhile_cons_of_pos (by simpa using h.2)]
        rfl
      · rw [List.takeWhile_cons_of_neg (by simpa using h)]
        simp

theorem takeWhile_head (path : List UInt8) :
    let w := path.takeWhile fun c => c ≠ slash ∧ c ≠ 0
    cstr (path.drop w.length) = [] ∨ ∃ l', cstr (path.drop w.length) = slash :: l' := by
  induction path with
  | nil => exact .inl rfl
  | cons a path ih =>
      by_cases h : a ≠ slash ∧ a ≠ 0
      · rw [List.takeWhile_cons_of_pos (by simpa using h)]
        simpa only [List.length_cons, List.drop_succ_cons] using ih
      · rw [List.takeWhile_cons_of_neg (by simpa using h)]
        simp only [List.length_nil, List.drop_zero]
        by_cases h0 : a = 0
        · exact .inl (by rw [cstr, List.takeWhile_cons_of_neg (by simpa using h0)])
        · have hs : a = slash := by
            by_contra hs
            exact h ⟨hs, h0⟩
          exact .inr ⟨cstr path, by rw [cstr, List.takeWhile_cons_of_pos (by simpa using h0), hs]; rfl⟩

theorem skipelem_none (h : skipelem path = none) : elems path = [] := by
  unfold skipelem at h
  simp only at h
  split at h
  next h0 =>
    have hnil : cstr (path.dropWhile (· = slash)) = [] := cstr_eq_nil_iff.mpr h0
    rw [elems, ← runs_dropWhile, ← cstr_dropWhile, hnil]
    rfl
  next => cases h

theorem headD_dropWhile (path : List UInt8) : (path.dropWhile (· = slash)).headD 0 ≠ slash := by
  induction path with
  | nil => decide
  | cons a path ih =>
      by_cases h : a = slash
      · rwa [List.dropWhile_cons_of_pos (by simpa using h)]
      · rwa [List.dropWhile_cons_of_neg (by simpa using h)]

theorem skipelem_some (h : skipelem path = some (name, rest)) :
    elems path = name :: elems rest ∧ rest.headD 0 ≠ slash ∧ rest.length < path.length := by
  unfold skipelem at h
  simp only at h
  split at h
  next => cases h
  next h0 =>
    obtain ⟨rfl, rfl⟩ := Prod.mk.inj (Option.some.inj h)
    have hhead := headD_dropWhile path
    have hlen : (path.dropWhile (· = slash)).length ≤ path.length := List.length_dropWhile_le ..
    have hcstr := cstr_dropWhile path
    set p := path.dropWhile (· = slash) with hp
    set w := p.takeWhile fun c => c ≠ slash ∧ c ≠ 0 with hw
    have hwne : w ≠ [] := by
      cases hpc : p with
      | nil =>
          rw [hpc] at h0
          exact absurd rfl h0
      | cons a q =>
          rw [hpc] at h0 hhead
          rw [hw, hpc, List.takeWhile_cons_of_pos (by simpa using ⟨hhead, h0⟩)]
          exact List.cons_ne_nil _ _
    have hslash (a) (ha : a ∈ w) : a ≠ slash := by
      have := List.mem_takeWhile_imp ha
      simp only [decide_eq_true_eq] at this
      exact this.1
    refine ⟨?_, headD_dropWhile _, ?_⟩
    · rw [elems, elems, ← runs_dropWhile, ← hcstr, cstr_word p, ← hw, runs_word hwne hslash (takeWhile_head p),
        List.map_cons, cstr_dropWhile, runs_dropWhile]
    · have hpos := List.length_pos_iff.mpr hwne
      have hle : w.length ≤ p.length := (List.takeWhile_prefix _).length_le
      have := List.length_dropWhile_le (fun c => decide (c = slash)) (p.drop w.length)
      rw [List.length_drop] at this
      omega

theorem elems_eq_nil_iff (h : rest.headD 0 ≠ slash) : elems rest = [] ↔ rest.headD 0 = 0 := by
  constructor
  · intro he
    by_contra h0
    cases hs : skipelem rest with
    | none =>
        have hdrop : rest.dropWhile (· = slash) = rest := by
          cases rest with
          | nil => rfl
          | cons a rest => exact List.dropWhile_cons_of_neg (by simpa using h)
        unfold skipelem at hs
        simp only [hdrop, if_neg h0] at hs
        cases hs
    | some r =>
        rw [(skipelem_some hs).1] at he
        cases he
  · intro h0
    rw [elems, cstr_eq_nil_iff.mpr h0]
    rfl

theorem length_elems_le (path : List UInt8) : (elems path).length ≤ path.length := by
  induction hn : path.length using Nat.strong_induction_on generalizing path with
  | _ n ih =>
      cases hs : skipelem path with
      | none =>
          rw [skipelem_none hs]
          exact Nat.zero_le _
      | some r =>
          obtain ⟨he, -, hlt⟩ := skipelem_some hs
          rw [he, List.length_cons]
          have := ih r.2.length (by omega) r.2 rfl
          omega

/-- Where a list of names leads, from inode `j` on; `none` if an inode on the way is no directory or lacks the
name. -/
def walk (T : Tree) : Nat → List (List UInt8) → Option Nat
  | j, [] => some j
  | j, c :: cs =>
      if (T j).type = tDir then
        match inumOf (T j).ents c with
        | none => none
        | some n => walk T n cs
      else none

/-- What `namex` returns: the inode and the last name. -/
def resolve (T : Tree) (parent : Bool) : Nat → List UInt8 → List (List UInt8) → Option (Nat × List UInt8)
  | j, name, [] => if parent then none else some (j, name)
  | j, _, c :: cs =>
      if (T j).type = tDir then
        if parent = true ∧ cs = [] then some (j, c)
        else
          match inumOf (T j).ents c with
          | none => none
          | some n => resolve T parent n c cs
      else none

theorem resolve_false (T : Tree) (j : Nat) (name : List UInt8) (cs : List (List UInt8)) :
    (resolve T false j name cs).map Prod.fst = walk T j cs := by
  induction cs generalizing j name with
  | nil => rfl
  | cons c cs ih =>
      rw [resolve, walk]
      by_cases ht : (T j).type = tDir
      · rw [if_pos ht, if_pos ht, if_neg (by simp)]
        cases inumOf (T j).ents c with
        | none => rfl
        | some n => exact ih n c
      · rw [if_neg ht, if_neg ht]
        rfl

theorem resolve_true (T : Tree) (j : Nat) (name c : List UInt8) (cs : List (List UInt8)) :
    resolve T true j name (cs ++ [c]) =
      ((walk T j cs).filter fun n => (T n).type = tDir).map fun n => (n, c) := by
  induction cs generalizing j name with
  | nil =>
      rw [List.nil_append, resolve, walk]
      by_cases ht : (T j).type = tDir
      · simp [ht]
      · simp [ht]
  | cons a cs ih =>
      rw [List.cons_append, resolve, walk]
      by_cases ht : (T j).type = tDir
      · rw [if_pos ht, if_pos ht, if_neg (by simp)]
        cases inumOf (T j).ents a with
        | none => rfl
        | some n => exact ih n a
      · rw [if_neg ht, if_neg ht]
        rfl

theorem resolve_dir {T : Tree} {j n : Nat} {cs : List (List UInt8)} (h : resolve T true j name cs = some (n, l)) :
    (T n).type = tDir := by
  rcases List.eq_nil_or_concat cs with rfl | ⟨cs, c, rfl⟩
  · cases h
  · rw [List.concat_eq_append, resolve_true, Option.map_eq_some_iff] at h
    obtain ⟨m, hm, he⟩ := h
    obtain ⟨rfl, -⟩ := Prod.mk.inj he
    simpa using (Option.filter_eq_some_iff.mp hm).2

/-- From inode `j` on, `namex` does not panic: it locks inodes that are in use, and each next one fits into the
cache beside the one before it and those in `U`. -/
def Passes (T : Tree) (U : Finset Nat) (parent : Bool) : Nat → List (List UInt8) → Prop
  | _, [] => True
  | j, c :: cs => (T j).type ≠ 0 ∧ ((T j).type = tDir → ¬ (parent = true ∧ cs = []) →
      ∀ n, inumOf (T j).ents c = some n → Fits (insert j U) n ∧ Passes T U parent n cs)

def Step (T : Tree) (a c : Nat) : Prop := (T a).type = tDir ∧ ∃ name, inumOf (T a).ents name = some c

abbrev Reach (T : Tree) : Nat → Nat → Prop := Relation.ReflTransGen (Step T)

theorem resolve_reach {T : Tree} {parent : Bool} {j n : Nat} {cs : List (List UInt8)}
    (h : resolve T parent j name cs = some (n, l)) : Reach T j n := by
  induction cs generalizing j name with
  | nil =>
      rw [resolve] at h
      split at h
      next => cases h
      next =>
        obtain ⟨rfl, -⟩ := Prod.mk.inj (Option.some.inj h)
        exact .refl
  | cons c cs ih =>
      rw [resolve] at h
      split at h
      next ht =>
        split at h
        next =>
          obtain ⟨rfl, -⟩ := Prod.mk.inj (Option.some.inj h)
          exact .refl
        next =>
          split at h
          next => cases h
          next m hm => exact .head ⟨ht, c, hm⟩ (ih h)
      next => cases h

theorem walk_reach {T : Tree} {j n : Nat} {cs : List (List UInt8)} (h : walk T j cs = some n) : Reach T j n := by
  rw [← resolve_false _ _ [], Option.map_eq_some_iff] at h
  obtain ⟨⟨m, l⟩, hres, rfl⟩ := h
  exact resolve_reach hres

theorem Reach.ne_zero {T : Tree} {j n : Nat} (h : Reach T j n) : n = j ∨ n ≠ 0 := by
  cases h with
  | refl => exact .inl rfl
  | tail _ hstep =>
      obtain ⟨-, name, hname⟩ := hstep
      obtain ⟨⟨m, k⟩, hl, rfl⟩ := Option.map_eq_some_iff.mp hname
      obtain ⟨⟨de, -, his, rfl⟩, -⟩ := lookup_eq_some.mp hl
      exact .inr fun h0 => his.1 (UInt16.toNat_inj.mp h0)

/-- The directories hold whole entries, of inodes that the disk has. -/
structure Shaped (n : Nat) (T : Tree) : Prop where
  rest : ∀ j, (T j).type = tDir → (T j).rest = 0
  inum : ∀ (j k : Nat) de, (T j).type = tDir → (T j).ents[k]? = some de → de.inum.toNat < n

section Calls

variable {sb : Layout} {b J : Fin ninode → Nat} {s t : State} {i : Fin ninode} {j n k : Nat} {x : Hold}
    {L : List Hold}
  {T : Tree}

theorem Shaped.inumOf_lt (h : Shaped n T) (ht : (T j).type = tDir) (hm : inumOf (T j).ents name = some k) :
    k < n := by
  obtain ⟨⟨m, k⟩, hl, rfl⟩ := Option.map_eq_some_iff.mp hm
  obtain ⟨⟨de, hde, -, rfl⟩, -⟩ := lookup_eq_some.mp hl
  exact h.inum j m de ht hde

namespace Held

theorem openDir (h : Held sb b J L s) (hx : x ∈ L) (hl : x.locked = true) (ht : (tree sb s.disk x.inum).type = tDir)
    (hrest : (tree sb s.disk x.inum).rest = 0) :
    OpenDir sb x.ip s ∧ s.ents x.ip = (tree sb s.disk x.inum).ents := by
  have hnode := h.node_eq hx hl
  refine ⟨⟨h.consistent, h.ref_pos hx, (h.held x hx).2 hl, ?_, ?_⟩, congrArg Node.ents hnode⟩
  · rw [h.type_eq hx hl, ht]
  · rw [hnode, hrest]

end Held

def Tight (b : Fin ninode → Nat) (L : List Hold) : Prop := ∃ i₀, ∀ i, i ≠ i₀ → 0 < b i ∨ ∃ x ∈ L, x.ip = i

theorem Crowded.tight (h : Crowded b (x :: L)) : Tight b L := by
  refine ⟨x.ip, fun i hi => (h i).imp_right fun ⟨y, hy, hyi⟩ => ?_⟩
  rcases List.mem_cons.mp hy with rfl | hy
  · exact absurd hyi.symm hi
  · exact ⟨y, hy, hyi⟩

/-- How `namex` can panic: the inode cache is full, or the path leads to an inode that is not in use. -/
def NamexPanic (b : Fin ninode → Nat) (L : List Hold) (T : Tree) (j : Nat) (e : Halt) : Prop :=
  e = .panic .igetNoInodes ∧ Tight b L ∨ e = .panic .ilockNoType ∧ ∃ n, Reach T j n ∧ (T n).type = 0

theorem NamexPanic.step {e : Halt} (h : NamexPanic b L T n e) (hs : Step T j n) : NamexPanic b L T j e :=
  h.imp_right fun ⟨he, m, hm, h0⟩ => ⟨he, m, .head hs hm, h0⟩

def Named (sb : Layout) (b J : Fin ninode → Nat) (L : List Hold) (s : State) (o : Option (Nat × List UInt8))
    (r : Option (Fin ninode × List UInt8)) (t : State) : Prop :=
  t.disk = s.disk ∧
    match o with
    | none => r = none ∧ Held sb b J L t
    | some (n, name) => ∃ ip, r = some (ip, name) ∧ Held sb b J (⟨ip, n, false⟩ :: L) t

theorem namexEnd_held (h : Held sb b J (⟨i, j, false⟩ :: L) s) (hpin : (tree sb s.disk j).Orphan → Pinned b J L j)
    (parent : Bool) (name : List UInt8) :
    wp (namexEnd sb parent i name) (Named sb b J L s (if parent then none else some (j, name)))
      (fun _ => False) s := by
  rw [namexEnd]
  cases parent with
  | true => exact (iput_pinned h hpin).bind fun _ t ⟨ht, hdisk⟩ => ⟨hdisk, rfl, ht⟩
  | false => exact ⟨rfl, i, rfl, h⟩

theorem Consistent.heldAll (h : Consistent sb s)
    (hn : ∀ j, (tree sb s.disk j).Orphan → ∃ i, 0 < (s.icache i).ref ∧ (s.icache i).inum = j ∧
    (s.icache i).valid = true) :
    Held sb (fun i => (s.icache i).ref) (fun i => (s.icache i).inum) [] s :=
  ⟨h, fun _ => rfl, fun _ _ => rfl, fun _ hx => (nomatch hx), hn⟩

def OneRef (s t : State) (r : Option (Fin ninode)) : Prop :=
  ∀ k, (t.icache k).ref = (s.icache k).ref + if r = some k then 1 else 0

theorem Held.oneRef {J : Fin ninode → Nat} (h : Held sb (fun i => (s.icache i).ref) J [x] t) :
    OneRef s t (some x.ip) := by
  intro k
  refine (h.exact k).trans ?_
  rw [List.map_singleton]
  by_cases hk : x.ip = k
  · rw [hk, List.count_singleton_self, if_pos rfl]
  · rw [List.count_eq_zero_of_not_mem (by simpa using Ne.symm hk), if_neg (by simpa using hk)]

theorem Held.noRef {J : Fin ninode → Nat} (h : Held sb (fun i => (s.icache i).ref) J [] t) : OneRef s t none := by
  intro k
  simpa using h.exact k

variable [Devsw]

theorem dirlookup_held (h : Held sb b J L s) (hx : x ∈ L) (hl : x.locked = true)
    (hT : Shaped sb.ninodes (tree sb s.disk)) (ht : (tree sb s.disk x.inum).type = tDir) (name : List UInt8) :
    wp (dirlookup sb x.ip name) (fun r t => t.disk = s.disk ∧
        match lookup (tree sb s.disk x.inum).ents name with
        | none => r = none ∧ t = s
        | some (k, n) => ∃ ip, r = some (ip, 16 * k) ∧ Held sb b J (⟨ip, n, false⟩ :: L) t)
      (fun e => e = .panic .igetNoInodes ∧ Crowded b L ∧
        ∃ n, inumOf (tree sb s.disk x.inum).ents name = some n ∧ ¬ Fits (busy b J L) n) s := by
  obtain ⟨hdir, hents⟩ := h.openDir hx hl ht (hT.rest _ ht)
  have heq := hdir.dirlookup_eq name
  rw [hents, h.consistent.cache.dev _ (h.ref_pos hx)] at heq
  cases hlook : lookup (tree sb s.disk x.inum).ents name with
  | none =>
      rw [hlook] at heq
      simp only [wp, heq]
      exact ⟨rfl, rfl, rfl⟩
  | some r =>
      obtain ⟨k, n⟩ := r
      have hnum : inumOf (tree sb s.disk x.inum).ents name = some n := by
        rw [inumOf, hlook]
        rfl
      rw [hlook] at heq
      simp only [wp, heq]
      exact wp_bind.mpr <| (igetM_held h (hT.inumOf_lt ht hnum)).mono
        (by rintro ip t ⟨hh, hd⟩; exact ⟨hd, ip, rfl, hh⟩)
        (by rintro e ⟨he, hfit, hfull⟩; exact ⟨he, hfull, n, hnum, hfit⟩)

theorem namexFrom_held (parent : Bool) {fuel : Nat} (h : Held sb b J (⟨i, j, false⟩ :: L) s)
    (hT : Shaped sb.ninodes (tree sb s.disk)) (hpin : ∀ j, (tree sb s.disk j).Orphan → Pinned b J L j)
    (hfuel : (elems path).length ≤ fuel) :
    wp (namexFrom sb parent fuel path name i)
      (fun r t => Named sb b J L s (resolve (tree sb s.disk) parent j name (elems path)) r t ∧
        Passes (tree sb s.disk) (busy b J L) parent j (elems path))
      (fun e => NamexPanic b L (tree sb s.disk) j e ∧
        ¬ Passes (tree sb s.disk) (busy b J L) parent j (elems path)) s := by
  induction fuel generalizing s i j path name with
  | zero =>
      rw [List.length_eq_zero_iff.mp (Nat.le_zero.mp hfuel), resolve]
      exact (namexEnd_held h (hpin j) parent name).mono (fun _ _ hr => ⟨hr, trivial⟩) fun _ => False.elim
  | succ fuel ih =>
      rw [namexFrom]
      cases hskip : skipelem path with
      | none =>
          rw [skipelem_none hskip, resolve]
          exact (namexEnd_held h (hpin j) parent name).mono (fun _ _ hr => ⟨hr, trivial⟩) fun _ => False.elim
      | some r =>
          obtain ⟨c, rest⟩ := r
          obtain ⟨helems, hslash, -⟩ := skipelem_some hskip
          rw [helems, List.length_cons] at hfuel
          rw [helems, resolve, Passes]
          refine wp_bind.mpr ((ilock_held h).mono ?_
            (by rintro e ⟨he, h0⟩; exact ⟨.inr ⟨he, j, .refl, h0⟩, fun hp => hp.1 h0⟩))
          rintro _ s₁ ⟨h₁, hd₁⟩
          simp only [inode, wp_bind, wp_gets]
          have hmem : (⟨i, j, true⟩ : Hold) ∈ (⟨i, j, true⟩ : Hold) :: L := List.mem_cons_self
          rw [← hd₁] at hT hpin ⊢
          have htype : (s₁.icache i).type = (tree sb s₁.disk j).type := h₁.type_eq hmem rfl
          have h0 : (tree sb s₁.disk j).type ≠ 0 := h₁.type_ne hmem rfl
          have hput : wp (do iunlockput sb i; pure none : FsM (Option (Fin ninode × List UInt8)))
              (Named sb b J L s none) (fun _ => False) s₁ := by
            refine wp_bind.mpr ((iunlockput_pinned h₁ (hpin j)).imp ?_)
            rintro _ t ⟨ht, hdisk⟩
            exact ⟨hdisk.trans hd₁, rfl, ht⟩
          by_cases ht : (tree sb s₁.disk j).type = tDir
          · rw [if_pos ht, if_neg (not_not.mpr (htype.trans ht))]
            have hiff : parent = true ∧ elems rest = [] ↔ parent = true ∧ rest.headD 0 = 0 :=
              and_congr_right fun _ => elems_eq_nil_iff hslash
            by_cases hlast : parent = true ∧ rest.headD 0 = 0
            · rw [if_pos hlast, if_pos (hiff.mpr hlast)]
              refine wp_bind.mpr ((iunlock_held h₁ hmem).mono (fun _ t ht => ?_) fun _ => False.elim)
              rw [ht]
              exact ⟨⟨hd₁, i, rfl, h₁.unlock⟩, h0, fun _ hnot => absurd (hiff.mpr hlast) hnot⟩
            · have hnot := mt hiff.mp hlast
              rw [if_neg hlast, if_neg hnot, wp_bind]
              refine (dirlookup_held h₁ hmem rfl hT ht c).mono ?_ ?_
              · rintro r s₂ ⟨hd₂, hr⟩
                cases hlook : lookup (tree sb s₁.disk j).ents c with
                | none =>
                    have hnum : inumOf (tree sb s₁.disk j).ents c = none := by rw [inumOf, hlook]; rfl
                    rw [hlook] at hr
                    rw [hnum]
                    obtain ⟨rfl, rfl⟩ := hr
                    exact hput.mono (fun r t hr => ⟨hr, h0, fun _ _ n hn => (by cases hn)⟩) fun _ => False.elim
                | some kn =>
                    obtain ⟨k, n⟩ := kn
                    have hnum : inumOf (tree sb s₁.disk j).ents c = some n := by rw [inumOf, hlook]; rfl
                    rw [hlook] at hr
                    obtain ⟨ip, rfl, h₂⟩ := hr
                    have hfit : Fits (insert j (busy b J L)) n := by
                      have := h₂.fits
                      rwa [busy_cons] at this
                    refine wp_bind.mpr ((iunlockput_pinned h₂.swap fun ho => ?_).mono ?_
                      fun _ => False.elim)
                    · exact (hpin j (hd₂ ▸ ho)).imp_right
                        (by rintro ⟨y, hy, hyj⟩; exact ⟨y, List.mem_cons_of_mem _ hy, hyj⟩)
                    · rintro _ s₃ ⟨h₃, hd₃⟩
                      have hd₃ : s₃.disk = s₁.disk := hd₃.trans hd₂
                      rw [← hd₃] at hT hpin
                      rw [hnum]
                      refine (ih h₃ hT hpin (Nat.le_of_succ_le_succ hfuel)).mono ?_ ?_
                      · rintro r t ⟨ht, hp⟩
                        rw [hd₃] at ht hp
                        refine ⟨⟨ht.1.trans (hd₃.trans hd₁), ht.2⟩, h0, fun _ _ m hm => ?_⟩
                        obtain rfl := Option.some.inj hm
                        exact ⟨hfit, hp⟩
                      · rintro e ⟨he, hp⟩
                        rw [hd₃] at he hp
                        exact ⟨he.step ⟨ht, c, hnum⟩, fun hall => hp (hall.2 ht hnot n rfl).2⟩
              · rintro e ⟨he, hc, n, hn, hfit⟩
                refine ⟨.inl ⟨he, hc.tight⟩, fun hp => ?_⟩
                rw [busy_cons] at hfit
                exact hfit (hp.2 ht hnot n hn).1
          · rw [if_neg ht, if_pos (fun h => ht (htype.symm.trans h))]
            exact hput.mono (fun r t hr => ⟨hr, h0, fun h => absurd h ht⟩) fun _ => False.elim

def startOf (path : List UInt8) (cwd : Nat) : Nat := if path.headD 0 = slash then rootino else cwd

def PathOk (T : Tree) (U : Finset Nat) (parent : Bool) (path : List UInt8) (cwd : Nat) : Prop :=
  Fits U (startOf path cwd) ∧ Passes T U parent (startOf path cwd) (elems path)

theorem namex_held {cwd : Fin ninode} (h : Held sb b J L s) (hT : Shaped sb.ninodes (tree sb s.disk))
    (hc : 0 < b cwd) (hroot : rootino < sb.ninodes) (path : List UInt8) (parent : Bool) :
    wp (namex sb cwd path parent)
      (fun r t => Named sb b J L s (resolve (tree sb s.disk) parent (startOf path (J cwd)) [] (elems path)) r t ∧
        PathOk (tree sb s.disk) (busy b J L) parent path (J cwd))
      (fun e => NamexPanic b L (tree sb s.disk) (startOf path (J cwd)) e ∧
        ¬ PathOk (tree sb s.disk) (busy b J L) parent path (J cwd)) s := by
  have hfirst : wp (if path.headD 0 = slash then igetM rootdev rootino else idupM cwd)
      (fun ip t => Held sb b J (⟨ip, startOf path (J cwd), false⟩ :: L) t ∧ t.disk = s.disk)
      (fun e => NamexPanic b L (tree sb s.disk) (startOf path (J cwd)) e ∧
        ¬ Fits (busy b J L) (startOf path (J cwd))) s := by
    unfold startOf
    split
    · exact (igetM_held h hroot).mono (fun _ _ => id) fun e ⟨he, hfit, hfull⟩ =>
        ⟨.inl ⟨he, cwd, fun i _ => hfull i⟩, hfit⟩
    · exact (idupM_held h hc).mono (fun _ _ => id) fun _ => False.elim
  rw [namex]
  refine wp_bind.mpr <| hfirst.mono (fun ip s₁ ⟨h₁, hd₁⟩ => ?_) fun e ⟨he, hfit⟩ => ⟨he, fun hp => hfit hp.1⟩
  rw [← hd₁] at hT
  refine (namexFrom_held parent h₁ hT (fun j hj => ?_) (length_elems_le path)).mono (fun r t ⟨ht, hp⟩ => ?_)
    fun e ⟨he, hp⟩ => ?_
  · rw [hd₁] at hj
    exact h.pinned hj
  · rw [hd₁] at ht hp
    exact ⟨⟨ht.1.trans hd₁, ht.2⟩, h₁.fits, hp⟩
  · rw [hd₁] at he hp
    exact ⟨he, fun hall => hp hall.2⟩

theorem namei_held {cwd : Fin ninode} (h : Held sb b J L s) (hT : Shaped sb.ninodes (tree sb s.disk))
    (hc : 0 < b cwd) (hroot : rootino < sb.ninodes) (path : List UInt8) :
    wp (namei sb cwd path) (fun r t => (t.disk = s.disk ∧
        match walk (tree sb s.disk) (startOf path (J cwd)) (elems path) with
        | none => r = none ∧ Held sb b J L t
        | some n => ∃ ip, r = some ip ∧ Held sb b J (⟨ip, n, false⟩ :: L) t) ∧
        PathOk (tree sb s.disk) (busy b J L) false path (J cwd))
      (fun e => NamexPanic b L (tree sb s.disk) (startOf path (J cwd)) e ∧
        ¬ PathOk (tree sb s.disk) (busy b J L) false path (J cwd)) s := by
  rw [namei]
  refine (namex_held h hT hc hroot path false).bind fun r t ⟨⟨hdisk, hr⟩, hok⟩ => ?_
  rw [← resolve_false _ _ []]
  cases hres : resolve (tree sb s.disk) false (startOf path (J cwd)) [] (elems path) with
  | none =>
      rw [hres] at hr
      obtain ⟨rfl, ht⟩ := hr
      exact ⟨⟨hdisk, rfl, ht⟩, hok⟩
  | some o =>
      rw [hres] at hr
      obtain ⟨ip, rfl, ht⟩ := hr
      exact ⟨⟨hdisk, ip, rfl, ht⟩, hok⟩

/-- Path resolution is a fold over the elements of the path: `namei` goes through all of them, `nameiparent`
stops before the last one, and the only lasting change is a reference to the inode that is returned. The
inode cache must have two entries to spare. -/
theorem path_resolution {cwd : Fin ninode} (h : Consistent sb s)
    (hn : ∀ j, (tree sb s.disk j).Orphan → ∃ i, 0 < (s.icache i).ref ∧ (s.icache i).inum = j ∧
    (s.icache i).valid = true)
    (hT : Shaped sb.ninodes (tree sb s.disk))
    (hlive : ∀ j n, Step (tree sb s.disk) j n → (tree sb s.disk n).type ≠ 0)
    (hroot : (tree sb s.disk rootino).type ≠ 0) (hcwd : 0 < (s.icache cwd).ref)
    (hcwdLive : (tree sb s.disk (s.icache cwd).inum).type ≠ 0) (path : List UInt8) :
    let T := tree sb s.disk
    let start := if path.headD 0 = slash then rootino else (s.icache cwd).inum
    let cs := ((((path.takeWhile (· ≠ 0)).splitOnP (· == slash)).filter (· ≠ [])).map (·.take dirsiz))
    let full := fun e => e = .panic .igetNoInodes ∧ ∃ i₀, ∀ i, i ≠ i₀ → 0 < (s.icache i).ref
    wp (namei sb cwd path) (fun r t => t.disk = s.disk ∧ OneRef s t r ∧
        match walk T start cs with
        | none => r = none
        | some n => ∃ ip, r = some ip ∧ (t.icache ip).inum = n) full s ∧
      wp (nameiparent sb cwd path) (fun r t => t.disk = s.disk ∧ OneRef s t (r.map Prod.fst) ∧
        match cs.getLast?, walk T start cs.dropLast with
        | some c, some n => if (T n).type = tDir then ∃ ip, r = some (ip, c) ∧ (t.icache ip).inum = n else r = none
        | _, _ => r = none) full s := by
  intro T start cs full
  have hheld := h.heldAll hn
  have hrootlt : rootino < sb.ninodes := lt_of_type_ne hroot
  have hstart : (T start).type ≠ 0 := by
    show (T (if _ then _ else _)).type ≠ 0
    split
    · exact hroot
    · exact hcwdLive
  have hpanic (e) (he : NamexPanic (fun i => (s.icache i).ref) [] T start e) : full e := by
    rcases he with ⟨he, i₀, hi₀⟩ | ⟨-, n, hreach, h0⟩
    · exact ⟨he, i₀, fun i hi => (hi₀ i hi).resolve_right fun ⟨x, hx, _⟩ => nomatch hx⟩
    · exfalso
      cases hreach.cases_tail with
      | inl heq => exact hstart (heq ▸ h0)
      | inr hlast =>
          obtain ⟨m, -, hstep⟩ := hlast
          exact hlive m n hstep h0
  refine ⟨(namei_held hheld hT hcwd hrootlt path).mono (fun r t ⟨⟨hdisk, hr⟩, _⟩ => ⟨hdisk, ?_⟩) fun e he =>
    hpanic e he.1,
    (namex_held hheld hT hcwd hrootlt path true).mono (fun r t ⟨⟨hdisk, hr⟩, _⟩ => ⟨hdisk, ?_⟩) fun e he =>
      hpanic e he.1⟩
  · rw [show walk (tree sb s.disk) (startOf path (s.icache cwd).inum) (elems path) = walk T start cs from rfl] at hr
    cases hw : walk T start cs with
    | none =>
        rw [hw] at hr
        obtain ⟨rfl, ht⟩ := hr
        exact ⟨ht.noRef, rfl⟩
    | some n =>
        rw [hw] at hr
        obtain ⟨ip, rfl, ht⟩ := hr
        exact ⟨ht.oneRef, ip, rfl, (ht.held _ List.mem_cons_self).1⟩
  · rw [show resolve (tree sb s.disk) true (startOf path (s.icache cwd).inum) [] (elems path) =
      resolve T true start [] cs from rfl] at hr
    rcases List.eq_nil_or_concat cs with hcs | ⟨cs', c, hcs⟩
    · rw [hcs, resolve] at hr
      obtain ⟨rfl, ht⟩ := hr
      rw [hcs]
      exact ⟨ht.noRef, rfl⟩
    · rw [List.concat_eq_append] at hcs
      rw [hcs, resolve_true] at hr
      rw [hcs, List.getLast?_append_of_ne_nil _ (List.cons_ne_nil _ _), List.dropLast_concat]
      cases hw : walk T start cs' with
      | none =>
          rw [hw] at hr
          obtain ⟨rfl, ht⟩ := hr
          exact ⟨ht.noRef, rfl⟩
      | some n =>
          rw [hw] at hr
          by_cases htype : (T n).type = tDir
          · simp only [Option.filter_some, decide_eq_true htype, if_true, Option.map_some] at hr
            obtain ⟨ip, rfl, ht⟩ := hr
            refine ⟨ht.oneRef, ?_⟩
            simp only [List.getLast?_singleton, if_pos htype]
            exact ⟨ip, rfl, (ht.held _ List.mem_cons_self).1⟩
          · simp only [Option.filter_some, decide_eq_false htype, Bool.false_eq_true, if_false,
              Option.map_none] at hr
            obtain ⟨rfl, ht⟩ := hr
            refine ⟨ht.noRef, ?_⟩
            simp only [List.getLast?_singleton, if_neg htype]

end Calls

section

attribute [local instance] noDevices

def small : Layout := ⟨⟨10, 8, 4, 0, 0, 0, 1⟩, by decide, by decide, by decide, by decide⟩

/-- Two directories and a file, all empty and open. -/
def nodes : State where
  disk := putNode small (putNode small (putNode small
    (Function.update (fun _ _ => 0) 1 (Bytes.setBit (Bytes.setBit (fun _ => 0) 0) 1)) 1 (.fresh tDir)) 2
      (.fresh tDir)) 3
    (.fresh tFile)
  icache i := if i.val < 3 then ⟨.fresh (if i.val < 2 then tDir else tFile), rootdev, i.val + 1, 1, true⟩
    else ICache.empty i

theorem dinode_nodes {j : Nat} (hj : j < 4) :
    dinode small nodes.disk j = .fresh (if j = 0 then 0 else if j < 3 then tDir else tFile) := by
  rw [nodes, dinode_putNode, dinode_putNode, dinode_putNode]
  interval_cases j
  · exact getDinode_zero 0
  all_goals rfl

theorem consistent_nodes : Consistent small nodes := by
  refine .of_empty (fun j hj => ?_) (by decide +kernel) ⟨?_, ?_, ?_, ?_⟩ fun i hi _ => ?_
  · rw [dinode_nodes hj]
    exact ⟨rfl, rfl⟩
  · decide +kernel
  · decide +kernel
  · decide +kernel
  · decide +kernel
  · have hlt : i.val < 3 := by
      by_contra hge
      simp [nodes, hge, ICache.empty] at hi
    have hnode := dinode_nodes (j := i.val + 1) (by omega)
    simp only [Nat.add_one_ne_zero, if_false, Nat.add_lt_iff_lt_sub_right] at hnode
    simp only [nodes, hlt, if_true] at hnode ⊢
    exact hnode.symm

def direntBytes (es : List Dirent) (p : Nat) : UInt8 := (es.getD (p / 16) .zero).src (p % 16)

/-- The root gets the directory `a`, which gets the file `b`. -/
def fillDirs : List Call :=
  [.writei 0 (direntBytes [.of 1 dot, .of 1 dotdot, .of 2 [97]]) 0 48,
    .writei 1 (direntBytes [.of 2 dot, .of 1 dotdot, .of 3 [98]]) 0 48]

def Filed (s : State) : Prop :=
  ∀ j < 4, (tree small s.disk j).type = tDir → (tree small s.disk j).rest = 0 ∧
    ∀ de ∈ (tree small s.disk j).ents, de.inum.toNat < 4 ∧ (tree small s.disk de.inum.toNat).type ≠ 0

instance (s : State) : Decidable (Filed s) := inferInstanceAs (Decidable (∀ _ < _, _ → _))

def AllOpen (s : State) : Prop :=
  ∀ j < 4, (tree small s.disk j).type ≠ 0 →
    ∃ i, 0 < (s.icache i).ref ∧ (s.icache i).inum = j ∧ (s.icache i).valid = true

instance (s : State) : Decidable (AllOpen s) := inferInstanceAs (Decidable (∀ _ < _, _ → _))

theorem Filed.shaped {s : State} (h : Filed s) : Shaped small.ninodes (tree small s.disk) := by
  have hlt {j : Nat} (hj : (tree small s.disk j).type = tDir) : j < 4 := lt_of_type_ne (by rw [hj]; decide)
  exact ⟨fun j hj => (h j (hlt hj) hj).1, fun j k de hj hde =>
    ((h j (hlt hj) hj).2 de (List.mem_of_getElem? hde)).1⟩

theorem Filed.live {s : State} {j n : Nat} (h : Filed s) (hs : Step (tree small s.disk) j n) :
    (tree small s.disk n).type ≠ 0 := by
  obtain ⟨hj, name, hname⟩ := hs
  obtain ⟨k, hk⟩ : ∃ k, lookup (tree small s.disk j).ents name = some (k, n) := by
    obtain ⟨⟨k, m⟩, hk, rfl⟩ := Option.map_eq_some_iff.mp hname
    exact ⟨k, hk⟩
  obtain ⟨⟨de, hde, -, rfl⟩, -⟩ := lookup_eq_some.mp hk
  exact ((h j (lt_of_type_ne (by rw [hj]; decide)) hj).2 de (List.mem_of_getElem? hde)).2

/-- `/a/b` is the file, and its parent is the directory `a`. -/
theorem path_resolution_nested :
    ∃ s, Runs.run (Call.step small) nodes fillDirs = some s ∧
      (∃ ip t, namei small 0 [47, 97, 47, 98] s = .ok (some ip, t) ∧ (t.icache ip).inum = 3) ∧
      ∃ ip t, nameiparent small 0 [47, 97, 47, 98] s = .ok (some (ip, [98]), t) ∧ (t.icache ip).inum = 2 := by
  have hany : (Runs.run (Call.step small) nodes fillDirs).any fun s =>
      decide (Filed s ∧ AllOpen s ∧ (tree small s.disk rootino).type = tDir ∧ 0 < (s.icache 0).ref ∧
        (s.icache 0).inum = rootino ∧
        walk (tree small s.disk) 1 [[97], [98]] = some 3 ∧ walk (tree small s.disk) 1 [[97]] = some 2 ∧
        (tree small s.disk 2).type = tDir ∧ (namei small 0 [47, 97, 47, 98] s).toOption.any (fun _ => true) ∧
        (nameiparent small 0 [47, 97, 47, 98] s).toOption.any fun _ => true) := by decide +kernel
  obtain ⟨s, hs, hall⟩ := (Option.any_eq_true _ _).mp hany
  obtain ⟨hfiled, hopen, hroot, hcwd, hinum, hwalk, hparent, hdir, hok, hok'⟩ := of_decide_eq_true hall
  have halong : Runs.Along (Call.step small) Call.Ready nodes fillDirs :=
    Runs.along_of_alongB (fun s c => decide (c.Ready s)) (fun _ _ h => of_decide_eq_true h) (by decide +kernel)
  have hcons : Consistent small s := Runs.run_invariant (Consistent small)
    (fun s c t h hc hst => (Call.step_consistent h hc hst).1) consistent_nodes halong hs
  have hlive : (tree small s.disk rootino).type ≠ 0 := by
    rw [hroot]
    decide
  have h := path_resolution hcons (fun j hj => hopen j (lt_of_type_ne hj.1) hj.1) hfiled.shaped
    (fun _ _ => hfiled.live) hlive hcwd (by rwa [hinum]) [47, 97, 47, 98]
  have hcs : (((([47, 97, 47, 98] : List UInt8).takeWhile (· ≠ 0)).splitOnP (· == slash)).filter
    (· ≠ [])).map (·.take dirsiz) = [[97], [98]] := by decide
  dsimp only at h
  rw [hcs, if_pos (show ([47, 97, 47, 98] : List UInt8).headD 0 = slash from rfl), List.dropLast_cons_cons,
    List.dropLast_singleton,
    show walk _ rootino _ = some 3 from hwalk, show walk _ rootino _ = some 2 from hparent] at h
  refine ⟨s, hs, ?_, ?_⟩
  · obtain ⟨r, t, hrt, -⟩ := ok_of_any hok
    obtain ⟨ip, rfl, hip⟩ := ((wp_iff.mp h.1).1 r t hrt).2.2
    exact ⟨ip, t, hrt, hip⟩
  · obtain ⟨r, t, hrt, -⟩ := ok_of_any hok'
    have hr := ((wp_iff.mp h.2).1 r t hrt).2.2
    rw [List.getLast?_cons_cons, List.getLast?_singleton] at hr
    obtain ⟨ip, rfl, hip⟩ := (if_pos hdir).mp hr
    exact ⟨ip, t, hrt, hip⟩

end

end Xv6.Fs
