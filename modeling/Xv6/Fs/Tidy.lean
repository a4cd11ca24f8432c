import Xv6.Fs.DirCalls

namespace Xv6.Fs

open Lib

variable {T T' : Tree} {x : Node} {de : Dirent} {j k n : Nat} {name : List UInt8}

/-- A directory of whole entries: the first two are "." for itself and "..", and no name is there twice. -/
structure DirOk (j : Nat) (x : Node) : Prop where
  rest : x.rest = 0
  self : ∃ de, x.ents[0]? = some de ∧ de.Is dot ∧ de.inum.toNat = j
  parent : ∃ de, x.ents[1]? = some de ∧ de.Is dotdot
  distinct : Distinct x.ents

namespace DirOk

theorem two_le_vacancy (h : DirOk j x) : 2 ≤ vacancy x.ents := by
  obtain ⟨de, hde, his, -⟩ := h.self
  obtain ⟨de', hde', his'⟩ := h.parent
  have h0 : vacancy x.ents ≠ 0 := fun hv => his.1 (getElem?_vacancy (by rw [hv, hde]))
  have h1 : vacancy x.ents ≠ 1 := fun hv => his'.1 (getElem?_vacancy (by rw [hv, hde']))
  omega

theorem two_le_of_is (h : DirOk j x) (hk : x.ents[k]? = some de) (his : de.Is name) (hname : ¬ Dots name) :
    2 ≤ k := by
  have hcmp {d : Dirent} {s : List UInt8} (hd : x.ents[k]? = some d) (hs : d.Is s) : namecmp name s = 0 := by
    obtain rfl := Option.some.inj (hk.symm.trans hd)
    exact Cstr.strncmp_eq_zero_iff.mpr (his.2.trans hs.2.symm)
  obtain ⟨d, hd, hs, -⟩ := h.self
  obtain ⟨d', hd', hs'⟩ := h.parent
  have h0 : k ≠ 0 := fun hk0 => hname (.inl (hcmp (by rw [hk0, hd]) hs))
  have h1 : k ≠ 1 := fun hk1 => hname (.inr (hcmp (by rw [hk1, hd']) hs'))
  omega

theorem setNlink (h : DirOk j x) (l : Int16) : DirOk j { x with nlink := l } :=
  ⟨h.rest, h.self, h.parent, h.distinct⟩

theorem putEnt (h : DirOk j x) (h2 : 2 ≤ k) (hk : k ≤ x.ents.length) (hd : Distinct (putEnt x.ents k de)) :
    DirOk j { x with ents := putEnt x.ents k de } := by
  have hget {m : Nat} (hm : m < 2) : (Fs.putEnt x.ents k de)[m]? = x.ents[m]? := by
    rw [getElem?_putEnt hk, if_neg (by omega)]
  refine ⟨h.rest, ?_, ?_, hd⟩
  · dsimp only
    rw [hget (by decide)]
    exact h.self
  · dsimp only
    rw [hget (by decide)]
    exact h.parent

theorem fresh (hn : (UInt16.ofNat n).toNat = n) (hn0 : UInt16.ofNat n ≠ 0) (hj0 : UInt16.ofNat j ≠ 0) (l : Int16) :
    DirOk n ⟨tDir, l, [.of (UInt16.ofNat n) dot, .of (UInt16.ofNat j) dotdot], 0⟩ := by
  refine ⟨rfl, ⟨_, rfl, (Dirent.is_of hn0).mpr rfl, hn⟩, ⟨_, rfl, (Dirent.is_of hj0).mpr rfl⟩, ?_⟩
  have hempty : Distinct [] := fun _ _ _ _ hk => nomatch hk
  have hone := (hempty.link hn0 (show inumOf [] dot = none from rfl)).1
  have htwo := (hone.link hj0 (inumOf_dot (UInt16.ofNat n))).1
  rwa [show Fs.putEnt [] (vacancy []) (.of (UInt16.ofNat n) dot) = [.of (UInt16.ofNat n) dot] from rfl,
    vacancy_dot hn0] at htwo

end DirOk

def Tidy (T : Tree) : Prop := ∀ j, (T j).type = tDir → DirOk j (T j)

namespace Tidy

theorem update (h : Tidy T) (j : Nat) (hx : x.type = tDir → DirOk j x) : Tidy (Function.update T j x) := by
  intro m hm
  by_cases hmj : m = j
  · subst hmj
    rw [Function.update_self] at hm ⊢
    exact hx hm
  · rw [Function.update_of_ne hmj] at hm ⊢
    exact h m hm

theorem setNlink (h : Tidy T) (j : Nat) (l : Int16) : Tidy (T.setNlink j l) :=
  h.update j fun ht => (h j ht).setNlink l

theorem link (h : Tidy T) (hn : UInt16.ofNat n ≠ 0) (hname : inumOf (T j).ents name = none) :
    Tidy (T.link j name n) :=
  h.update j fun ht => (h j ht).putEnt (h j ht).two_le_vacancy (vacancy_le _) ((h j ht).distinct.link hn hname).1

theorem linked (h : Tidy T) (hn : UInt16.ofNat n ≠ 0) (hname : inumOf (T j).ents name = none) :
    Tidy (T.linked j name n) := (h.setNlink n _).link hn (by rw [Tree.setNlink_ents]; exact hname)

theorem create (h : Tidy T) (hn : (UInt16.ofNat n).toNat = n) (hn0 : UInt16.ofNat n ≠ 0) (hj0 : UInt16.ofNat j ≠ 0)
    (hjn : j ≠ n) (hname : inumOf (T j).ents name = none) (type : Int16) : Tidy (T.create j n name type) := by
  have h₁ : Tidy (if type = tDir then T.setNlink j ((T j).nlink + 1) else T) := by
    split
    · exact h.setNlink j _
    · exact h
  refine (h₁.update n fun ht => ?_).link hn0 ?_
  · obtain rfl : type = tDir := ht
    rw [if_pos rfl]
    exact .fresh hn hn0 hj0 1
  · rw [Function.update_of_ne hjn]
    split
    · rw [Tree.setNlink_ents]
      exact hname
    · exact hname

theorem unlink (h : Tidy T) (hname : ¬ Dots name) (hl : lookup (T j).ents name = some (k, n)) :
    Tidy (T.unlink j k) := by
  refine h.update j fun ht => ?_
  obtain ⟨⟨de, hk, his, -⟩, -⟩ := lookup_eq_some.mp hl
  exact (h j ht).putEnt ((h j ht).two_le_of_is hk his hname) (List.getElem?_eq_some_iff.mp hk).1.le
    ((h j ht).distinct.unlink hl).1

theorem unlinked (h : Tidy T) (hname : ¬ Dots name) (hl : lookup (T j).ents name = some (k, n)) :
    Tidy (T.unlinked j k n) := by
  have h₁ := h.unlink hname hl
  unfold Tree.unlinked
  split
  · exact (h₁.setNlink j _).setNlink n _
  · exact h₁.setNlink n _

theorem swept {P : Nat → Prop} (h : Tidy T) (hs : Swept P T T') : Tidy T' := by
  intro j hj
  rcases hs j with he | ⟨-, -, hu⟩
  · rw [he] at hj ⊢
    exact h j hj
  · rw [hu] at hj
    cases hj

end Tidy

end Xv6.Fs
