import Xv6.Icache.Entry

namespace Xv6.Icache

open Fs Lib.Runs
open Function (update update_eq_self update_of_ne)

variable {P : Type} {s t : State P} {p q r : P} {i j : Fin ninode} {pc : Pc}

def view (s : State P) (i : Fin ninode) : View P where
  ip := s.icache i
  disk := s.inodes (s.icache i).key
  lock := s.lock i
  unsaved := s.unsaved i
  refs := fun p => s.refs p i
  use := fun p => (s.pc p).use i

def Lone (v : View P) : Prop := v.ip.ref = 1 ∧ ∃ q, v.use q = .freeing .finish

structure Cell (P : Type) where
  ip : Inode
  disk : Dinode
  lock : Option P
  unsaved : Bool
  refs : Nat
  born : Option Int16

def cell (s : State P) (p : P) (i : Fin ninode) : Cell P where
  ip := s.icache i
  disk := s.inodes (s.icache i).key
  lock := s.lock i
  unsaved := s.unsaved i
  refs := s.refs p i
  born := s.born p i

variable [DecidableEq P]

def State.place (s : State P) (p : P) (i : Fin ninode) (c : Cell P) (pc : Pc) : State P where
  inodes := update s.inodes c.ip.key c.disk
  icache := update s.icache i c.ip
  lock := update s.lock i c.lock
  pc := update s.pc p pc
  panic := s.panic
  refs := update s.refs p (update (s.refs p) i c.refs)
  unsaved := update s.unsaved i c.unsaved
  born := update s.born p (update (s.born p) i c.born)

theorem use_update (f : P → Pc) (p : P) (pc : Pc) (i : Fin ninode) :
    (fun r => (update f p pc r).use i) = update (fun r => (f r).use i) p (pc.use i) := by
  funext r
  by_cases hr : r = p
  · subst hr; simp
  · simp [hr]

theorem refs_update (f : P → Fin ninode → Nat) (p : P) (i : Fin ninode) (n : Nat) :
    (fun r => update f p (update (f p) i n) r i) = update (fun r => f r i) p n := by
  funext r
  by_cases hr : r = p
  · subst hr; simp
  · simp [hr]

theorem use_self (pc : Pc) (h : (s.pc p).use i = pc.use i) :
    update (view s i).use p (pc.use i) = (view s i).use := by
  rw [← h]
  exact update_eq_self p (view s i).use

theorem view_place (s : State P) (p : P) (i : Fin ninode) (c : Cell P) (pc : Pc) :
    view (s.place p i c pc) i =
      { ip := c.ip
        disk := c.disk
        lock := c.lock
        unsaved := c.unsaved
        refs := update (view s i).refs p c.refs
        use := update (view s i).use p (pc.use i) } := by
  simp [view, State.place, use_update, refs_update]

theorem place_refs_ne (c : Cell P) (hj : j ≠ i) : (s.place p i c pc).refs r j = s.refs r j := by
  by_cases hr : r = p
  · subst hr; simp [State.place, hj]
  · simp [State.place, hr]

theorem place_born_ne (c : Cell P) (hj : j ≠ i) : (s.place p i c pc).born r j = s.born r j := by
  by_cases hr : r = p
  · subst hr; simp [State.place, hj]
  · simp [State.place, hr]

theorem place_use_ne (c : Cell P) (huse : pc.use j = (s.pc p).use j) :
    ((s.place p i c pc).pc r).use j = (s.pc r).use j := by
  by_cases hr : r = p
  · subst hr; simpa [State.place] using huse
  · simp [State.place, hr]

theorem view_place_ne (c : Cell P) (hj : j ≠ i) (huse : pc.use j = (s.pc p).use j) :
    view (s.place p i c pc) j =
      { view s j with disk := update s.inodes c.ip.key c.disk (s.icache j).key } := by
  simp only [view, place_refs_ne c hj, place_use_ne c huse]
  simp [State.place, hj]

theorem update_idle (hpc : s.pc p = .idle) : update s.pc p .idle = s.pc := by
  rw [← hpc, update_eq_self]

variable [Fintype P]

structure Coherent (s : State P) : Prop where
  entry : ∀ i, EntryOk (view s i)
  unique : ∀ i j, 0 < (s.icache i).ref → 0 < (s.icache j).ref → (s.icache i).key = (s.icache j).key → i = j
  scanning : ∀ p dev inum type, s.pc p = .scanning dev inum type → type ≠ 0
  claimed : ∀ p dev inum type, s.pc p = .claimed dev inum type →
    type ≠ 0 ∧ (s.inodes (dev, inum)).type = type ∧ (s.inodes (dev, inum)).nlink = 0 ∧
      ∀ i, 0 < (s.icache i).ref → (s.icache i).key = (dev, inum) → Lone (view s i)
  claimed_unique : ∀ p q dev inum type type', s.pc p = .claimed dev inum type →
    s.pc q = .claimed dev inum type' → p = q
  born : ∀ p i type, s.born p i = some type →
    type ≠ 0 ∧ 0 < s.refs p i ∧ (s.inodes (s.icache i).key).type = type ∧ ∀ st, (s.pc p).use i ≠ .freeing st

theorem EntryOk.used {v : View P} (h : EntryOk v) (hp : 0 < v.refs p) : 0 < v.ip.ref := by
  obtain ⟨ph, h⟩ := h
  exact lt_of_lt_of_le hp (h.refs_le p)

theorem EntryOk.refs_of_use {v : View P} (h : EntryOk v) (hp : v.use p ≠ .none) : 0 < v.refs p := by
  obtain ⟨ph, h⟩ := h
  have hf := h.facts
  have hu := h.use p
  cases ph with
  | entering r u =>
      by_cases hr : p = r
      · exact hr ▸ hf.1
      · simp [Phase.use, hr, hp] at hu
  | freeing r st =>
      by_cases hr : p = r
      · exact hr ▸ hf.1
      · simp [Phase.use, hr, hp] at hu
  | finishing r l =>
      by_cases hr : p = r
      · exact hr ▸ hf.1
      · by_cases hl : l = some p
        · exact (hf.2.1 p hl).2
        · simp [Phase.use, hr, hl, hp] at hu
  | _ => exact absurd hu hp

theorem EntryOk.refs_of_lock {v : View P} (h : EntryOk v) (hidle : v.use p = .none) (hp : v.lock = some p) :
    0 < v.refs p := by
  obtain ⟨ph, h⟩ := h
  obtain rfl := h.of_held hidle hp
  exact h.facts.1

theorem EntryOk.lone {v : View P} (h : EntryOk v) (hused : 0 < v.ip.ref) (hfree : v.disk.type = 0) : Lone v := by
  obtain ⟨ph, h⟩ := h
  have hf := h.facts
  cases ph with
  | unused =>
      simp only [Phase.Facts] at hf
      omega
  | finishing q l => exact ⟨hf.2.2 hfree, q, by rw [h.use q]; simp [Phase.use]⟩
  | freeing q st => exact absurd hfree hf.2.2.1
  | _ => exact absurd hfree hf.2.1

theorem EntryOk.use_of_lone {v : View P} (h : EntryOk v) (hl : Lone v) (hp : 0 < v.refs p) :
    v.use p = .freeing .finish := by
  obtain ⟨hone, q, hq⟩ := hl
  have hrefs := h.refs_of_use (p := q) (by simp [hq])
  obtain ⟨ph, h⟩ := h
  obtain rfl := h.eq_of_ref_one hone hp hrefs
  exact hq

/-- A step of one process on one entry keeps the invariant if it keeps it for that entry, the
inode stays the entry's own, and no other process has claimed that inode. -/
theorem Coherent.place (hs : Coherent s) {c : Cell P}
    (hentry : EntryOk (view (s.place p i c pc) i))
    (huse : ∀ j, j ≠ i → pc.use j = (s.pc p).use j)
    (hscan : ∀ dev inum type, pc ≠ .scanning dev inum type)
    (hclaim : ∀ dev inum type, pc ≠ .claimed dev inum type)
    (hkey : ∀ j, j ≠ i → 0 < (s.icache j).ref → (s.icache j).key ≠ c.ip.key)
    (haway : ∀ r dev inum type, r ≠ p → s.pc r = .claimed dev inum type →
      c.ip.key ≠ (dev, inum) ∨ c.ip.ref = 0 ∧ c.disk = s.inodes c.ip.key)
    (hborn : ∀ type, c.born = some type →
      type ≠ 0 ∧ 0 < c.refs ∧ c.disk.type = type ∧ ∀ st, pc.use i ≠ .freeing st)
    (hother : ∀ r type, r ≠ p → s.born r i = some type → c.disk.type = type) : Coherent (s.place p i c pc) := by
  have hcell : (s.place p i c pc).icache i = c.ip := by simp [State.place]
  have hne {j} (hj : j ≠ i) : (s.place p i c pc).icache j = s.icache j := by simp [State.place, hj]
  have hself : (s.place p i c pc).pc p = pc := by simp [State.place]
  have hpc {r} (hr : r ≠ p) : (s.place p i c pc).pc r = s.pc r := by simp [State.place, hr]
  have hview {j} (hj : j ≠ i) (hused : 0 < (s.icache j).ref) : view (s.place p i c pc) j = view s j := by
    rw [view_place_ne c hj (huse j hj), update_of_ne (hkey j hj hused)]
    rfl
  have hclaimer {r dev inum type} (hr : (s.place p i c pc).pc r = .claimed dev inum type) : r ≠ p := by
    rintro rfl
    exact absurd (hself ▸ hr) (hclaim dev inum type)
  constructor
  case entry =>
    intro j
    by_cases hj : j = i
    · exact hj ▸ hentry
    by_cases hused : 0 < (s.icache j).ref
    · exact (hview hj hused) ▸ hs.entry j
    · rw [view_place_ne c hj (huse j hj)]
      exact (hs.entry j).unused (by simpa [view] using hused) _
  case unique =>
    intro a b ha hb hab
    by_cases hai : a = i
    · by_cases hbi : b = i
      · rw [hai, hbi]
      · rw [hai, hcell, hne hbi] at hab
        exact absurd hab.symm (hkey b hbi (hne hbi ▸ hb))
    · rw [hne hai] at ha hab
      by_cases hbi : b = i
      · rw [hbi, hcell] at hab
        exact absurd hab (hkey a hai ha)
      · rw [hne hbi] at hb hab
        exact hs.unique a b ha hb hab
  case scanning =>
    intro r dev inum type hr
    by_cases hrp : r = p
    · subst hrp
      exact absurd (hself ▸ hr) (hscan dev inum type)
    · exact hs.scanning r dev inum type (hpc hrp ▸ hr)
  case claimed =>
    intro r dev inum type hr
    have hrp := hclaimer hr
    rw [hpc hrp] at hr
    obtain ⟨htype, hd, hl, hlone⟩ := hs.claimed r dev inum type hr
    have haway := haway r dev inum type hrp hr
    have hdisk : (s.place p i c pc).inodes (dev, inum) = s.inodes (dev, inum) := by
      show update s.inodes c.ip.key c.disk (dev, inum) = _
      rcases haway with hk | ⟨-, hd'⟩
      · rw [update_of_ne (Ne.symm hk)]
      · rw [hd', update_eq_self]
    refine ⟨htype, by rw [hdisk, hd], by rw [hdisk, hl], fun j hj hk => ?_⟩
    by_cases hji : j = i
    · subst hji
      rw [hcell] at hj hk
      rcases haway with hk' | ⟨h0, -⟩
      · exact absurd hk hk'
      · omega
    · rw [hne hji] at hj hk
      rw [hview hji hj]
      exact hlone j hj hk
  case claimed_unique =>
    intro a b dev inum type type' ha hb
    have hap := hclaimer ha
    have hbp := hclaimer hb
    rw [hpc hap] at ha
    rw [hpc hbp] at hb
    exact hs.claimed_unique a b dev inum type type' ha hb
  case born =>
    intro r j type hr
    by_cases hji : j = i
    · subst hji
      by_cases hrp : r = p
      · subst hrp
        have := hborn type (by simpa [State.place] using hr)
        simpa [State.place] using this
      · have hr' : s.born r j = some type := by simpa [State.place, hrp] using hr
        obtain ⟨htype, href, -, hst⟩ := hs.born r j type hr'
        have := hother r type hrp hr'
        simp only [hpc hrp, hcell]
        simpa [State.place, hrp] using ⟨htype, href, this, hst⟩
    · rw [place_born_ne c hji] at hr
      obtain ⟨htype, href, hd, hst⟩ := hs.born r j type hr
      have hused : 0 < (s.icache j).ref := (hs.entry j).used (p := r) href
      rw [place_refs_ne c hji, hne hji, place_use_ne c (huse j hji)]
      refine ⟨htype, href, ?_, hst⟩
      show (update s.inodes c.ip.key c.disk (s.icache j).key).type = type
      rw [update_of_ne (hkey j hji hused), hd]

/-- The places of a process that is busy with no entry other than `i`. -/
inductive Pc.At (i : Fin ninode) : Pc → Prop
  | idle : At i .idle
  | locking : At i (.locking i)
  | loading : At i (.loading i)
  | freeing (st) : At i (.freeing i st)

omit [DecidableEq P] [Fintype P] in
theorem Pc.At.use_ne (h : pc.At i) (hj : j ≠ i) : pc.use j = .none := by
  cases h <;> simp [Pc.use, hj.symm]

theorem Coherent.own (hs : Coherent s) (p : P) (i : Fin ninode) (c : Cell P) (ht : t = s.place p i c pc)
    (hold : (s.pc p).At i)
    (hnew : pc.At i)
    (hentry : EntryOk
      { ip := c.ip
        disk := c.disk
        lock := c.lock
        unsaved := c.unsaved
        refs := update (view s i).refs p c.refs
        use := update (view s i).use p (pc.use i) })
    (href : 0 < s.refs p i) (hkey : c.ip.key = (s.icache i).key)
    (hfin : (s.pc p).use i ≠ .freeing .finish ∨ c.ip.ref = (s.icache i).ref - 1 ∧ c.disk = s.inodes c.ip.key)
    (hborn : ∀ type, c.born = some type →
      type ≠ 0 ∧ 0 < c.refs ∧ c.disk.type = type ∧ ∀ st, pc.use i ≠ .freeing st)
    (hother : ∀ r type, r ≠ p → s.born r i = some type → c.disk.type = type) : Coherent t := by
  subst ht
  have hused : 0 < (s.icache i).ref := (hs.entry i).used (p := p) href
  refine hs.place (view_place s p i c pc ▸ hentry) ?_ ?_ ?_ ?_ ?_ hborn hother
  · intro j hj
    rw [hold.use_ne hj, hnew.use_ne hj]
  · rintro dev inum type rfl
    cases hnew
  · rintro dev inum type rfl
    cases hnew
  · intro j hj hjused hk
    exact hj (hs.unique j i hjused hused (hk.trans hkey))
  · intro r dev inum type hr hpc
    by_cases hk : c.ip.key = (dev, inum)
    · have hlone := (hs.claimed r dev inum type hpc).2.2.2 i hused (hkey.symm.trans hk)
      have huse := (hs.entry i).use_of_lone hlone href
      rcases hfin with hfin | ⟨h1, h2⟩
      · exact absurd huse hfin
      · have hone : (s.icache i).ref = 1 := hlone.1
        exact .inr ⟨by omega, h2⟩
    · exact .inl hk

end Xv6.Icache
