import Xv6.Icache.Coherence

namespace Xv6.Icache

open Fs Lib.Runs
open Function (update update_of_ne update_self)

variable {P : Type} [DecidableEq P] [Fintype P] {s : State P} {p q r : P} {i : Fin ninode} {pc : Pc}

theorem Coherent.born_type (hs : Coherent s) {type : Int16} (h : s.born r i = some type) :
    (s.inodes (s.icache i).key).type = type := (hs.born r i type h).2.2.1

theorem Coherent.goto (hs : Coherent s) (hold : ∀ i, (s.pc p).use i = .none) (hnew : ∀ i, pc.use i = .none)
    (hscan : ∀ dev inum type, pc = .scanning dev inum type → type ≠ 0)
    (hclaim : ∀ dev inum type, pc ≠ .claimed dev inum type) : Coherent (s.goto p pc) := by
  have huse (r i) : ((s.goto p pc).pc r).use i = (s.pc r).use i := by
    by_cases hr : r = p
    · subst hr; simp [State.goto, hold, hnew]
    · simp [State.goto, hr]
  have hview (i) : view (s.goto p pc) i = view s i := by
    simp only [view, huse]
    rfl
  have hne {r dev inum type} (hr : (s.goto p pc).pc r = .claimed dev inum type) :
      s.pc r = .claimed dev inum type := by
    by_cases hrp : r = p
    · subst hrp
      simp only [State.goto, update_self] at hr
      exact absurd hr (hclaim dev inum type)
    · simpa [State.goto, hrp] using hr
  constructor
  case entry => exact fun i => hview i ▸ hs.entry i
  case unique => exact hs.unique
  case scanning =>
    intro r dev inum type hr
    by_cases hrp : r = p
    · subst hrp
      exact hscan dev inum type (by simpa [State.goto] using hr)
    · exact hs.scanning r dev inum type (by simpa [State.goto, hrp] using hr)
  case claimed =>
    intro r dev inum type hr
    obtain ⟨h1, h2, h3, h4⟩ := hs.claimed r dev inum type (hne hr)
    exact ⟨h1, h2, h3, fun i hi hk => hview i ▸ h4 i hi hk⟩
  case claimed_unique =>
    intro a b dev inum type type' ha hb
    exact hs.claimed_unique a b dev inum type type' (hne ha) (hne hb)
  case born =>
    intro r i type hr
    rw [huse]
    exact hs.born r i type hr

theorem Coherent.claim (hs : Coherent s) {dev inum : Nat} {type : Int16}
    (hpc : s.pc p = .scanning dev inum type) (hfree : (s.inodes (dev, inum)).type = 0) :
    Coherent ({ s with inodes := update s.inodes (dev, inum) (.fresh type) }.goto p
      (.claimed dev inum type)) := by
  have htype := hs.scanning p dev inum type hpc
  have hfresh : (Dinode.fresh type).type ≠ 0 := htype
  generalize ht : ({ s with inodes := update s.inodes (dev, inum) (.fresh type) }.goto p
    (.claimed dev inum type) : State P) = t
  have huse (r i) : (t.pc r).use i = (s.pc r).use i := by
    subst ht
    by_cases hr : r = p
    · subst hr; simp [State.goto, hpc, Pc.use]
    · simp [State.goto, hr]
  have hicache : t.icache = s.icache := by subst ht; rfl
  have hinodes : t.inodes = update s.inodes (dev, inum) (.fresh type) := by subst ht; rfl
  have hview (i) : view t i =
      { view s i with disk := update s.inodes (dev, inum) (.fresh type) (s.icache i).key } := by
    simp only [view, huse, hicache, hinodes]
    subst ht
    rfl
  have hsame (i) (hk : (s.icache i).key ≠ (dev, inum)) : view t i = view s i := by
    rw [hview, update_of_ne hk]
    rfl
  have hother {r dev' inum' type'} (hr : r ≠ p) (h : t.pc r = .claimed dev' inum' type') :
      s.pc r = .claimed dev' inum' type' ∧ (dev', inum') ≠ (dev, inum) := by
    have h' : s.pc r = .claimed dev' inum' type' := by
      subst ht
      simpa [State.goto, hr] using h
    refine ⟨h', fun hk => ?_⟩
    obtain ⟨hne, hd, -⟩ := hs.claimed r dev' inum' type' h'
    rw [hk, hfree] at hd
    exact hne hd.symm
  have hself : t.pc p = .claimed dev inum type := by subst ht; simp [State.goto]
  constructor
  case entry =>
    intro i
    by_cases hk : (s.icache i).key = (dev, inum)
    · rw [hview i, hk, update_self]
      exact (hs.entry i).claim (by simpa [view, hk] using hfree) hfresh
    · exact hsame i hk ▸ hs.entry i
  case unique => exact hicache ▸ hs.unique
  case scanning =>
    intro r dev' inum' type' hr
    by_cases hrp : r = p
    · rw [hrp, hself] at hr
      cases hr
    · exact hs.scanning r dev' inum' type' (by subst ht; simpa [State.goto, hrp] using hr)
  case claimed =>
    intro r dev' inum' type' hr
    by_cases hrp : r = p
    · rw [hrp, hself] at hr
      cases hr
      rw [hinodes, update_self]
      refine ⟨htype, rfl, rfl, fun i hi hk => ?_⟩
      rw [hicache] at hi hk
      have hlone := (hs.entry i).lone hi (by simpa [view, hk] using hfree)
      rw [hview i]
      exact hlone
    · obtain ⟨hr', hne⟩ := hother hrp hr
      obtain ⟨h1, h2, h3, h4⟩ := hs.claimed r dev' inum' type' hr'
      rw [hinodes, update_of_ne hne, hicache]
      refine ⟨h1, h2, h3, fun i hi hk => ?_⟩
      rw [hsame i (hk ▸ hne)]
      exact h4 i hi hk
  case claimed_unique =>
    intro a b dev' inum' ta tb ha hb
    by_cases hap : a = p
    · by_cases hbp : b = p
      · rw [hap, hbp]
      · rw [hap, hself] at ha
        cases ha
        exact absurd rfl (hother hbp hb).2
    · by_cases hbp : b = p
      · rw [hbp, hself] at hb
        cases hb
        exact absurd rfl (hother hap ha).2
      · exact hs.claimed_unique a b dev' inum' ta tb (hother hap ha).1 (hother hbp hb).1
  case born =>
    intro r i type' hr
    obtain ⟨h1, h2, h3, h4⟩ := hs.born r i type' (by subst ht; exact hr)
    have hne : (s.icache i).key ≠ (dev, inum) := by
      intro hk
      rw [hk, hfree] at h3
      exact h1 h3.symm
    refine ⟨h1, by subst ht; exact h2, ?_, fun st => huse r i ▸ h4 st⟩
    rw [hicache, hinodes, update_of_ne hne, h3]

theorem Coherent.get (hs : Coherent s) (hidle : ∀ j, (s.pc p).use j = .none) (hused : 0 < (s.icache i).ref)
    (hok : 0 < s.refs p i ∨ (s.inodes (s.icache i).key).type ≠ 0 ∧
      ∀ q st, (s.pc q).use i = .freeing st → st = .finish)
    (haway : ∀ r dev inum type, r ≠ p → s.pc r = .claimed dev inum type → (s.icache i).key ≠ (dev, inum))
    {b : Option Int16} (hb : ∀ type, b = some type →
      type ≠ 0 ∧ (s.inodes (s.icache i).key).type = type) :
    Coherent (s.place p i { cell s p i with
      ip := { s.icache i with ref := (s.icache i).ref + 1 }
      refs := s.refs p i + 1
      born := b } .idle) := by
  refine hs.place ?_ (fun j _ => (hidle j).symm) (by simp) (by simp) ?_ ?_ ?_ ?_
  · have := (hs.entry i).get (hidle i) hused hok
    rw [view_place, use_self .idle (hidle i)]
    exact this
  · intro j hj hjused hk
    exact hj (hs.unique j i hjused hused hk)
  · exact fun r dev inum type hr hpc => .inl (haway r dev inum type hr hpc)
  · exact fun type hT => ⟨(hb type hT).1, Nat.succ_pos _, (hb type hT).2, by simp [Pc.use]⟩
  · exact fun r type _ hT => hs.born_type hT

theorem Coherent.recycle (hs : Coherent s) (hidle : ∀ j, (s.pc p).use j = .none) {dev inum : Nat}
    (hnone : ∀ j, 0 < (s.icache j).ref → (s.icache j).key ≠ (dev, inum)) (hunused : (s.icache i).ref = 0)
    (htype : (s.inodes (dev, inum)).type ≠ 0)
    (haway : ∀ r dev' inum' type, r ≠ p → s.pc r = .claimed dev' inum' type → (dev, inum) ≠ (dev', inum'))
    {b : Option Int16} (hb : ∀ type, b = some type → type ≠ 0 ∧ (s.inodes (dev, inum)).type = type) :
    Coherent (s.place p i { cell s p i with
      ip := { s.icache i with dev := dev, inum := inum, ref := 1, valid := false }
      disk := s.inodes (dev, inum)
      refs := s.refs p i + 1
      born := b } .idle) := by
  refine hs.place ?_ (fun j _ => (hidle j).symm) (by simp) (by simp) ?_ ?_ ?_ ?_
  · have := (hs.entry i).recycle (p := p) hunused dev inum htype
    rw [view_place, use_self .idle (hidle i)]
    exact this
  · exact fun j _ hjused => hnone j hjused
  · exact fun r dev' inum' type hr hpc => .inl (haway r dev' inum' type hr hpc)
  · exact fun type hT => ⟨(hb type hT).1, Nat.succ_pos _, (hb type hT).2, by simp [Pc.use]⟩
  · intro r type _ hT
    have := (hs.entry i).used (p := r) (hs.born r i type hT).2.1
    exact absurd this (by simp [view, hunused])

theorem Fits.finish_of_lone {v : View P} (h : EntryOk v) (hl : Lone v) {st : FreeStage}
    (hq : v.use q = .freeing st) : st = .finish := by
  obtain ⟨-, q', hq'⟩ := hl
  obtain ⟨ph, h⟩ := h
  rcases h.of_freeing hq with rfl | ⟨rfl, -⟩
  · rcases h.of_freeing hq' with hph | ⟨-, l, hph⟩
    · cases hph; rfl
    · cases hph
  · rfl

theorem Coherent.lookup_away (hs : Coherent s) (hidle : s.pc p = .idle) {dev inum : Nat}
    (hok : orderly s (.iget p dev inum)) {dev' inum' : Nat} {type : Int16}
    (hr : s.pc r = .claimed dev' inum' type) : (dev, inum) ≠ (dev', inum') := by
  intro hk
  obtain ⟨-, -, hlink, hlone⟩ := hs.claimed r dev' inum' type hr
  rw [← hk] at hlink hlone
  rcases hok.2 with hne | ⟨i, href, hi⟩
  · exact hne hlink
  · have hused : 0 < (s.icache i).ref := (hs.entry i).used (p := p) href
    have := (hs.entry i).use_of_lone (hlone i hused hi) href
    simp [view, hidle, Pc.use] at this

theorem coherent_iget (hs : Coherent s) (hpc : s.pc p = .idle) {dev inum : Nat} {c : ICache}
    (hok : orderly s (.iget p dev inum)) (hget : iget s.icache dev inum = some (i, c)) :
    Coherent (((({ s with icache := c } : State P).setRefs p i (s.refs p i + 1)).setBorn p i
      (s.born p i)).goto p .idle) := by
  have hidle (j) : (s.pc p).use j = .none := by rw [hpc]; rfl
  rcases iget_cases hget with ⟨hused, hk, rfl⟩ | ⟨hnone, hunused, rfl⟩
  · have hnot : 0 < s.refs p i ∨ (s.inodes (s.icache i).key).type ≠ 0 ∧
        ∀ q st, (s.pc q).use i = .freeing st → st = .finish := by
      rw [hk]
      rcases hok.2 with hlink | ⟨j, href, hj⟩
      · refine .inr ⟨hok.1, fun q st hq => ?_⟩
        obtain ⟨ph, h⟩ := hs.entry i
        rcases h.of_freeing hq with rfl | ⟨hst, -⟩
        · have h0 : (s.inodes (s.icache i).key).nlink = 0 := h.facts.2.2.2.1
          exact absurd (hk ▸ h0) hlink
        · exact hst
      · have hjused : 0 < (s.icache j).ref := (hs.entry j).used (p := p) href
        exact .inl (hs.unique j i hjused hused (hj.trans hk.symm) ▸ href)
    have := hs.get hidle hused hnot (fun r _ _ _ _ hr => hk ▸ hs.lookup_away hpc hok hr)
      (b := s.born p i) (fun type hT => ⟨(hs.born p i type hT).1, hs.born_type hT⟩)
    convert this using 1
    simp [State.place, State.goto, State.setRefs, State.setBorn, cell]
  · have := hs.recycle hidle hnone hunused hok.1 (fun r _ _ _ _ hr => hs.lookup_away hpc hok hr)
      (b := s.born p i) (fun type hT => ?_)
    · convert this using 1
      simp [State.place, State.goto, State.setRefs, State.setBorn, cell]
    · have := (hs.entry i).used (p := p) (hs.born p i type hT).2.1
      exact absurd this (by simp [view, hunused])

theorem coherent_ialloced (hs : Coherent s) {dev inum : Nat} {type : Int16} {c : ICache}
    (hpc : s.pc p = .claimed dev inum type) (hget : iget s.icache dev inum = some (i, c)) :
    Coherent (((({ s with icache := c } : State P).setRefs p i (s.refs p i + 1)).setBorn p i
      (some type)).goto p .idle) := by
  have hidle (j) : (s.pc p).use j = .none := by rw [hpc]; rfl
  obtain ⟨htype, hd, -, hlone⟩ := hs.claimed p dev inum type hpc
  have haway (r dev' inum' type') (hr : r ≠ p) (h : s.pc r = .claimed dev' inum' type') :
      (dev, inum) ≠ (dev', inum') := by
    intro hk
    cases hk
    exact hr (hs.claimed_unique r p dev inum type' type h hpc)
  rcases iget_cases hget with ⟨hused, hk, rfl⟩ | ⟨hnone, hunused, rfl⟩
  · have hnot : (s.inodes (s.icache i).key).type ≠ 0 ∧ ∀ q st, (s.pc q).use i = .freeing st → st = .finish := by
      refine ⟨by rw [hk, hd]; exact htype, fun q st hq => ?_⟩
      exact Fits.finish_of_lone (hs.entry i) (hlone i hused hk) hq
    have := hs.get hidle hused (.inr hnot) (fun r dev' inum' type' hr h => hk ▸ haway r dev' inum' type' hr h)
      (b := some type) (fun T hT => by cases hT; exact ⟨htype, by rw [hk, hd]⟩)
    convert this using 1
    simp [State.place, State.goto, State.setRefs, State.setBorn, cell]
  · have := hs.recycle hidle hnone hunused (hd ▸ htype) haway
      (b := some type) (fun T hT => by cases hT; exact ⟨htype, hd⟩)
    convert this using 1
    simp [State.place, State.goto, State.setRefs, State.setBorn, cell]

theorem coherent_idup (hs : Coherent s) (hpc : s.pc p = .idle) (href : 0 < s.refs p i) :
    Coherent ({ s with icache := idup s.icache i }.setRefs p i (s.refs p i + 1)) := by
  have hidle (j) : (s.pc p).use j = .none := by rw [hpc]; rfl
  have hused : 0 < (s.icache i).ref := (hs.entry i).used (p := p) href
  have haway (r dev inum type) (_ : r ≠ p) (h : s.pc r = .claimed dev inum type) : (s.icache i).key ≠
    (dev, inum) := by
    intro hk
    have hlone := (hs.claimed r dev inum type h).2.2.2 i hused hk
    have := (hs.entry i).use_of_lone hlone href
    simp [view, hpc, Pc.use] at this
  have := hs.get hidle hused (.inl href) haway (b := s.born p i)
    (fun type hT => ⟨(hs.born p i type hT).1, hs.born_type hT⟩)
  convert this using 1
  simp [State.place, State.setRefs, cell, idup, update_idle hpc]

end Xv6.Icache
