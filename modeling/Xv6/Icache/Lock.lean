import Xv6.Icache.Alloc

namespace Xv6.Icache

open Fs
open Function (update update_eq_self)

variable {P : Type} [DecidableEq P] [Fintype P] {s : State P} {p q r : P} {i j : Fin ninode} {pc : Pc}

theorem Coherent.born_keep (hs : Coherent s) (hnew : ∀ st, pc.use i ≠ .freeing st) (type : Int16)
    (h : s.born p i = some type) : type ≠ 0 ∧ 0 < s.refs p i ∧ (s.inodes (s.icache i).key).type = type ∧
      ∀ st, pc.use i ≠ .freeing st := by
  obtain ⟨h1, h2, h3, -⟩ := hs.born p i type h
  exact ⟨h1, h2, h3, hnew⟩

theorem Coherent.born_freeing (hs : Coherent s) {st : FreeStage} (hpc : s.pc p = .freeing i st) :
    s.born p i = none := by
  cases h : s.born p i with
  | none => rfl
  | some type => exact absurd (by simp [hpc, Pc.use]) ((hs.born p i type h).2.2.2 st)

theorem coherent_ilock (hs : Coherent s) (hpc : s.pc p = .idle) (href : 0 < s.refs p i) (hlock : s.lock i = none) :
    Coherent ({ s with lock := update s.lock i (some p) }.goto p (.locking i)) := by
  have hidle : (s.pc p).use i = .none := by rw [hpc]; rfl
  refine hs.own p i { cell s p i with lock := some p } ?_ (hpc ▸ .idle) .locking ?_ href rfl
    (.inl (by simp [hidle]))
    (hs.born_keep (by simp [Pc.use])) (fun r type _ hT => hs.born_type hT)
  · simp [State.place, State.goto, cell]
  · simpa [cell, view, Pc.use, update_eq_self] using (hs.entry i).enter hidle hlock href

omit [DecidableEq P] [Fintype P] in
theorem orderly_test (hok : orderly s (.test p)) (hpc : s.pc p = .locking i) (q : P) :
    (view s i).use q ≠ .freeing .finish := fun hq => hok i hpc q (Pc.use_eq_freeing.mp hq)

theorem coherent_warm (hs : Coherent s) (hpc : s.pc p = .locking i) (hvalid : (s.icache i).valid = true)
    (hok : orderly s (.test p)) : Coherent (s.goto p .idle) := by
  have huse : (view s i).use p = .locking := by simp [view, hpc, Pc.use]
  refine hs.own p i (cell s p i) ?_ (hpc ▸ .locking) .idle ?_ ((hs.entry i).refs_of_use (p := p)
    (by simp [huse])) rfl
    (.inl (by simp [hpc, Pc.use])) (hs.born_keep (by simp [Pc.use])) (fun r type _ hT => hs.born_type hT)
  · simp [State.place, State.goto, cell]
  · simpa [cell, view, Pc.use, update_eq_self] using (hs.entry i).warm huse hvalid (orderly_test hok hpc)

theorem coherent_cold (hs : Coherent s) (hpc : s.pc p = .locking i) (hvalid : (s.icache i).valid = false)
    (hok : orderly s (.test p)) : Coherent (s.goto p (.loading i)) := by
  have huse : (view s i).use p = .locking := by simp [view, hpc, Pc.use]
  refine hs.own p i (cell s p i) ?_ (hpc ▸ .locking) .loading ?_ ((hs.entry i).refs_of_use (p := p)
    (by simp [huse]))
    rfl (.inl (by simp [hpc, Pc.use])) (hs.born_keep (by simp [Pc.use])) (fun r type _ hT => hs.born_type hT)
  · simp [State.place, State.goto, cell]
  · simpa [cell, view, Pc.use, update_eq_self] using (hs.entry i).cold huse hvalid (orderly_test hok hpc)

theorem coherent_load (hs : Coherent s) (hpc : s.pc p = .loading i) :
    Coherent ((s.setInode i { s.icache i with toDinode := s.inodes (s.icache i).key, valid := true }).goto
      p .idle) := by
  have huse : (view s i).use p = .loading := by simp [view, hpc, Pc.use]
  refine hs.own p i { cell s p i with
      ip := { s.icache i with toDinode := s.inodes (s.icache i).key, valid := true } } ?_
    (hpc ▸ .loading) .idle ?_ ((hs.entry i).refs_of_use (p := p) (by simp [huse])) rfl
    (.inl (by simp [hpc, Pc.use])) (hs.born_keep (by simp [Pc.use])) (fun r type _ hT => hs.born_type hT)
  · simp [State.place, State.goto, State.setInode, cell]
  · simpa [cell, view, Pc.use, update_eq_self] using (hs.entry i).load huse

theorem coherent_modify (hs : Coherent s) (hpc : s.pc p = .idle) (hlock : s.lock i = some p) {d : Dinode}
    (hd : d.type = (s.icache i).type) :
    Coherent { s.setInode i { s.icache i with toDinode := d } with
      unsaved := update s.unsaved i true } := by
  have hidle : (view s i).use p = .none := by simp [view, hpc, Pc.use]
  refine hs.own p i { cell s p i with ip := { s.icache i with toDinode := d }, unsaved := true } ?_
    (hpc ▸ .idle) .idle ?_ ((hs.entry i).refs_of_lock hidle hlock) rfl
    (.inl (by simp [hpc, Pc.use])) (hs.born_keep (by simp [Pc.use])) (fun r type _ hT => hs.born_type hT)
  · simp [State.place, State.setInode, cell, update_idle hpc]
  · rw [use_self .idle hidle]
    simpa [cell, view, update_eq_self] using (hs.entry i).modify hidle hlock hd

theorem Coherent.held (hs : Coherent s) (hidle : (s.pc p).use i = .none) (hlock : s.lock i = some p) :
    (s.icache i).type = (s.inodes (s.icache i).key).type ∧
      (s.unsaved i = false → (s.icache i).toDinode = s.inodes (s.icache i).key) := by
  obtain ⟨ph, h⟩ := hs.entry i
  obtain rfl := h.of_held hidle hlock
  exact h.facts.2.2.2

theorem coherent_iupdate (hs : Coherent s) (hpc : s.pc p = .idle) (hlock : s.lock i = some p) :
    Coherent { s.save i with unsaved := update s.unsaved i false } := by
  have hidle : (view s i).use p = .none := by simp [view, hpc, Pc.use]
  have htype := (hs.held hidle hlock).1
  refine hs.own p i { cell s p i with disk := (s.icache i).toDinode, unsaved := false } ?_
    (hpc ▸ .idle) .idle ?_ ((hs.entry i).refs_of_lock hidle hlock) rfl
    (.inl (by simp [hpc, Pc.use])) ?_ (fun r type _ hT => htype.trans (hs.born_type hT))
  · simp [State.place, State.save, cell, update_idle hpc]
  · rw [use_self .idle hidle]
    simpa [cell, view, update_eq_self] using (hs.entry i).save hidle hlock
  · intro type hT
    obtain ⟨h1, h2, h3, -⟩ := hs.born p i type hT
    exact ⟨h1, h2, htype.trans h3, by simp [Pc.use]⟩

theorem coherent_iunlock (hs : Coherent s) (hpc : s.pc p = .idle) (hlock : s.lock i = some p)
    (hsaved : s.unsaved i = false) : Coherent { s with lock := update s.lock i none } := by
  have hidle : (view s i).use p = .none := by simp [view, hpc, Pc.use]
  refine hs.own p i { cell s p i with lock := none } ?_ (hpc ▸ .idle) .idle ?_
    ((hs.entry i).refs_of_lock hidle hlock) rfl (.inl (by simp [hpc, Pc.use])) (hs.born_keep (by simp [Pc.use]))
    (fun r type _ hT => hs.born_type hT)
  · simp [State.place, cell, update_idle hpc]
  · rw [use_self .idle hidle]
    simpa [cell, view, update_eq_self] using (hs.entry i).unlock hidle hlock hsaved

theorem coherent_drop (hs : Coherent s) (hpc : s.pc p = .idle) (href : 0 < s.refs p i)
    (hlock : s.lock i = some p → 1 < s.refs p i) :
    Coherent (((s.setInode i { s.icache i with ref := (s.icache i).ref - 1 }).setRefs p i
      (s.refs p i - 1)).setBorn p i none) := by
  have hidle : (view s i).use p = .none := by simp [view, hpc, Pc.use]
  refine hs.own p i { cell s p i with
      ip := { s.icache i with ref := (s.icache i).ref - 1 }
      refs := s.refs p i - 1
      born := none } ?_ (hpc ▸ .idle) .idle ?_ href rfl (.inl (by simp [hpc, Pc.use])) (by simp)
    (fun r type _ hT => hs.born_type hT)
  · simp [State.place, State.setInode, State.setRefs, State.setBorn, cell, update_idle hpc]
  · rw [use_self .idle hidle]
    exact (hs.entry i).drop hidle href hlock

omit [Fintype P] in
theorem view_handOver (s : State P) (q : P) : view (handOver s p q i) i =
    { view s i with
      refs := update (update (view s i).refs p (s.refs p i - 1)) q (s.refs q i + 1) } := by
  have hrefs (r) : (handOver s p q i).refs r i =
      update (update (view s i).refs p (s.refs p i - 1)) q (s.refs q i + 1) r := by
    by_cases hq : r = q
    · subst hq; simp [handOver, State.setRefs, State.setBorn]
    by_cases hp : r = p
    · subst hp; simp [handOver, State.setRefs, State.setBorn, hq]
    · simp [handOver, State.setRefs, State.setBorn, hp, hq, view]
  simp only [view, hrefs]
  rfl

omit [Fintype P] in
theorem handOver_refs_ne (hj : j ≠ i) : (handOver s p q i).refs r j = s.refs r j := by
  by_cases hq : r = q
  · subst hq
    by_cases hp : r = p
    · subst hp; simp [handOver, State.setRefs, State.setBorn, hj]
    · simp [handOver, State.setRefs, State.setBorn, hj, hp]
  by_cases hp : r = p
  · subst hp; simp [handOver, State.setRefs, State.setBorn, hj, hq]
  · simp [handOver, State.setRefs, State.setBorn, hp, hq]

theorem coherent_handOver (hs : Coherent s) (hpc : s.pc p = .idle) (href : 0 < s.refs p i) (hne : p ≠ q)
    (hlock : s.lock i = some p → 1 < s.refs p i) : Coherent (handOver s p q i) := by
  have hidle : (view s i).use p = .none := by simp [view, hpc, Pc.use]
  have hview (j) (hj : j ≠ i) : view (handOver s p q i) j = view s j := by
    simp only [view, handOver_refs_ne hj]
    rfl
  constructor
  case entry =>
    intro j
    by_cases hj : j = i
    · subst hj
      rw [view_handOver]
      exact (hs.entry j).handOver hidle href hne hlock
    · exact hview j hj ▸ hs.entry j
  case unique => exact hs.unique
  case scanning => exact hs.scanning
  case claimed => exact hs.claimed
  case claimed_unique => exact hs.claimed_unique
  case born =>
    intro r j type hr
    have hr' : s.born r j = some type ∧ ¬ (r = p ∧ j = i) := by
      by_cases hrp : r = p
      · subst hrp
        by_cases hj : j = i
        · subst hj; simp [handOver, State.setBorn] at hr
        · exact ⟨by simpa [handOver, State.setBorn, State.setRefs, hj] using hr, by simp [hj]⟩
      · exact ⟨by simpa [handOver, State.setBorn, State.setRefs, hrp] using hr, by simp [hrp]⟩
    obtain ⟨h1, h2, h3, h4⟩ := hs.born r j type hr'.1
    refine ⟨h1, ?_, h3, h4⟩
    by_cases hj : j = i
    · subst hj
      by_cases hq : r = q
      · subst hq; simp [handOver, State.setRefs, State.setBorn]
      · have hp : r ≠ p := fun e => hr'.2 ⟨e, rfl⟩
        simpa [handOver, State.setRefs, State.setBorn, hq, hp] using h2
    · rwa [handOver_refs_ne hj]

theorem coherent_last (hs : Coherent s) (hpc : s.pc p = .idle) (href : 0 < s.refs p i)
    (hlock : s.lock i = some p → 1 < s.refs p i) (hone : (s.icache i).ref = 1)
    (hvalid : (s.icache i).valid = true) (hlink : (s.icache i).nlink = 0) :
    Coherent ((s.setBorn p i none).goto p (.freeing i (.addr 0))) := by
  have hidle : (view s i).use p = .none := by simp [view, hpc, Pc.use]
  refine hs.own p i { cell s p i with born := none } ?_ (hpc ▸ .idle) (.freeing (.addr 0)) ?_ href rfl
    (.inl (by simp [hpc, Pc.use])) (by simp) (fun r type _ hT => hs.born_type hT)
  · simp [State.place, State.goto, State.setBorn, cell]
  · simpa [cell, view, Pc.use, update_eq_self] using
      (hs.entry i).last hidle href hlock hone hvalid hlink

end Xv6.Icache
