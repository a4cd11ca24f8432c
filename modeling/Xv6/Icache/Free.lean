import Xv6.Icache.Lock

namespace Xv6.Icache

open Fs Lib.Runs
open Function (update update_eq_self update_of_ne update_self)

variable {P : Type} [DecidableEq P] [Fintype P] {s t : State P} {p q r : P} {i j : Fin ninode} {a : Act P}
  {ninodes : Nat}

theorem Coherent.freeing (hs : Coherent s) {st : FreeStage} (hpc : s.pc p = .freeing i st) (hst : st ≠ .finish) :
    (s.inodes (s.icache i).key).type ≠ 0 ∧
      ((s.icache i).type = if st = .saveFree then 0 else (s.inodes (s.icache i).key).type) ∧
      ∀ q, 0 < s.refs q i → q = p := by
  obtain ⟨ph, h⟩ := hs.entry i
  rcases h.of_freeing (show (view s i).use p = .freeing st by simp [view, hpc, Pc.use]) with rfl | ⟨hfin, -⟩
  · obtain ⟨href, hone, hdisk, -, -, -, htype⟩ := h.facts
    exact ⟨hdisk, htype, fun q hq => h.eq_of_ref_one hone hq href⟩
  · exact absurd hfin hst

theorem Coherent.not_born (hs : Coherent s) {st : FreeStage} (hpc : s.pc p = .freeing i st) (hst : st ≠ .finish)
    (r : P) (type : Int16) (hr : r ≠ p) : s.born r i ≠ some type := fun hT =>
  hr ((hs.freeing hpc hst).2.2 r (hs.born r i type hT).2.1)

theorem coherent_freeing (hs : Coherent s) {st : FreeStage} (hpc : s.pc p = .freeing i st) (hst : st ≠ .finish)
    (hbefore : st ≠ .saveFree) (st' : FreeStage) (hst' : st' ≠ .finish) (d d' : Dinode)
    (hlink : d'.nlink = (s.icache i).nlink)
    (htype : d'.type = if st' = .saveFree then 0 else (s.icache i).type)
    (hd : d = s.inodes (s.icache i).key ∨ d = (s.icache i).toDinode) :
    Coherent (s.place p i { cell s p i with ip := { s.icache i with toDinode := d' }, disk := d }
      (.freeing i st')) := by
  have huse : (view s i).use p = .freeing st := by simp [view, hpc, Pc.use]
  refine hs.own p i _ rfl (hpc ▸ .freeing st) (.freeing st') ?_
    ((hs.entry i).refs_of_use (p := p) (by simp [huse])) rfl (.inl (by simp [hpc, Pc.use, hst])) ?_
    (fun r type hr hT => absurd hT (hs.not_born hpc hst r type hr))
  · simpa [cell, view, Pc.use, update_eq_self] using
      (hs.entry i).freeing huse hst hst' hlink htype hd hbefore
  · intro type hT
    have hT : s.born p i = some type := hT
    rw [hs.born_freeing hpc] at hT
    cases hT

theorem coherent_saveFree (hs : Coherent s) (hpc : s.pc p = .freeing i .saveFree) :
    Coherent ((s.save i).goto p (.freeing i .finish)) := by
  have huse : (view s i).use p = .freeing .saveFree := by simp [view, hpc, Pc.use]
  refine hs.own p i { cell s p i with disk := (s.icache i).toDinode } ?_ (hpc ▸ .freeing _) (.freeing .finish) ?_
    ((hs.entry i).refs_of_use (p := p) (by simp [huse])) rfl (.inl (by simp [hpc, Pc.use])) ?_
    (fun r type hr hT => absurd hT (hs.not_born hpc (by simp) r type hr))
  · simp [State.place, State.goto, State.save, cell]
  · simpa [cell, view, Pc.use, update_eq_self] using (hs.entry i).saveFree huse
  · intro type hT
    have hT : s.born p i = some type := hT
    rw [hs.born_freeing hpc] at hT
    cases hT

theorem coherent_finish (hs : Coherent s) (hpc : s.pc p = .freeing i .finish) :
    Coherent (freeStep s p i .finish) := by
  have huse : (view s i).use p = .freeing .finish := by simp [view, hpc, Pc.use]
  refine hs.own p i { cell s p i with
      ip := { s.icache i with valid := false, ref := (s.icache i).ref - 1 }
      refs := s.refs p i - 1 } ?_ (hpc ▸ .freeing _) .idle ?_
    ((hs.entry i).refs_of_use (p := p) (by simp [huse])) rfl (.inr ⟨rfl, rfl⟩) ?_
    (fun r type _ hT => hs.born_type hT)
  · simp [State.place, State.goto, State.setInode, State.setRefs, freeStep, cell]
  · simpa [cell, view, Pc.use, update_eq_self] using (hs.entry i).finish huse
  · intro type hT
    have hT : s.born p i = some type := hT
    rw [hs.born_freeing hpc] at hT
    cases hT

omit [DecidableEq P] in
theorem Coherent.of_panic [DecidableEq P] (hs : Coherent s) (e : Panic) : Coherent { s with panic := some e } :=
  ⟨hs.entry, hs.unique, hs.scanning, hs.claimed, hs.claimed_unique, hs.born⟩

theorem Coherent.loading (hs : Coherent s) (hpc : s.pc p = .loading i) : (s.inodes (s.icache i).key).type ≠ 0 := by
  obtain ⟨ph, h⟩ := hs.entry i
  obtain rfl := h.of_loading (show (view s i).use p = .loading by simp [view, hpc, Pc.use])
  exact h.facts.2.1

theorem coherent_step (hs : Coherent s) (hok : orderly s a) (hst : Step ninodes s a t) : Coherent t := by
  cases hst with
  | ialloc p dev type hpc htype =>
      refine hs.goto (by simp [hpc, Pc.use]) (by simp [Pc.use]) ?_ (by simp)
      intro _ _ type' h
      cases h
      exact htype
  | claim p dev inum type hpc hlt hfree => exact hs.claim hpc hfree
  | pass p dev inum type hpc hlt hused =>
      refine hs.goto (by simp [hpc, Pc.use]) (by simp [Pc.use]) ?_ (by simp)
      intro _ _ type' h
      cases h
      exact hs.scanning p dev inum type hpc
  | iallocNone p dev inum type hpc => exact hs.of_panic _
  | ialloced p dev inum type i c hpc hget => exact coherent_ialloced hs hpc hget
  | iallocedNone p dev inum type hpc => exact hs.of_panic _
  | iget p dev inum i c hpc hget => exact coherent_iget hs hpc hok hget
  | igetNone p dev inum hpc => exact hs.of_panic _
  | idup p i hpc href => exact coherent_idup hs hpc href
  | ilock p i hpc href hlock => exact coherent_ilock hs hpc href hlock
  | ilockPanic p i hpc => exact hs.of_panic _
  | warm p i hpc hvalid => exact coherent_warm hs hpc hvalid hok
  | cold p i hpc hvalid => exact coherent_cold hs hpc hvalid hok
  | load p i hpc htype => exact coherent_load hs hpc
  | noType p i hpc htype => exact absurd htype (hs.loading hpc)
  | modify p i d hpc hlock htype => exact coherent_modify hs hpc hlock htype
  | iupdate p i hpc hlock => exact coherent_iupdate hs hpc hlock
  | iunlock p i hpc hlock hsaved => exact coherent_iunlock hs hpc hlock hsaved
  | iunlockPanic p i hpc => exact hs.of_panic _
  | drop p i hpc href hlock => exact coherent_drop hs hpc href hlock
  | last p i hpc href hlock hone hvalid hlink => exact coherent_last hs hpc href hlock hone hvalid hlink
  | handOver p q i hpc href hne hlock => exact coherent_handOver hs hpc href hne hlock
  | addr p i k hpc hk =>
      convert coherent_freeing hs hpc (by simp) (by simp) (.addr (k + 1)) (by simp) _
        { (s.icache i).toDinode with addrs := update (s.icache i).addrs ⟨k, hk⟩ 0 }
        rfl (by simp) (.inl rfl) using 1
      simp [State.place, State.goto, State.setInode, cell]
  | size p i k hpc =>
      convert coherent_freeing hs hpc (by simp) (by simp) .saveTrunc (by simp) _
        { (s.icache i).toDinode with size := 0 } rfl (by simp) (.inl rfl) using 1
      simp [State.place, State.goto, State.setInode, cell]
  | saveTrunc p i hpc =>
      convert coherent_freeing hs hpc (by simp) (by simp) .clearType (by simp) _ (s.icache i).toDinode rfl
        (by simp) (.inr rfl) using 1
      simp [State.place, State.goto, State.save, cell]
  | clearType p i hpc =>
      convert coherent_freeing hs hpc (by simp) (by simp) .saveFree (by simp) _
        { (s.icache i).toDinode with type := 0 } rfl (by simp) (.inl rfl) using 1
      simp [State.place, State.goto, State.setInode, cell]
  | saveFree p i hpc => exact coherent_saveFree hs hpc
  | finish p i hpc => exact coherent_finish hs hpc

theorem coherent_boot (d : Nat × Nat → Dinode) : Coherent (boot P d) where
  entry i := ⟨.unused, by simp [view, boot, ICache.empty], rfl, fun r => rfl, by simp [view, boot],
    by simp [Phase.Facts, view, boot, ICache.empty]⟩
  unique i j hi := by simp [boot, ICache.empty] at hi
  scanning p dev inum type h := by simp [boot] at h
  claimed p dev inum type h := by simp [boot] at h
  claimed_unique p q dev inum type type' h := by simp [boot] at h
  born p i type h := by simp [boot] at h

def Holds (s : State P) (p : P) (i : Fin ninode) : Prop :=
  s.lock i = some p ∧ s.pc p ≠ .locking i ∧ s.pc p ≠ .loading i

omit [Fintype P] in
instance (s : State P) (p : P) (i : Fin ninode) : Decidable (Holds s p i) :=
  inferInstanceAs (Decidable (_ ∧ _))

theorem Coherent.use_of_holds (hs : Coherent s) (h : Holds s p i) : (s.pc p).use i = .none := by
  obtain ⟨hlock, hne, hne'⟩ := h
  cases hpc : s.pc p with
  | locking j => by_cases hj : j = i <;> simp_all [Pc.use]
  | loading j => by_cases hj : j = i <;> simp_all [Pc.use]
  | freeing j st =>
      by_cases hj : j = i
      · subst hj
        obtain ⟨ph, h⟩ := hs.entry j
        have hl := h.lock.symm.trans hlock
        rcases h.of_freeing (show (view s j).use p = .freeing st by simp [view, hpc, Pc.use]) with rfl | ⟨-, l, rfl⟩
        · cases hl
        · exact absurd rfl (h.facts.2.1 p hl).1
      · simp [Pc.use, hj]
  | _ => rfl

def Act.proc : Act P → P
  | .ialloc p _ _ | .scan p | .ialloced p | .iget p _ _ | .idup p _ | .ilock p _ | .test p | .load p
  | .modify p _ _ | .iupdate p _ | .iunlock p _ | .iput p _ | .handOver p _ _ | .free p => p

theorem Coherent.freed (hs : Coherent s) (hst : Step ninodes s a t) {k : Nat × Nat}
    (hk : (s.inodes k).type ≠ 0) (hk' : (t.inodes k).type = 0) (href : 0 < s.refs q i)
    (hi : (s.icache i).key = k) : q = a.proc := by
  subst hi
  have hused : 0 < (s.icache i).ref := (hs.entry i).used (p := q) href
  have hsave {p j} {st : FreeStage} (hpc : s.pc p = .freeing j st) (hne : st ≠ .finish)
      (h : (update s.inodes (s.icache j).key (s.icache j).toDinode (s.icache i).key).type = 0) :
      q = p := by
    by_cases hj : (s.icache i).key = (s.icache j).key
    · have hjref := (hs.entry j).refs_of_use (p := p) (by simp [view, hpc, Pc.use])
      have hij := hs.unique i j hused ((hs.entry j).used hjref) hj
      subst hij
      exact (hs.freeing hpc hne).2.2 q href
    · rw [update_of_ne hj] at h
      exact absurd h hk
  cases hst with
  | claim p dev inum type hpc hlt hfree =>
      have hne : (s.icache i).key ≠ (dev, inum) := fun h => hk (h ▸ hfree)
      simp only [State.goto, update_of_ne hne] at hk'
      exact absurd hk' hk
  | iupdate p j hpc hlock =>
      have htype := (hs.held (by simp [hpc, Pc.use]) hlock).1
      by_cases hj : (s.icache i).key = (s.icache j).key
      · simp only [State.save, hj, update_self] at hk'
        rw [htype, ← hj] at hk'
        exact absurd hk' hk
      · simp only [State.save, update_of_ne hj] at hk'
        exact absurd hk' hk
  | saveTrunc p j hpc => exact hsave hpc (by simp) hk'
  | saveFree p j hpc => exact hsave hpc (by simp) hk'
  | noType p j hpc htype => exact absurd htype (hs.loading hpc)
  | _ => exact absurd hk' hk

/-- In every orderly run, a process that has returned from `ilock` sees what the inode block holds
until it changes the inode, the process that allocated an inode sees it with the type it asked
for, and an inode is freed only by the last process with a reference to it. -/
theorem icache_coherent {d : Nat × Nat → Dinode} {as : List (Act P)}
    (hok : Along (step ninodes) orderly (boot P d) as) (hrun : run (step ninodes) (boot P d) as = some s) :
    (∀ p i, Holds s p i → s.unsaved i = false → (s.icache i).toDinode = s.inodes (s.icache i).key) ∧
      (∀ p i type, s.born p i = some type → Holds s p i → (s.icache i).type = type) ∧
      ∀ a t, orderly s a → step ninodes s a = some t → ∀ k, (s.inodes k).type ≠ 0 → (t.inodes k).type = 0 →
        ∀ q i, 0 < s.refs q i → (s.icache i).key = k → q = a.proc := by
  have hs : Coherent s := run_invariant Coherent
    (fun _ _ _ hs hok ht => coherent_step hs hok (step_cases hok ht)) (coherent_boot d) hok hrun
  refine ⟨fun p i hp => ?_, fun p i type hT hp => ?_, fun a t hok ht k hk hk' q i href hi => ?_⟩
  · exact (hs.held (hs.use_of_holds hp) hp.1).2
  · exact (hs.held (hs.use_of_holds hp) hp.1).1.trans (hs.born_type hT)
  · exact hs.freed (step_cases hok ht) hk hk' href hi

instance (s : State P) : DecidablePred (orderly s)
  | .iget .. => inferInstanceAs (Decidable (_ ∧ _))
  | .test .. => inferInstanceAs (Decidable (∀ _, _ → _))
  | .modify .. | .iunlock .. => inferInstanceAs (Decidable (_ ∧ _))
  | .iupdate .. => inferInstanceAs (Decidable (_ = _))
  | .iput .. | .handOver .. => inferInstanceAs (Decidable (_ → _))
  | .ialloc .. | .scan .. | .ialloced .. | .idup .. | .ilock .. | .load .. | .free .. => .isTrue trivial

def smallDisk : Nat × Nat → Dinode
  | (1, 1) => { Dinode.fresh 1 with nlink := 1 }
  | (1, 2) => { Dinode.fresh 2 with nlink := 1 }
  | _ => .fresh 0

def unlinkRun : List (Act (Fin 2)) :=
  [.iget 0 1 2, .ilock 0 0, .test 0, .load 0, .modify 0 0 (.fresh 2), .iupdate 0 0, .iunlock 0 0, .iput 0 0] ++
    List.replicate 17 (.free 0)

/-- Another one then looks up the directory and leaves a second reference to it to the first, as `fork` does, which
reads the directory. -/
def lookupRun : List (Act (Fin 2)) :=
  unlinkRun ++ [.iget 1 1 1, .idup 1 1, .free 0, .handOver 1 0 1, .ilock 0 1, .test 0, .load 0]

theorem icache_coherent_lookupRun :
    ∃ s : State (Fin 2), run (step 200) (boot (Fin 2) smallDisk) lookupRun = some s ∧
      (Holds s 0 1 ∧ s.unsaved 1 = false ∧ (s.icache 1).key = (1, 1)) ∧
      (s.icache 1).toDinode = s.inodes (1, 1) := by
  have hrun : (run (step 200) (boot (Fin 2) smallDisk) lookupRun).any (fun s =>
      decide (Holds s 0 1 ∧ s.unsaved 1 = false ∧ (s.icache 1).key = (1, 1))) = true := by decide +kernel
  obtain ⟨s, hs, hh⟩ := (Option.any_eq_true _ _).mp hrun
  have hh := of_decide_eq_true hh
  have hok : Along (step 200) orderly (boot (Fin 2) smallDisk) lookupRun :=
    along_of_alongB (fun s a => decide (orderly s a)) (fun _ _ h => of_decide_eq_true h) (by decide +kernel)
  exact ⟨s, hs, hh, hh.2.2 ▸ (icache_coherent hok hs).1 0 1 hh.1 hh.2.1⟩

/-- The second process allocates inode 2 instead, after `iput` has freed it on disk and before it
clears `flags`. -/
def reuseRun : List (Act (Fin 2)) :=
  unlinkRun ++ [.ialloc 1 1 2, .scan 1, .scan 1, .ialloced 1, .ilock 1 0, .test 1]

/-- The new owner has locked the inode and sees type 0, where the inode block has the type it
asked for. -/
theorem stale_inode :
    ∃ s : State (Fin 2), run (step 200) (boot (Fin 2) smallDisk) reuseRun = some s ∧
      Holds s 1 0 ∧ s.unsaved 0 = false ∧ s.born 1 0 = some 2 ∧ (s.icache 0).type = 0 ∧
      (s.inodes (s.icache 0).key).type = 2 := by
  have hrun : (run (step 200) (boot (Fin 2) smallDisk) reuseRun).any (fun s =>
      decide (Holds s 1 0 ∧ s.unsaved 0 = false ∧ s.born 1 0 = some 2 ∧ (s.icache 0).type = 0 ∧
        (s.inodes (s.icache 0).key).type = 2)) = true := by decide +kernel
  obtain ⟨s, hs, hh⟩ := (Option.any_eq_true _ _).mp hrun
  exact ⟨s, hs, of_decide_eq_true hh⟩

end Xv6.Icache
