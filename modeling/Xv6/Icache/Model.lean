import Xv6.Fs.Inode
import Xv6.Lib.Runs

namespace Xv6.Icache

open Fs
open Function (update)

/-- The next thing the process inside the freeing branch of `iput` does: `itrunc` clears the
block pointers one by one, then the size, and saves; `iput` clears the type, saves, and at
last clears `flags` and drops the reference. -/
inductive FreeStage
  | addr (k : Nat)
  | saveTrunc
  | clearType
  | saveFree
  | finish
  deriving DecidableEq, Repr

/-- Where a process is. `scanning` and `claimed` are inside `ialloc`, before and after it marks
the disk inode; `locking` and `loading` are inside `ilock`, with the sleep lock, before and
after the test of `I_VALID`. -/
inductive Pc
  | idle
  | scanning (dev inum : Nat) (type : Int16)
  | claimed (dev inum : Nat) (type : Int16)
  | locking (i : Fin ninode)
  | loading (i : Fin ninode)
  | freeing (i : Fin ninode) (st : FreeStage)
  deriving DecidableEq

inductive Panic
  | ilock
  | noType
  | iunlock
  | igetNoInodes
  | iallocNoInodes
  deriving DecidableEq, Repr

/-- `inodes` is what the inode blocks hold in the buffer cache, by device and inode number.
`refs` says whose the references are, `unsaved` that the holder of the lock has changed the
entry since its last `iupdate`, and `born` which type a process has allocated an entry with;
the code keeps none of the three. -/
structure State (P : Type) where
  inodes : Nat × Nat → Dinode
  icache : ICache
  lock : Fin ninode → Option P
  pc : P → Pc
  panic : Option Panic
  refs : P → Fin ninode → Nat
  unsaved : Fin ninode → Bool
  born : P → Fin ninode → Option Int16

def boot (P : Type) (d : Nat × Nat → Dinode) : State P where
  inodes := d
  icache := ICache.empty
  lock := fun _ => none
  pc := fun _ => .idle
  panic := none
  refs := fun _ _ => 0
  unsaved := fun _ => false
  born := fun _ _ => none

variable {P : Type} [DecidableEq P]

namespace State

def goto (s : State P) (p : P) (pc : Pc) : State P := { s with pc := update s.pc p pc }

def setRefs (s : State P) (p : P) (i : Fin ninode) (n : Nat) : State P :=
  { s with refs := update s.refs p (update (s.refs p) i n) }

def setBorn (s : State P) (p : P) (i : Fin ninode) (type : Option Int16) : State P :=
  { s with born := update s.born p (update (s.born p) i type) }

omit [DecidableEq P] in
def setInode (s : State P) (i : Fin ninode) (ip : Inode) : State P :=
  { s with icache := update s.icache i ip }

omit [DecidableEq P] in
def save (s : State P) (i : Fin ninode) : State P :=
  { s with inodes := update s.inodes (s.icache i).key (s.icache i).toDinode }

end State

/-- One round of the loop of `ialloc`, under the lock of the inode block. -/
def scan (ninodes : Nat) (s : State P) (p : P) (dev inum : Nat) (type : Int16) : State P :=
  if inum < ninodes then
    if (s.inodes (dev, inum)).type = 0 then
      { s with inodes := update s.inodes (dev, inum) (.fresh type) }.goto p (.claimed dev inum type)
    else s.goto p (.scanning dev (inum + 1) type)
  else { s with panic := some .iallocNoInodes }

def getRef (s : State P) (p : P) (dev inum : Nat) (type : Option Int16) : State P :=
  match iget s.icache dev inum with
  | none => { s with panic := some .igetNoInodes }
  | some (i, c) =>
      ((({ s with icache := c } : State P).setRefs p i (s.refs p i + 1)).setBorn p i
        (if type.isSome then type else s.born p i)).goto p .idle

/-- The end of `ilock`: the inode is read under the lock of its block, `I_VALID` is set and the
type is checked. -/
def load (s : State P) (p : P) (i : Fin ninode) : State P :=
  let t := s.setInode i { s.icache i with toDinode := s.inodes (s.icache i).key, valid := true }
  if (s.inodes (s.icache i).key).type = 0 then { t with panic := some .noType } else t.goto p .idle

def iput (s : State P) (p : P) (i : Fin ninode) : State P :=
  if (s.icache i).ref = 1 ∧ (s.icache i).valid = true ∧ (s.icache i).nlink = 0 then
    (s.setBorn p i none).goto p (.freeing i (.addr 0))
  else
    ((s.setInode i { s.icache i with ref := (s.icache i).ref - 1 }).setRefs p i (s.refs p i - 1)).setBorn p i none

/-- A process leaves a reference to another one: the directory of a forked child, or an open file
that both have. The code does nothing then. -/
def handOver (s : State P) (p q : P) (i : Fin ninode) : State P :=
  ((s.setRefs p i (s.refs p i - 1)).setRefs q i (s.refs q i + 1)).setBorn p i none

def freeStep (s : State P) (p : P) (i : Fin ninode) : FreeStage → State P
  | .addr k =>
      if h : k < ndirect + 1 then
        (s.setInode i { s.icache i with addrs := update (s.icache i).addrs ⟨k, h⟩ 0 }).goto p
          (.freeing i (.addr (k + 1)))
      else (s.setInode i { s.icache i with size := 0 }).goto p (.freeing i .saveTrunc)
  | .saveTrunc => (s.save i).goto p (.freeing i .clearType)
  | .clearType => (s.setInode i { s.icache i with type := 0 }).goto p (.freeing i .saveFree)
  | .saveFree => (s.save i).goto p (.freeing i .finish)
  | .finish =>
      ((s.setInode i { s.icache i with valid := false, ref := (s.icache i).ref - 1 }).setRefs p i
        (s.refs p i - 1)).goto p .idle

inductive Act (P : Type)
  | ialloc (p : P) (dev : Nat) (type : Int16)
  | scan (p : P)
  | ialloced (p : P)
  | iget (p : P) (dev inum : Nat)
  | idup (p : P) (i : Fin ninode)
  | ilock (p : P) (i : Fin ninode)
  | test (p : P)
  | load (p : P)
  | modify (p : P) (i : Fin ninode) (d : Dinode)
  | iupdate (p : P) (i : Fin ninode)
  | iunlock (p : P) (i : Fin ninode)
  | iput (p : P) (i : Fin ninode)
  | handOver (p q : P) (i : Fin ninode)
  | free (p : P)

/-- A lookup asks `iget` only for an allocated inode that has a link, or that the process has a
reference to already; and no `ilock` tests `I_VALID` of an entry whose disk inode an `iput`
has freed but which it has not yet invalidated. A process changes and saves only inodes it has
locked, never changes their type, unlocks only what it has locked and saved, and keeps a reference
while it holds a lock. -/
def orderly (s : State P) : Act P → Prop
  | .iget p dev inum =>
      (s.inodes (dev, inum)).type ≠ 0 ∧
        ((s.inodes (dev, inum)).nlink ≠ 0 ∨ ∃ i, 0 < s.refs p i ∧ (s.icache i).key = (dev, inum))
  | .test p => ∀ i, s.pc p = .locking i → ∀ q, s.pc q ≠ .freeing i .finish
  | .modify p i d => s.lock i = some p ∧ d.type = (s.icache i).type
  | .iupdate p i => s.lock i = some p
  | .iunlock p i => s.lock i = some p ∧ s.unsaved i = false
  | .iput p i | .handOver p _ i => s.lock i = some p → 1 < s.refs p i
  | _ => True

/-- One step of a process, which calls `idup`, `ilock` and `iput` on inodes it has a reference to. -/
def step (ninodes : Nat) (s : State P) (a : Act P) : Option (State P) :=
  if s.panic.isSome then none else
  match a with
  | .ialloc p dev type =>
      if s.pc p = .idle ∧ type ≠ 0 then some (s.goto p (.scanning dev 1 type)) else none
  | .scan p => match s.pc p with
    | .scanning dev inum type => some (scan ninodes s p dev inum type)
    | _ => none
  | .ialloced p => match s.pc p with
    | .claimed dev inum type => some (getRef s p dev inum (some type))
    | _ => none
  | .iget p dev inum => if s.pc p = .idle then some (getRef s p dev inum none) else none
  | .idup p i =>
      if s.pc p = .idle ∧ 0 < s.refs p i then
        some ({ s with icache := idup s.icache i }.setRefs p i (s.refs p i + 1))
      else none
  | .ilock p i =>
      if s.pc p = .idle ∧ 0 < s.refs p i ∧ s.lock i = none then
        if (s.icache i).ref < 1 then some { s with panic := some .ilock }
        else some ({ s with lock := update s.lock i (some p) }.goto p (.locking i))
      else none
  | .test p => match s.pc p with
    | .locking i => some (s.goto p (if (s.icache i).valid then .idle else .loading i))
    | _ => none
  | .load p => match s.pc p with
    | .loading i => some (load s p i)
    | _ => none
  | .modify p i d =>
      if s.pc p = .idle then
        some { s.setInode i { s.icache i with toDinode := d } with
          unsaved := update s.unsaved i true }
      else none
  | .iupdate p i =>
      if s.pc p = .idle then some { s.save i with unsaved := update s.unsaved i false } else none
  | .iunlock p i =>
      -- `holdingsleep` asks only whether the lock is taken, not by whom
      if s.pc p = .idle then
        if s.lock i = none ∨ (s.icache i).ref < 1 then some { s with panic := some .iunlock }
        else some { s with lock := update s.lock i none }
      else none
  | .iput p i => if s.pc p = .idle ∧ 0 < s.refs p i then some (iput s p i) else none
  | .handOver p q i => if s.pc p = .idle ∧ 0 < s.refs p i ∧ p ≠ q then some (handOver s p q i) else none
  | .free p => match s.pc p with
    | .freeing i st => some (freeStep s p i st)
    | _ => none

/-- What an orderly step can be, with the guards under which it is taken. -/
inductive Step (ninodes : Nat) (s : State P) : Act P → State P → Prop
  | ialloc (p dev type) (hpc : s.pc p = .idle) (htype : type ≠ 0) :
      Step ninodes s (.ialloc p dev type) (s.goto p (.scanning dev 1 type))
  | claim (p dev inum type) (hpc : s.pc p = .scanning dev inum type) (hlt : inum < ninodes)
      (hfree : (s.inodes (dev, inum)).type = 0) :
      Step ninodes s (.scan p)
        ({ s with inodes := update s.inodes (dev, inum) (.fresh type) }.goto p (.claimed dev inum type))
  | pass (p dev inum type) (hpc : s.pc p = .scanning dev inum type) (hlt : inum < ninodes)
      (hused : (s.inodes (dev, inum)).type ≠ 0) :
      Step ninodes s (.scan p) (s.goto p (.scanning dev (inum + 1) type))
  | iallocNone (p dev inum type) (hpc : s.pc p = .scanning dev inum type) :
      Step ninodes s (.scan p) { s with panic := some .iallocNoInodes }
  | ialloced (p dev inum type i c) (hpc : s.pc p = .claimed dev inum type)
      (hget : iget s.icache dev inum = some (i, c)) :
      Step ninodes s (.ialloced p)
        (((({ s with icache := c } : State P).setRefs p i (s.refs p i + 1)).setBorn p i (some type)).goto p .idle)
  | iallocedNone (p dev inum type) (hpc : s.pc p = .claimed dev inum type) :
      Step ninodes s (.ialloced p) { s with panic := some .igetNoInodes }
  | iget (p dev inum i c) (hpc : s.pc p = .idle) (hget : iget s.icache dev inum = some (i, c)) :
      Step ninodes s (.iget p dev inum)
        (((({ s with icache := c } : State P).setRefs p i (s.refs p i + 1)).setBorn p i (s.born p i)).goto p .idle)
  | igetNone (p dev inum) (hpc : s.pc p = .idle) :
      Step ninodes s (.iget p dev inum) { s with panic := some .igetNoInodes }
  | idup (p i) (hpc : s.pc p = .idle) (href : 0 < s.refs p i) :
      Step ninodes s (.idup p i) ({ s with icache := idup s.icache i }.setRefs p i (s.refs p i + 1))
  | ilock (p i) (hpc : s.pc p = .idle) (href : 0 < s.refs p i) (hlock : s.lock i = none) :
      Step ninodes s (.ilock p i) ({ s with lock := update s.lock i (some p) }.goto p (.locking i))
  | ilockPanic (p i) (hpc : s.pc p = .idle) :
      Step ninodes s (.ilock p i) { s with panic := some .ilock }
  | warm (p i) (hpc : s.pc p = .locking i) (hvalid : (s.icache i).valid = true) :
      Step ninodes s (.test p) (s.goto p .idle)
  | cold (p i) (hpc : s.pc p = .locking i) (hvalid : (s.icache i).valid = false) :
      Step ninodes s (.test p) (s.goto p (.loading i))
  | load (p i) (hpc : s.pc p = .loading i) (htype : (s.inodes (s.icache i).key).type ≠ 0) :
      Step ninodes s (.load p)
        ((s.setInode i { s.icache i with toDinode := s.inodes (s.icache i).key, valid := true }).goto p .idle)
  | noType (p i) (hpc : s.pc p = .loading i) (htype : (s.inodes (s.icache i).key).type = 0) :
      Step ninodes s (.load p) (load s p i)
  | modify (p i d) (hpc : s.pc p = .idle) (hlock : s.lock i = some p) (htype : d.type = (s.icache i).type) :
      Step ninodes s (.modify p i d)
        { s.setInode i { s.icache i with toDinode := d } with unsaved := update s.unsaved i true }
  | iupdate (p i) (hpc : s.pc p = .idle) (hlock : s.lock i = some p) :
      Step ninodes s (.iupdate p i) { s.save i with unsaved := update s.unsaved i false }
  | iunlock (p i) (hpc : s.pc p = .idle) (hlock : s.lock i = some p) (hsaved : s.unsaved i = false) :
      Step ninodes s (.iunlock p i) { s with lock := update s.lock i none }
  | iunlockPanic (p i) (hpc : s.pc p = .idle) :
      Step ninodes s (.iunlock p i) { s with panic := some .iunlock }
  | drop (p i) (hpc : s.pc p = .idle) (href : 0 < s.refs p i) (hlock : s.lock i = some p → 1 < s.refs p i) :
      Step ninodes s (.iput p i)
        (((s.setInode i { s.icache i with ref := (s.icache i).ref - 1 }).setRefs p i
          (s.refs p i - 1)).setBorn p i none)
  | last (p i) (hpc : s.pc p = .idle) (href : 0 < s.refs p i) (hlock : s.lock i = some p → 1 < s.refs p i)
      (hone : (s.icache i).ref = 1) (hvalid : (s.icache i).valid = true) (hlink : (s.icache i).nlink = 0) :
      Step ninodes s (.iput p i) ((s.setBorn p i none).goto p (.freeing i (.addr 0)))
  | handOver (p q i) (hpc : s.pc p = .idle) (href : 0 < s.refs p i) (hne : p ≠ q)
      (hlock : s.lock i = some p → 1 < s.refs p i) :
      Step ninodes s (.handOver p q i) (handOver s p q i)
  | addr (p i k) (hpc : s.pc p = .freeing i (.addr k)) (hk : k < ndirect + 1) :
      Step ninodes s (.free p)
        ((s.setInode i { s.icache i with addrs := update (s.icache i).addrs ⟨k, hk⟩ 0 }).goto p
          (.freeing i (.addr (k + 1))))
  | size (p i k) (hpc : s.pc p = .freeing i (.addr k)) :
      Step ninodes s (.free p) ((s.setInode i { s.icache i with size := 0 }).goto p (.freeing i .saveTrunc))
  | saveTrunc (p i) (hpc : s.pc p = .freeing i .saveTrunc) :
      Step ninodes s (.free p) ((s.save i).goto p (.freeing i .clearType))
  | clearType (p i) (hpc : s.pc p = .freeing i .clearType) :
      Step ninodes s (.free p) ((s.setInode i { s.icache i with type := 0 }).goto p (.freeing i .saveFree))
  | saveFree (p i) (hpc : s.pc p = .freeing i .saveFree) :
      Step ninodes s (.free p) ((s.save i).goto p (.freeing i .finish))
  | finish (p i) (hpc : s.pc p = .freeing i .finish) :
      Step ninodes s (.free p) (freeStep s p i .finish)

theorem step_cases {ninodes : Nat} {s t : State P} {a : Act P} (hok : orderly s a)
    (h : step ninodes s a = some t) : Step ninodes s a t := by
  unfold step at h
  split at h
  · simp at h
  cases a with
  | ialloc p dev type =>
      simp only at h
      split at h
      next hg => exact (Option.some.inj h) ▸ .ialloc p dev type hg.1 hg.2
      · simp at h
  | scan p =>
      simp only at h
      split at h
      next dev inum type hpc =>
        rw [← Option.some.inj h, scan]
        split
        next hlt =>
          split
          next hfree => exact .claim p dev inum type hpc hlt hfree
          next hused => exact .pass p dev inum type hpc hlt hused
        · exact .iallocNone p dev inum type hpc
      · simp at h
  | ialloced p =>
      simp only at h
      split at h
      next dev inum type hpc =>
        rw [← Option.some.inj h, getRef]
        split
        · exact .iallocedNone p dev inum type hpc
        next i c hget => exact .ialloced p dev inum type i c hpc hget
      · simp at h
  | iget p dev inum =>
      simp only at h
      split at h
      next hpc =>
        rw [← Option.some.inj h, getRef]
        split
        · exact .igetNone p dev inum hpc
        next i c hget => exact .iget p dev inum i c hpc hget
      · simp at h
  | idup p i =>
      simp only at h
      split at h
      next hg => exact (Option.some.inj h) ▸ .idup p i hg.1 hg.2
      · simp at h
  | ilock p i =>
      simp only at h
      split at h
      next hg =>
        split at h
        · exact (Option.some.inj h) ▸ .ilockPanic p i hg.1
        · exact (Option.some.inj h) ▸ .ilock p i hg.1 hg.2.1 hg.2.2
      · simp at h
  | test p =>
      simp only at h
      split at h
      next i hpc =>
        rw [← Option.some.inj h]
        split
        next hv => exact .warm p i hpc hv
        next hv => exact .cold p i hpc (by simpa using hv)
      · simp at h
  | load p =>
      simp only at h
      split at h
      next i hpc =>
        rw [← Option.some.inj h]
        by_cases ht : (s.inodes (s.icache i).key).type = 0
        · exact .noType p i hpc ht
        · rw [load, if_neg ht]
          exact .load p i hpc ht
      · simp at h
  | modify p i d =>
      simp only at h
      split at h
      next hpc => exact (Option.some.inj h) ▸ .modify p i d hpc hok.1 hok.2
      · simp at h
  | iupdate p i =>
      simp only at h
      split at h
      next hpc => exact (Option.some.inj h) ▸ .iupdate p i hpc hok
      · simp at h
  | iunlock p i =>
      simp only at h
      split at h
      next hpc =>
        split at h
        · exact (Option.some.inj h) ▸ .iunlockPanic p i hpc
        · exact (Option.some.inj h) ▸ .iunlock p i hpc hok.1 hok.2
      · simp at h
  | iput p i =>
      simp only at h
      split at h
      next hg =>
        rw [← Option.some.inj h, iput]
        split
        next hl => exact .last p i hg.1 hg.2 hok hl.1 hl.2.1 hl.2.2
        · exact .drop p i hg.1 hg.2 hok
      · simp at h
  | handOver p q i =>
      simp only at h
      split at h
      next hg => exact (Option.some.inj h) ▸ .handOver p q i hg.1 hg.2.1 hg.2.2 hok
      · simp at h
  | free p =>
      simp only at h
      split at h
      next i st hpc =>
        rw [← Option.some.inj h]
        cases st with
        | addr k =>
            rw [freeStep]
            split
            next hk => exact .addr p i k hpc hk
            · exact .size p i k hpc
        | saveTrunc => exact .saveTrunc p i hpc
        | clearType => exact .clearType p i hpc
        | saveFree => exact .saveFree p i hpc
        | finish => exact .finish p i hpc
      · simp at h

end Xv6.Icache
