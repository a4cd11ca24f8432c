import Xv6.Icache.Model
import Xv6.Lib.UpdateSum

namespace Xv6.Icache

open Fs Lib.UpdateSum
open Function (update update_of_ne update_self)

inductive Use
  | none
  | locking
  | loading
  | freeing (st : FreeStage)
  deriving DecidableEq

def Pc.use (i : Fin ninode) : Pc → Use
  | .locking j => if j = i then .locking else .none
  | .loading j => if j = i then .loading else .none
  | .freeing j st => if j = i then .freeing st else .none
  | _ => .none

theorem Pc.use_eq_freeing {i : Fin ninode} {pc : Pc} {st : FreeStage} :
    pc.use i = .freeing st ↔ pc = .freeing i st := by
  cases pc with
  | locking j => by_cases h : j = i <;> simp [Pc.use, h]
  | loading j => by_cases h : j = i <;> simp [Pc.use, h]
  | freeing j st' => by_cases h : j = i <;> simp [Pc.use, h]
  | _ => simp [Pc.use]

/-- The part of the state that concerns one entry: the entry, the disk inode it stands for,
its lock, and each process's references to it and doings with it. -/
structure View (P : Type) where
  ip : Inode
  disk : Dinode
  lock : Option P
  unsaved : Bool
  refs : P → Nat
  use : P → Use

/-- The life of an entry. In `shut` its lock is free; in `finishing` a process has freed the disk
inode and still has to clear `flags`, and another one may already have the lock. -/
inductive Phase (P : Type)
  | unused
  | shut
  | entering (p : P) (u : Use)
  | held (p : P)
  | freeing (q : P) (st : FreeStage)
  | finishing (q : P) (l : Option P)

variable {P : Type}

def Phase.lock : Phase P → Option P
  | .entering p _ | .held p => some p
  | .finishing _ l => l
  | _ => none

def Phase.Facts : Phase P → View P → Prop
  | .unused, v => v.ip.ref = 0
  | .shut, v => 0 < v.ip.ref ∧ v.disk.type ≠ 0 ∧ (v.ip.valid = true → v.ip.toDinode = v.disk)
  | .entering p u, v =>
      0 < v.refs p ∧ v.disk.type ≠ 0 ∧ (v.ip.valid = true → v.ip.toDinode = v.disk) ∧
        (u = .locking ∨ u = .loading ∧ v.ip.valid = false)
  | .held p, v =>
      0 < v.refs p ∧ v.disk.type ≠ 0 ∧ v.ip.valid = true ∧ v.ip.type = v.disk.type ∧
        (v.unsaved = false → v.ip.toDinode = v.disk)
  | .freeing q st, v =>
      0 < v.refs q ∧ v.ip.ref = 1 ∧ v.disk.type ≠ 0 ∧ v.disk.nlink = 0 ∧ v.ip.nlink = 0 ∧ st ≠ .finish ∧
        v.ip.type = if st = .saveFree then 0 else v.disk.type
  | .finishing q l, v =>
      0 < v.refs q ∧ (∀ p, l = some p → p ≠ q ∧ 0 < v.refs p) ∧ (v.disk.type = 0 → v.ip.ref = 1)

variable [DecidableEq P]

def Phase.use : Phase P → P → Use
  | .entering p u, r => if r = p then u else .none
  | .freeing q st, r => if r = q then .freeing st else .none
  | .finishing q l, r => if r = q then .freeing .finish else if l = some r then .locking else .none
  | _, _ => .none

variable [Fintype P]

structure Fits (ph : Phase P) (v : View P) : Prop where
  count : v.ip.ref = ∑ p, v.refs p
  lock : v.lock = ph.lock
  use : ∀ r, v.use r = ph.use r
  saved : v.unsaved = true → ∃ p, ph = .held p
  facts : ph.Facts v

def EntryOk (v : View P) : Prop := ∃ ph, Fits ph v

variable {v : View P} {ph : Phase P} {p q : P}

theorem Fits.refs_le (h : Fits ph v) (p : P) : v.refs p ≤ v.ip.ref := by
  rw [h.count]
  exact le_sum id v.refs p

theorem Fits.of_unused (h : Fits ph v) (hunused : v.ip.ref = 0) : ph = .unused := by
  have hrefs (r) : v.refs r = 0 := by have := h.refs_le r; omega
  have hf := h.facts
  cases ph with
  | unused => rfl
  | shut => exact absurd hf.1 (by omega)
  | entering r u | held r | freeing r st | finishing r l => exact absurd hf.1 (by rw [hrefs]; omega)

theorem Fits.of_used (h : Fits ph v) (hused : 0 < v.ip.ref) : ph ≠ .unused := by
  rintro rfl
  exact absurd h.facts (Nat.ne_of_gt hused)

theorem Fits.use_update {ph' : Phase P} {u : Use} (h : Fits ph v) (hp : ph'.use p = u)
    (hne : ∀ r, r ≠ p → ph.use r = ph'.use r) (r : P) : update v.use p u r = ph'.use r := by
  by_cases hr : r = p
  · rw [hr, update_self, hp]
  · rw [update_of_ne hr, h.use, hne r hr]

theorem Fits.eq_of_ref_one (h : Fits ph v) (hone : v.ip.ref = 1) (hp : 0 < v.refs p) (hq : 0 < v.refs q) :
    p = q := by
  by_contra hpq
  have hle := add_le_sum id v.refs hpq
  have hcount := h.count
  simp only [id_eq] at hle
  omega

theorem count_update (h : v.ip.ref = ∑ p, v.refs p) (p : P) {m n : Nat} (hn : n + v.refs p = v.ip.ref + m) :
    n = ∑ r, update v.refs p m r := by
  have hsum := sum_update id v.refs p m
  simp only [id_eq] at hsum
  omega

theorem Fits.ne_freeing {st : FreeStage} (h : Fits (.freeing q st) v) (hidle : v.use p = .none) : p ≠ q := by
  rintro rfl
  have hp := h.use p
  simp [hidle, Phase.use] at hp

theorem Fits.ne_finishing {l : Option P} (h : Fits (.finishing q l) v) (hidle : v.use p = .none) : p ≠ q := by
  rintro rfl
  have hp := h.use p
  simp [hidle, Phase.use] at hp

theorem Fits.of_locking (h : Fits ph v) (hp : v.use p = .locking) :
    ph = .entering p .locking ∨ ∃ q, ph = .finishing q (some p) := by
  have hu := h.use p
  rw [hp] at hu
  cases ph with
  | entering r u =>
      by_cases hr : p = r
      · subst hr
        simp only [Phase.use, if_true] at hu
        exact .inl (by rw [hu])
      · simp [Phase.use, hr] at hu
  | finishing r l =>
      by_cases hr : p = r
      · simp [Phase.use, hr] at hu
      · by_cases hl : l = some p
        · exact .inr ⟨r, by rw [hl]⟩
        · simp [Phase.use, hr, hl] at hu
  | freeing r st => by_cases hr : p = r <;> simp [Phase.use, hr] at hu
  | _ => cases hu

theorem Fits.of_loading (h : Fits ph v) (hp : v.use p = .loading) : ph = .entering p .loading := by
  have hu := h.use p
  rw [hp] at hu
  cases ph with
  | entering r u =>
      by_cases hr : p = r
      · subst hr
        simp only [Phase.use, if_true] at hu
        rw [hu]
      · simp [Phase.use, hr] at hu
  | finishing r l =>
      by_cases hr : p = r
      · simp [Phase.use, hr] at hu
      · by_cases hl : l = some p <;> simp [Phase.use, hr, hl] at hu
  | freeing r st => by_cases hr : p = r <;> simp [Phase.use, hr] at hu
  | _ => cases hu

theorem Fits.of_freeing {st : FreeStage} (h : Fits ph v) (hp : v.use p = .freeing st) :
    ph = .freeing p st ∨ st = .finish ∧ ∃ l, ph = .finishing p l := by
  have hu := h.use p
  have hf := h.facts
  rw [hp] at hu
  cases ph with
  | entering r u =>
      by_cases hr : p = r
      · simp only [Phase.use, hr, if_true] at hu
        rcases hf.2.2.2 with h' | h' <;> simp [h'] at hu
      · simp [Phase.use, hr] at hu
  | finishing r l =>
      by_cases hr : p = r
      · subst hr
        simp only [Phase.use, if_true, Use.freeing.injEq] at hu
        exact .inr ⟨hu, l, rfl⟩
      · by_cases hl : l = some p <;> simp [Phase.use, hr, hl] at hu
  | freeing r st' =>
      by_cases hr : p = r
      · subst hr
        simp only [Phase.use, if_true, Use.freeing.injEq] at hu
        exact .inl (by rw [hu])
      · simp [Phase.use, hr] at hu
  | _ => cases hu

theorem Fits.of_held (h : Fits ph v) (hidle : v.use p = .none) (hlock : v.lock = some p) : ph = .held p := by
  have hu := h.use p
  have hl := h.lock
  rw [hidle] at hu
  rw [hlock] at hl
  cases ph with
  | entering r u =>
      obtain rfl := Option.some.inj hl
      simp only [Phase.use, if_true] at hu
      rcases h.facts.2.2.2 with h' | h' <;> simp [h'] at hu
  | held r => rw [Option.some.inj hl]
  | finishing r l =>
      have hne := h.ne_finishing hidle
      have hl' : l = some p := hl.symm
      simp [Phase.use, hne, hl'] at hu
  | _ => cases hl

theorem EntryOk.get (h : EntryOk v) (hidle : v.use p = .none) (hused : 0 < v.ip.ref)
    (hok : 0 < v.refs p ∨ v.disk.type ≠ 0 ∧ ∀ q st, v.use q = .freeing st → st = .finish) :
    EntryOk { v with
      ip := { v.ip with ref := v.ip.ref + 1 }
      refs := update v.refs p (v.refs p + 1) } := by
  obtain ⟨ph, h⟩ := h
  have hcount := count_update h.count p (m := v.refs p + 1) (n := v.ip.ref + 1) (by omega)
  have hmono (r) : v.refs r ≤ update v.refs p (v.refs p + 1) r := by
    by_cases hr : r = p
    · subst hr; simp
    · simp [hr]
  refine ⟨ph, hcount, h.lock, h.use, h.saved, ?_⟩
  have hf := h.facts
  cases ph with
  | unused => exact absurd rfl (h.of_used (by omega))
  | shut => exact ⟨Nat.succ_pos _, hf.2⟩
  | entering r u | held r => exact ⟨lt_of_lt_of_le hf.1 (hmono r), hf.2⟩
  | freeing r st =>
      have hr : v.use r = .freeing st := by rw [h.use r]; simp [Phase.use]
      rcases hok with hp | ⟨-, hst⟩
      · exact absurd (h.eq_of_ref_one hf.2.1 hp hf.1) (h.ne_freeing hidle)
      · exact absurd (hst r st hr) hf.2.2.2.2.2.1
  | finishing r l =>
      refine ⟨lt_of_lt_of_le hf.1 (hmono r), fun x hx => ?_, fun h0 => ?_⟩
      · exact ⟨(hf.2.1 x hx).1, lt_of_lt_of_le (hf.2.1 x hx).2 (hmono x)⟩
      · rcases hok with hp | ⟨hne, -⟩
        · exact absurd (h.eq_of_ref_one (hf.2.2 h0) hp hf.1) (h.ne_finishing hidle)
        · exact absurd h0 hne

theorem EntryOk.recycle (h : EntryOk v) (hunused : v.ip.ref = 0) (dev inum : Nat) {d : Dinode} (hd : d.type ≠ 0) :
    EntryOk { v with
      ip := { v.ip with dev := dev, inum := inum, ref := 1, valid := false }
      disk := d
      refs := update v.refs p (v.refs p + 1) } := by
  obtain ⟨ph, h⟩ := h
  obtain rfl := h.of_unused hunused
  have hcount := count_update h.count p (m := v.refs p + 1) (n := 1) (by rw [hunused]; omega)
  exact ⟨.shut, hcount, h.lock, h.use, by simpa using h.saved, Nat.one_pos, hd, by simp⟩

theorem EntryOk.enter (h : EntryOk v) (hidle : v.use p = .none) (hlock : v.lock = none) (href : 0 < v.refs p) :
    EntryOk { v with lock := some p, use := update v.use p .locking } := by
  obtain ⟨ph, h⟩ := h
  have hf := h.facts
  have hle := h.refs_le p
  have hl := h.lock
  rw [hlock] at hl
  cases ph with
  | unused => exact absurd rfl (h.of_used (by omega))
  | shut =>
      exact ⟨.entering p .locking, h.count, rfl, h.use_update (if_pos rfl) fun r hr => (if_neg hr).symm,
        by simpa using h.saved, href, hf.2.1, hf.2.2, .inl rfl⟩
  | entering r u | held r => cases hl
  | freeing r st => exact absurd (h.eq_of_ref_one hf.2.1 href hf.1) (h.ne_freeing hidle)
  | finishing r l =>
      have hrp := h.ne_finishing hidle
      have hnone : l = none := hl.symm
      subst hnone
      refine ⟨.finishing r (some p), h.count, rfl, fun x => ?_, by simpa using h.saved, hf.1, ?_, hf.2.2⟩
      · by_cases hx : x = p
        · subst hx; simp [Phase.use, hrp]
        · have := h.use x
          simp only [Phase.use] at this
          simp [Phase.use, hx, Ne.symm hx, this]
      · intro x hx
        cases hx
        exact ⟨hrp, href⟩

theorem EntryOk.warm (h : EntryOk v) (hp : v.use p = .locking) (hvalid : v.ip.valid = true)
    (hok : ∀ q, v.use q ≠ .freeing .finish) : EntryOk { v with use := update v.use p .none } := by
  obtain ⟨ph, h⟩ := h
  rcases h.of_locking hp with rfl | ⟨q, rfl⟩
  · obtain ⟨href, hd, hcopy, -⟩ := h.facts
    refine ⟨.held p, h.count, h.lock, h.use_update rfl ?_, fun _ => ⟨p, rfl⟩, href, hd, hvalid, ?_,
      fun _ => hcopy hvalid⟩
    · exact fun r hr => if_neg hr
    · rw [← hcopy hvalid]
  · exact absurd (by rw [h.use q]; simp [Phase.use]) (hok q)

theorem EntryOk.cold (h : EntryOk v) (hp : v.use p = .locking) (hvalid : v.ip.valid = false)
    (hok : ∀ q, v.use q ≠ .freeing .finish) : EntryOk { v with use := update v.use p .loading } := by
  obtain ⟨ph, h⟩ := h
  rcases h.of_locking hp with rfl | ⟨q, rfl⟩
  · obtain ⟨href, hd, hcopy, -⟩ := h.facts
    refine ⟨.entering p .loading, h.count, h.lock, h.use_update (if_pos rfl) fun r hr => ?_, by simpa using h.saved,
      href, hd, hcopy, .inr ⟨rfl, hvalid⟩⟩
    exact (if_neg hr).trans (if_neg hr).symm
  · exact absurd (by rw [h.use q]; simp [Phase.use]) (hok q)

theorem EntryOk.load (h : EntryOk v) (hp : v.use p = .loading) :
    EntryOk { v with
      ip := { v.ip with toDinode := v.disk, valid := true }
      use := update v.use p .none } := by
  obtain ⟨ph, h⟩ := h
  obtain rfl := h.of_loading hp
  obtain ⟨href, hd, -, -⟩ := h.facts
  exact ⟨.held p, h.count, h.lock, h.use_update rfl fun r hr => if_neg hr, fun _ => ⟨p, rfl⟩, href, hd, rfl, rfl,
    fun _ => rfl⟩

theorem EntryOk.modify (h : EntryOk v) (hidle : v.use p = .none) (hlock : v.lock = some p) {d : Dinode}
    (hd : d.type = v.ip.type) :
    EntryOk { v with ip := { v.ip with toDinode := d }, unsaved := true } := by
  obtain ⟨ph, h⟩ := h
  obtain rfl := h.of_held hidle hlock
  obtain ⟨href, htype, hvalid, hcopy, -⟩ := h.facts
  exact ⟨.held p, h.count, h.lock, h.use, fun _ => ⟨p, rfl⟩, href, htype, hvalid, hd.trans hcopy, by simp⟩

theorem EntryOk.save (h : EntryOk v) (hidle : v.use p = .none) (hlock : v.lock = some p) :
    EntryOk { v with disk := v.ip.toDinode, unsaved := false } := by
  obtain ⟨ph, h⟩ := h
  obtain rfl := h.of_held hidle hlock
  obtain ⟨href, htype, hvalid, hcopy, -⟩ := h.facts
  exact ⟨.held p, h.count, h.lock, h.use, by simp, href, hcopy ▸ htype, hvalid, rfl, fun _ => rfl⟩

theorem EntryOk.unlock (h : EntryOk v) (hidle : v.use p = .none) (hlock : v.lock = some p)
    (hsaved : v.unsaved = false) : EntryOk { v with lock := none } := by
  obtain ⟨ph, h⟩ := h
  obtain rfl := h.of_held hidle hlock
  obtain ⟨href, htype, hvalid, -, hcopy⟩ := h.facts
  have hpos : 0 < v.ip.ref := lt_of_lt_of_le href (h.refs_le p)
  exact ⟨.shut, h.count, rfl, h.use, by simp [hsaved], hpos, htype, fun _ => hcopy hsaved⟩

theorem EntryOk.drop (h : EntryOk v) (hidle : v.use p = .none) (href : 0 < v.refs p)
    (hlock : v.lock = some p → 1 < v.refs p) :
    EntryOk { v with
      ip := { v.ip with ref := v.ip.ref - 1 }
      refs := update v.refs p (v.refs p - 1) } := by
  obtain ⟨ph, h⟩ := h
  have hle := h.refs_le p
  have hcount := count_update h.count p (m := v.refs p - 1) (n := v.ip.ref - 1) (by omega)
  have hkeep (r) (hr : 0 < v.refs r) (hrp : r = p → 1 < v.refs p) :
      0 < update v.refs p (v.refs p - 1) r := by
    by_cases hr' : r = p
    · subst hr'
      have := hrp rfl
      simp only [update_self]
      omega
    · simpa [hr'] using hr
  have hf := h.facts
  cases ph with
  | unused => exact absurd rfl (h.of_used (by omega))
  | shut =>
      by_cases hone : v.ip.ref = 1
      · exact ⟨.unused, hcount, h.lock, h.use, by simpa using h.saved, by simp [Phase.Facts, hone]⟩
      · exact ⟨.shut, hcount, h.lock, h.use, h.saved, show 0 < v.ip.ref - 1 by omega, hf.2⟩
  | entering r u | held r =>
      exact ⟨_, hcount, h.lock, h.use, h.saved, hkeep r hf.1 (fun e => hlock (e ▸ h.lock)), hf.2⟩
  | freeing r st => exact absurd (h.eq_of_ref_one hf.2.1 href hf.1) (h.ne_freeing hidle)
  | finishing r l =>
      have hne := h.ne_finishing hidle
      refine ⟨_, hcount, h.lock, h.use, h.saved, hkeep r hf.1 (fun e => absurd e.symm hne), fun x hx =>
        ?_, fun h0 => ?_⟩
      · have hx' := hf.2.1 x hx
        exact ⟨hx'.1, hkeep x hx'.2 (fun e => hlock (by rw [h.lock, ← e]; exact hx))⟩
      · exact absurd (h.eq_of_ref_one (hf.2.2 h0) href hf.1) hne

theorem EntryOk.handOver (h : EntryOk v) (hidle : v.use p = .none) (href : 0 < v.refs p) (hne : p ≠ q)
    (hlock : v.lock = some p → 1 < v.refs p) :
    EntryOk { v with refs := update (update v.refs p (v.refs p - 1)) q (v.refs q + 1) } := by
  obtain ⟨ph, h⟩ := h
  have hkeep (r) (hr : 0 < v.refs r) (hrp : r = p → 1 < v.refs p) :
      0 < update (update v.refs p (v.refs p - 1)) q (v.refs q + 1) r := by
    by_cases hrq : r = q
    · subst hrq
      simp
    by_cases hr' : r = p
    · subst hr'
      have := hrp rfl
      rw [update_of_ne hrq, update_self]
      omega
    · rwa [update_of_ne hrq, update_of_ne hr']
  have hcount : v.ip.ref = ∑ r, update (update v.refs p (v.refs p - 1)) q (v.refs q + 1) r := by
    have hp := sum_update id v.refs p (v.refs p - 1)
    have hq := sum_update id (update v.refs p (v.refs p - 1)) q (v.refs q + 1)
    have := h.count
    rw [update_of_ne hne.symm] at hq
    simp only [id_eq] at hp hq
    omega
  have hf := h.facts
  refine ⟨ph, hcount, h.lock, h.use, h.saved, ?_⟩
  cases ph with
  | unused | shut => exact hf
  | entering r u | held r => exact ⟨hkeep r hf.1 (fun e => hlock (e ▸ h.lock)), hf.2⟩
  | freeing r st => exact absurd (h.eq_of_ref_one hf.2.1 href hf.1) (h.ne_freeing hidle)
  | finishing r l =>
      refine ⟨hkeep r hf.1 (fun e => absurd e.symm (h.ne_finishing hidle)), fun x hx => ?_, hf.2.2⟩
      have hx' := hf.2.1 x hx
      exact ⟨hx'.1, hkeep x hx'.2 (fun e => hlock (by rw [h.lock, ← e]; exact hx))⟩

theorem EntryOk.last (h : EntryOk v) (hidle : v.use p = .none) (href : 0 < v.refs p)
    (hlock : v.lock = some p → 1 < v.refs p) (hone : v.ip.ref = 1) (hvalid : v.ip.valid = true)
    (hlink : v.ip.nlink = 0) : EntryOk { v with use := update v.use p (.freeing (.addr 0)) } := by
  obtain ⟨ph, h⟩ := h
  have hle := h.refs_le p
  have hf := h.facts
  cases ph with
  | unused => exact absurd rfl (h.of_used (by omega))
  | shut =>
      have hcopy := hf.2.2 hvalid
      exact ⟨.freeing p (.addr 0), h.count, h.lock, h.use_update (if_pos rfl) fun r hr => (if_neg hr).symm,
        by simpa using h.saved, href, hone, hf.2.1, by rw [← hcopy, hlink], hlink, by simp, by simp [hcopy]⟩
  | entering r u | held r =>
      obtain rfl := h.eq_of_ref_one hone href hf.1
      exact absurd (hlock h.lock) (by omega)
  | freeing r st => exact absurd (h.eq_of_ref_one hone href hf.1) (h.ne_freeing hidle)
  | finishing r l => exact absurd (h.eq_of_ref_one hone href hf.1) (h.ne_finishing hidle)

theorem EntryOk.freeing {st st' : FreeStage} (h : EntryOk v) (hp : v.use p = .freeing st) (hst : st ≠ .finish)
    (hst' : st' ≠ .finish) {d d' : Dinode} (hlink : d'.nlink = v.ip.nlink)
    (htype : d'.type = if st' = .saveFree then 0 else v.ip.type)
    (hd : d = v.disk ∨ d = v.ip.toDinode) (hbefore : st ≠ .saveFree) :
    EntryOk { v with
      ip := { v.ip with toDinode := d' }
      disk := d
      use := update v.use p (.freeing st') } := by
  obtain ⟨ph, h⟩ := h
  rcases h.of_freeing hp with rfl | ⟨rfl, -⟩
  · obtain ⟨href, hone, hdisk, hlink0, hlink1, -, hcopy⟩ := h.facts
    rw [if_neg hbefore] at hcopy
    have hdt : d.type = v.disk.type := by rcases hd with rfl | rfl <;> simp [hcopy]
    have hdl : d.nlink = 0 := by rcases hd with rfl | rfl <;> simp [hlink0, hlink1]
    refine ⟨.freeing p st', h.count, h.lock, h.use_update (if_pos rfl) fun r hr => ?_, by simpa using h.saved, href,
      hone, hdt ▸ hdisk, hdl, hlink.trans hlink1, hst', ?_⟩
    · exact (if_neg hr).trans (if_neg hr).symm
    · simp only [htype, hdt, hcopy]
  · exact absurd rfl hst

theorem EntryOk.saveFree (h : EntryOk v) (hp : v.use p = .freeing .saveFree) :
    EntryOk { v with disk := v.ip.toDinode, use := update v.use p (.freeing .finish) } := by
  obtain ⟨ph, h⟩ := h
  rcases h.of_freeing hp with rfl | ⟨hst, -⟩
  · obtain ⟨href, hone, -⟩ := h.facts
    refine ⟨.finishing p none, h.count, h.lock, h.use_update (if_pos rfl) fun r hr => ?_,
      by simpa using h.saved, href, by simp, fun _ => hone⟩
    simp [Phase.use, hr]
  · cases hst

theorem EntryOk.finish (h : EntryOk v) (hp : v.use p = .freeing .finish) :
    EntryOk { v with
      ip := { v.ip with valid := false, ref := v.ip.ref - 1 }
      refs := update v.refs p (v.refs p - 1)
      use := update v.use p .none } := by
  obtain ⟨ph, h⟩ := h
  have hle := h.refs_le p
  rcases h.of_freeing hp with rfl | ⟨-, l, rfl⟩
  · exact absurd rfl h.facts.2.2.2.2.2.1
  obtain ⟨href, hl, hone⟩ := h.facts
  have hcount := count_update h.count p (m := v.refs p - 1) (n := v.ip.ref - 1) (by omega)
  have hdisk (hne : v.ip.ref ≠ 1) : v.disk.type ≠ 0 := fun h0 => hne (hone h0)
  cases l with
  | none =>
      have huse (r) : update v.use p .none r = .none := by
        by_cases hr : r = p
        · subst hr; simp
        · simpa [Phase.use, hr] using h.use r
      by_cases h1 : v.ip.ref = 1
      · exact ⟨.unused, hcount, h.lock, huse, by simpa using h.saved, by simp [Phase.Facts, h1]⟩
      · exact ⟨.shut, hcount, h.lock, huse,
          by simpa using h.saved, show 0 < v.ip.ref - 1 by omega, hdisk h1, by simp⟩
  | some r =>
      obtain ⟨hrp, hr⟩ := hl r rfl
      have h1 : v.ip.ref ≠ 1 := fun h1 => hrp (h.eq_of_ref_one h1 hr href)
      refine ⟨.entering r .locking, hcount, h.lock, fun x => ?_, by simpa using h.saved, by simpa [hrp] using hr,
        hdisk h1, by simp, .inl rfl⟩
      by_cases hx : x = p
      · subst hx; simp [Phase.use, Ne.symm hrp]
      · have := h.use x
        by_cases hxr : x = r
        · subst hxr; simpa [Phase.use, hx] using this
        · simpa [Phase.use, hx, hxr, Ne.symm hxr] using this

theorem EntryOk.claim (h : EntryOk v) (hfree : v.disk.type = 0) {d : Dinode} (hd : d.type ≠ 0) :
    EntryOk { v with disk := d } := by
  obtain ⟨ph, h⟩ := h
  have hf := h.facts
  cases ph with
  | unused => exact ⟨.unused, h.count, h.lock, h.use, h.saved, hf⟩
  | shut | entering r u | held r => exact absurd hfree hf.2.1
  | freeing r st => exact absurd hfree hf.2.2.1
  | finishing r l => exact ⟨.finishing r l, h.count, h.lock, h.use, h.saved, hf.1, hf.2.1, fun h0 => absurd h0 hd⟩

theorem EntryOk.unused (h : EntryOk v) (hunused : v.ip.ref = 0) (d : Dinode) : EntryOk { v with disk := d } := by
  obtain ⟨ph, h⟩ := h
  obtain rfl := h.of_unused hunused
  exact ⟨.unused, h.count, h.lock, h.use, h.saved, h.facts⟩

end Xv6.Icache
