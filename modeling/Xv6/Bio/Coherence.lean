import Xv6.Bio.Cache
import Xv6.Lib.UpdateSum

namespace Xv6.Bio

open Lib Ide
open Function (update update_apply update_eq_self update_of_ne update_self)

def At.refs (b : BufId) : At → Nat
  | .acquiring _ _ c | .releasing c => if c = b then 1 else 0
  | .out | .locked .. => 0

namespace Cache

variable {P : Type} [DecidableEq P] [Fintype P] {c d : Cache P} {p : P} {b : BufId} {dev blockno : UInt32}
  {disksize : Nat} {data : Block}

def PosOk (c : Cache P) (p : P) : At → Prop
  | .acquiring dev blockno b => c.Key b dev blockno
  | .locked dev blockno b => c.Key b dev blockno ∧ c.holder b = some p ∧ c.changed b = false
  | .out | .releasing _ => True

omit [DecidableEq P] [Fintype P] in
theorem PosOk.congr {a : At} (h : c.PosOk p a) (hkey : ∀ b dev blockno, a = .acquiring dev blockno b →
      (d.buf b).dev = (c.buf b).dev ∧ (d.buf b).blockno = (c.buf b).blockno)
    (hlock : ∀ b dev blockno, a = .locked dev blockno b → c.holder b = some p →
      (d.buf b).dev = (c.buf b).dev ∧ (d.buf b).blockno = (c.buf b).blockno ∧ d.holder b = c.holder b ∧
        d.changed b = c.changed b) : d.PosOk p a := by
  cases a with
  | out | releasing => trivial
  | acquiring dev blockno b =>
      obtain ⟨hd, hn⟩ := hkey b dev blockno rfl
      exact ⟨hd.trans h.1, hn.trans h.2⟩
  | locked dev blockno b =>
      obtain ⟨hd, hn, hh, hc⟩ := hlock b dev blockno rfl h.2.1
      exact ⟨⟨hd.trans h.1.1, hn.trans h.1.2⟩, hh.trans h.2.1, hc.trans h.2.2⟩

omit [DecidableEq P] in
/-- The count of a buffer is that of the processes that have it, wait for it or are about to give it back. -/
def Counts (refcnt : BufId → Nat) (holder : BufId → Option P) (pos : P → At) : Prop :=
  ∀ b, refcnt b = (holder b).toList.length + ∑ p, (pos p).refs b

structure Ok (c : Cache P) : Prop where
  ring : ∃ l, c.links.Ring l ∧ ∀ b, b ∈ l
  unbound : ∀ b, c.bound b = false → (c.buf b).dev = 0
  unique : ∀ b b', c.bound b = true → c.Key b' (c.buf b).dev (c.buf b).blockno → b' = b
  refs : Counts c.refcnt c.holder c.pos
  pos : ∀ p, c.PosOk p (c.pos p)
  held : ∀ b p, c.holder b = some p → (c.buf b).valid = true ∨ ∃ dev blockno, c.pos p = .locked dev blockno b
  changed : ∀ b, c.changed b = true → c.holder b ≠ none
  valid : ∀ b, (c.buf b).valid = true →
    (c.buf b).dev = 1 ∧ (c.changed b = false → (c.buf b).data = c.latest (c.buf b).blockno.toNat)
  dirty : ∀ b, (c.buf b).dirty = true → (c.buf b).valid = true
  disk : ∀ n, c.memdisk n = c.latest n ∨ ∃ b, (c.buf b).dirty = true ∧ (c.buf b).blockno.toNat = n

theorem Counts.update {refcnt : BufId → Nat} {holder : BufId → Option P} {pos : P → At}
    (h : Counts refcnt holder pos)
    (b : BufId) (p : P) (r : Nat) (o : Option P) (a : At) (ha : ∀ b' ≠ b, a.refs b' = (pos p).refs b')
    (hb : r + (holder b).toList.length + (pos p).refs b = refcnt b + o.toList.length + a.refs b) :
    Counts (update refcnt b r) (update holder b o) (update pos p a) := by
  intro b'
  have hsum := UpdateSum.sum_update (At.refs b') pos p a
  have hb' := h b'
  by_cases hbb : b' = b
  · subst hbb
    rw [update_self, update_self]
    omega
  · rw [update_of_ne hbb, update_of_ne hbb]
    rw [ha b' hbb] at hsum
    omega

namespace Ok

omit [DecidableEq P] [Fintype P] in
theorem length_lt {l : List BufId} (h : c.links.Ring l) : l.length < nbuf + 1 := by
  have := h.nodup.length_le_card
  rw [Fintype.card_fin] at this
  omega

omit [DecidableEq P] in
theorem cached_eq_some (h : c.Ok) (hb : c.cached dev blockno = some b) : c.Key b dev blockno := by
  obtain ⟨l, hl, -⟩ := h.ring
  rw [Cache.cached, hl.find_next (length_lt hl)] at hb
  simpa using List.find?_some hb

omit [DecidableEq P] in
theorem cached_eq_none (h : c.Ok) (hn : c.cached dev blockno = none) (b : BufId) : ¬ c.Key b dev blockno := by
  obtain ⟨l, hl, hall⟩ := h.ring
  rw [Cache.cached, hl.find_next (length_lt hl), List.find?_eq_none] at hn
  simpa using hn b (hall b)

omit [DecidableEq P] in
theorem unused_eq_some (h : c.Ok) (hb : c.unused = some b) : c.refcnt b = 0 ∧ (c.buf b).dirty = false := by
  obtain ⟨l, hl, -⟩ := h.ring
  rw [Cache.unused, hl.find_prev (length_lt hl)] at hb
  simpa using List.find?_some hb

omit [DecidableEq P] in
theorem unused_eq_none (h : c.Ok) (hn : c.unused = none) (b : BufId) : 0 < c.refcnt b ∨ (c.buf b).dirty = true := by
  obtain ⟨l, hl, hall⟩ := h.ring
  rw [Cache.unused, hl.find_prev (length_lt hl), List.find?_eq_none] at hn
  have := hn b (List.mem_reverse.mpr (hall b))
  simp only [Bool.and_eq_true, beq_iff_eq, Bool.not_eq_true', not_and, Bool.not_eq_false] at this
  exact (Nat.eq_zero_or_pos _).elim (fun h0 => .inr (this h0)) .inl

omit [DecidableEq P] in
theorem free (h : c.Ok) (hb : c.refcnt b = 0) : c.holder b = none ∧ ∀ p, (c.pos p).refs b = 0 := by
  have := h.refs b
  rw [hb, eq_comm, Nat.add_eq_zero_iff, Finset.sum_eq_zero_iff] at this
  exact ⟨by simpa using this.1, fun p => this.2 p (Finset.mem_univ p)⟩

omit [DecidableEq P] in
theorem bound_of_valid (h : c.Ok) (hb : (c.buf b).valid = true) : c.bound b = true := by
  by_contra hn
  have h0 := h.unbound b (by simpa using hn)
  rw [(h.valid b hb).1] at h0
  exact absurd h0 (by decide)

omit [DecidableEq P] in
theorem disk_of_clean (h : c.Ok) (hdev : (c.buf b).dev = 1) (hb : (c.buf b).dirty = false) :
    c.memdisk (c.buf b).blockno.toNat = c.latest (c.buf b).blockno.toNat := by
  rcases h.disk (c.buf b).blockno.toNat with he | ⟨b', hd, hn⟩
  · exact he
  · have hv := h.dirty b' hd
    have hbb : b = b' := h.unique b' b (h.bound_of_valid hv)
      ⟨hdev.trans (h.valid b' hv).1.symm, (UInt32.toNat_inj.mp hn).symm⟩
    rw [hbb, hd] at hb
    cases hb

theorem found (h : c.Ok) (hp : c.pos p = .out) (hb : c.Key b dev blockno) :
    ({ c with refcnt := update c.refcnt b (c.refcnt b + 1) }.goto p (.acquiring dev blockno b)).Ok :=
  { h with
    refs := by
      have := h.refs.update b p (c.refcnt b + 1) (c.holder b) (.acquiring dev blockno b)
        (fun b' hb' => by simp [hp, At.refs, Ne.symm hb']) (by simp [hp, At.refs]; omega)
      rwa [update_eq_self] at this
    pos := (Function.forall_update_iff c.pos c.PosOk).mpr ⟨hb, fun q _ => h.pos q⟩
    held := by
      intro b' q hq
      have := h.held b' q hq
      simp only [goto, update_apply]
      grind -ring -linarith }

theorem recycle (h : c.Ok) (hp : c.pos p = .out) (hfree : c.refcnt b = 0) (hclean : (c.buf b).dirty = false)
    (hnew : ∀ b', ¬ c.Key b' dev blockno) :
    ({ c with
      buf := update c.buf b ⟨false, false, dev, blockno, (c.buf b).data⟩
      refcnt := update c.refcnt b 1
      bound := update c.bound b true }.goto p (.acquiring dev blockno b)).Ok := by
  obtain ⟨hholder, hrefs⟩ := h.free hfree
  exact
  { h with
    refs := by
      have := h.refs.update b p 1 (c.holder b) (.acquiring dev blockno b)
        (fun b' hb' => by simp [hp, At.refs, Ne.symm hb']) (by simp [hp, At.refs, hfree, hholder])
      rwa [update_eq_self] at this
    unbound := by
      intro b' hb'
      have := h.unbound b'
      simp only [goto, update_apply] at hb' ⊢
      grind -ring -linarith
    unique := by
      intro b₁ b₂ hb hkey
      have := h.unique b₁ b₂
      have := hnew b₁
      have := hnew b₂
      simp only [goto, Key, update_apply] at *
      grind -ring -linarith
    pos := by
      refine (Function.forall_update_iff c.pos _).mpr ⟨⟨?_, ?_⟩, fun q _ => (h.pos q).congr ?_ ?_⟩
      · simp [goto]
      · simp [goto]
      · intro b' dev' blockno' ha
        have := hrefs q
        simp only [goto, update_apply]
        grind -ring -linarith [At.refs]
      · intro b' dev' blockno' ha hq
        simp only [goto, update_apply]
        grind -ring -linarith
    held := by
      intro b' q (hq : c.holder b' = some q)
      have := h.held b' q hq
      simp only [goto, update_apply]
      grind -ring -linarith
    valid := by
      intro b' hb'
      have := h.valid b'
      simp only [goto, update_apply] at hb' ⊢
      grind -ring -linarith
    dirty := by
      intro b' hb'
      have := h.dirty b'
      simp only [goto, update_apply] at hb' ⊢
      grind -ring -linarith
    disk := by
      intro n
      have := h.disk n
      simp only [goto, update_apply]
      grind -ring -linarith }

omit [DecidableEq P] in
theorem eq_of_valid (h : c.Ok) {b' : BufId} (hb : (c.buf b).valid = true) (hb' : (c.buf b').valid = true)
    (hn : (c.buf b').blockno = (c.buf b).blockno) : b' = b :=
  h.unique b b' (h.bound_of_valid hb) ⟨(h.valid b' hb').1.trans (h.valid b hb).1.symm, hn⟩

omit [DecidableEq P] in
theorem valid_of_held (h : c.Ok) (hp : c.pos p = .out) (hb : c.holder b = some p) : (c.buf b).valid = true := by
  rcases h.held b p hb with hv | ⟨dev, blockno, hl⟩
  · exact hv
  · rw [hp] at hl
    cases hl

omit [DecidableEq P] in
theorem rewrite (h : c.Ok) (hp : c.pos p = .out) (hb : c.holder b = some p) {x : Ide.Buf} {m l : Disk} {ch : Bool}
    (hdev : x.dev = (c.buf b).dev) (hblockno : x.blockno = (c.buf b).blockno) (hvalid : x.valid = true)
    (hdata : ch = false → x.data = l (c.buf b).blockno.toNat)
    (hdisk : x.dirty = false → m (c.buf b).blockno.toNat = l (c.buf b).blockno.toNat)
    (hframe : ∀ n, n ≠ (c.buf b).blockno.toNat → m n = c.memdisk n ∧ l n = c.latest n) :
    ({ c with
      memdisk := m
      buf := update c.buf b x
      changed := update c.changed b ch
      latest := l } : Cache P).Ok := by
  have hv := h.valid_of_held hp hb
  exact
  { h with
    unbound := by
      intro b' hb'
      have := h.unbound b' hb'
      simp only [update_apply]
      grind -ring -linarith
    unique := by
      intro b₁ b₂ hbound hkey
      have := h.unique b₁ b₂ hbound
      simp only [Key, update_apply] at *
      grind -ring -linarith
    pos := by
      intro q
      apply (h.pos q).congr
      · intro b' dev' blockno' ha
        simp only [update_apply]
        grind -ring -linarith
      · intro b' dev' blockno' ha hq
        simp only [update_apply]
        grind -ring -linarith
    held := by
      intro b' q hq
      have := h.held b' q hq
      simp only [update_apply]
      grind -ring -linarith
    changed := by
      intro b' hb'
      have := h.changed b'
      simp only [update_apply] at hb'
      grind -ring -linarith
    valid := by
      intro b' hb'
      have hval := h.valid b'
      have hsame : (c.buf b').valid = true → (c.buf b').blockno = (c.buf b).blockno → b' = b := h.eq_of_valid hv
      have := (h.valid b hv).1
      have := hframe (c.buf b').blockno.toNat
      have := @UInt32.toNat_inj (c.buf b').blockno (c.buf b).blockno
      simp only [update_apply] at hb' ⊢
      grind -ring -linarith
    dirty := by
      intro b' hb'
      have := h.dirty b'
      simp only [update_apply] at hb' ⊢
      grind -ring -linarith
    disk := by
      intro n
      have := h.disk n
      have := hframe n
      by_cases hn : n = (c.buf b).blockno.toNat
      · cases hx : x.dirty with
        | false => exact .inl (hn ▸ hdisk hx)
        | true => exact .inr ⟨b, by simp [hx], by simp [hblockno, hn]⟩
      · simp only [update_apply]
        grind -ring -linarith }

omit [DecidableEq P] in
theorem modify (h : c.Ok) (hp : c.pos p = .out) (hb : c.holder b = some p) : (c.modify b data).Ok :=
  h.rewrite hp hb rfl rfl (h.valid_of_held hp hb) (fun hn => nomatch hn)
    (h.disk_of_clean (h.valid b (h.valid_of_held hp hb)).1) fun _ _ => ⟨rfl, rfl⟩

omit [DecidableEq P] [Fintype P] in
theorem written_latest (c : Cache P) (b : BufId) : (c.written b).latest (c.buf b).blockno.toNat = (c.buf b).data :=
  update_self ..

omit [DecidableEq P] in
theorem mark (h : c.Ok) (hp : c.pos p = .out) (hb : c.holder b = some p) : (c.mark b).Ok :=
  h.rewrite hp hb rfl rfl (h.valid_of_held hp hb) (fun _ => (written_latest c b).symm) (fun hn => nomatch hn)
    fun _ hn => ⟨rfl, update_of_ne hn ..⟩

omit [DecidableEq P] in
theorem bwrite (h : c.Ok) (hp : c.pos p = .out) (hb : c.holder b = some p) (hd : c.bwrite disksize b = some d) :
    d.Ok := by
  have hdev := (h.valid b (h.valid_of_held hp hb)).1
  obtain ⟨r, hr, rfl⟩ := Option.map_eq_some_iff.mp hd
  simp only [Mem.iderw, Ide.Buf.synced, Bool.not_true, Bool.and_false, Bool.false_eq_true, if_false, hdev, ne_eq,
    not_true_eq_false, if_true, Option.ite_none_left_eq_some, Option.some.injEq] at hr
  obtain ⟨-, rfl⟩ := hr
  exact h.rewrite hp hb hdev.symm rfl rfl (fun _ => (written_latest c b).symm)
    (fun _ => (update_self ..).trans (written_latest c b).symm)
    fun _ hn => ⟨update_of_ne hn .., update_of_ne hn ..⟩

theorem acquire (h : c.Ok) (hp : c.pos p = .acquiring dev blockno b) (hb : c.holder b = none) :
    ({ c with holder := update c.holder b (some p) }.goto p (.locked dev blockno b)).Ok := by
  have hkey : c.Key b dev blockno := by
    have := h.pos p
    rwa [hp] at this
  have hch : c.changed b = false := by
    by_contra hn
    exact h.changed b (by simpa using hn) hb
  exact
  { h with
    refs := by
      have := h.refs.update b p (c.refcnt b) (some p) (.locked dev blockno b)
        (fun b' hb' => by simp [hp, At.refs, Ne.symm hb']) (by simp [hp, At.refs, hb])
      rwa [update_eq_self] at this
    pos := by
      refine (Function.forall_update_iff c.pos _).mpr ⟨⟨hkey, ?_, hch⟩, fun q _ => (h.pos q).congr ?_ ?_⟩
      · simp [goto]
      · exact fun _ _ _ _ => ⟨rfl, rfl⟩
      · intro b' dev' blockno' ha hq
        simp only [goto, update_apply]
        grind -ring -linarith
    held := by
      intro b' q hq
      by_cases hbb : b' = b
      · obtain rfl : p = q := by simpa [goto, hbb] using hq
        exact .inr ⟨dev, blockno, by simp [goto, hbb]⟩
      · have := h.held b' q
        simp only [goto, update_apply, if_neg hbb] at hq ⊢
        grind -ring -linarith
    changed := by
      intro b' hb'
      have := h.changed b' hb'
      simp only [goto, update_apply]
      grind -ring -linarith }

theorem leave (h : c.Ok) (hp : c.pos p = .locked dev blockno b) (hv : (c.buf b).valid = true) :
    (c.goto p .out).Ok :=
  { h with
    refs := by
      have := h.refs.update b p (c.refcnt b) (c.holder b) .out (fun b' _ => by simp [hp, At.refs])
        (by simp [hp, At.refs])
      rwa [update_eq_self, update_eq_self] at this
    pos := (Function.forall_update_iff c.pos c.PosOk).mpr ⟨trivial, fun q _ => h.pos q⟩
    held := by
      intro b' q hq
      have := h.held b' q hq
      simp only [goto, update_apply]
      grind -ring -linarith }

omit [DecidableEq P] in
theorem clean_of_invalid (h : c.Ok) (hv : (c.buf b).valid = false) : (c.buf b).dirty = false := by
  by_contra hn
  rw [h.dirty b (by simpa using hn)] at hv
  cases hv

omit [DecidableEq P] in
theorem read (h : c.Ok) (hv : (c.buf b).valid = false) (hdev : (c.buf b).dev = 1) :
    ({ c with
      buf := update c.buf b
        ⟨true, false, (c.buf b).dev, (c.buf b).blockno, c.memdisk (c.buf b).blockno.toNat⟩ } : Cache P).Ok := by
  have hclean := h.clean_of_invalid hv
  have hdisk := h.disk_of_clean hdev hclean
  exact
  { h with
    unbound := by
      intro b' hb'
      have := h.unbound b' hb'
      simp only [update_apply]
      grind -ring -linarith
    unique := by
      intro b₁ b₂ hbound hkey
      have := h.unique b₁ b₂ hbound
      simp only [Key, update_apply] at *
      grind -ring -linarith
    pos := by
      intro q
      apply (h.pos q).congr
      · intro b' dev' blockno' ha
        simp only [update_apply]
        grind -ring -linarith
      · intro b' dev' blockno' ha hq
        simp only [update_apply]
        grind -ring -linarith
    held := by
      intro b' q hq
      have := h.held b' q hq
      simp only [update_apply]
      grind -ring -linarith
    valid := by
      intro b' hb'
      have := h.valid b'
      simp only [update_apply] at hb' ⊢
      grind -ring -linarith
    dirty := by
      intro b' hb'
      have := h.dirty b'
      simp only [update_apply] at hb' ⊢
      grind -ring -linarith
    disk := by
      intro n
      have := h.disk n
      simp only [update_apply]
      grind -ring -linarith }

omit [DecidableEq P] in
theorem fetch (h : c.Ok) (hd : c.fetch disksize b = some d) :
    d.Ok ∧ (d.buf b).valid = true ∧ d.Key b (c.buf b).dev (c.buf b).blockno ∧ d.pos = c.pos ∧
      d.changed = c.changed ∧
      d.latest = c.latest := by
  cases hv : (c.buf b).valid with
  | true =>
      simp only [Cache.fetch, hv, if_true, Option.some.injEq] at hd
      subst hd
      exact ⟨h, hv, ⟨rfl, rfl⟩, rfl, rfl, rfl⟩
  | false =>
      have hclean := h.clean_of_invalid hv
      simp only [Cache.fetch, hv, Bool.false_eq_true, if_false] at hd
      obtain ⟨r, hr, rfl⟩ := Option.map_eq_some_iff.mp hd
      simp only [Mem.iderw, Ide.Buf.synced, hv, hclean, Bool.false_and, Bool.false_eq_true, if_false,
        Option.ite_none_left_eq_some, Option.some.injEq, ne_eq, Decidable.not_not] at hr
      obtain ⟨hdev, -, rfl⟩ := hr
      exact ⟨h.read hv hdev, by simp, ⟨by simp, by simp⟩, rfl, rfl, rfl⟩

theorem release (h : c.Ok) (hp : c.pos p = .out) (hb : c.holder b = some p) (hch : c.changed b = false) :
    ({ c with holder := update c.holder b none }.goto p (.releasing b)).Ok :=
  { h with
    refs := by
      have := h.refs.update b p (c.refcnt b) none (.releasing b)
        (fun b' hb' => by simp [hp, At.refs, Ne.symm hb']) (by simp [hp, At.refs, hb])
      rwa [update_eq_self] at this
    pos := by
      refine (Function.forall_update_iff c.pos _).mpr ⟨trivial, fun q _ => (h.pos q).congr ?_ ?_⟩
      · exact fun _ _ _ _ => ⟨rfl, rfl⟩
      · intro b' dev' blockno' ha hq
        simp only [goto, update_apply]
        grind -ring -linarith
    held := by
      intro b' q hq
      have := h.held b' q
      simp only [goto, update_apply] at hq ⊢
      grind -ring -linarith
    changed := by
      intro b' (hb' : c.changed b' = true)
      have := h.changed b' hb'
      simp only [goto, update_apply]
      grind -ring -linarith }

omit [DecidableEq P] [Fintype P] in
theorem ring_moveFront {k : Links BufId} (h : ∃ l, k.Ring l ∧ ∀ b, b ∈ l) (b : BufId) :
    ∃ l, ((k.unlink b).pushFront b).Ring l ∧ ∀ b, b ∈ l := by
  obtain ⟨l, hl, hall⟩ := h
  obtain ⟨l₁, l₂, rfl⟩ := List.append_of_mem (hall b)
  refine ⟨b :: (l₁ ++ l₂), hl.unlink.pushFront ?_, ?_⟩
  · exact (List.nodup_middle.mp hl.nodup).notMem
  · intro b'
    have := hall b'
    simp only [List.mem_append, List.mem_cons] at this ⊢
    tauto

theorem drop (h : c.Ok) (hp : c.pos p = .releasing b) : ((c.drop b).goto p .out).Ok :=
  { h with
    ring := by
      have hk : (c.drop b).links = if c.refcnt b - 1 = 0 then (c.links.unlink b).pushFront b else c.links := rfl
      change ∃ l, (c.drop b).links.Ring l ∧ _
      rw [hk]
      split
      · exact ring_moveFront h.ring b
      · exact h.ring
    refs := by
      have hpos : 0 < c.refcnt b := by
        have hle := UpdateSum.le_sum (At.refs b) c.pos p
        have hone : (c.pos p).refs b = 1 := by simp [hp, At.refs]
        have := h.refs b
        omega
      have := h.refs.update b p (c.refcnt b - 1) (c.holder b) .out
        (fun b' hb' => by simp [hp, At.refs, Ne.symm hb']) (by simp [hp, At.refs]; omega)
      rwa [update_eq_self b c.holder] at this
    pos := (Function.forall_update_iff c.pos c.PosOk).mpr ⟨trivial, fun q _ => h.pos q⟩
    held := by
      intro b' q (hq : c.holder b' = some q)
      have := h.held b' q hq
      simp only [goto, update_apply, Cache.drop]
      grind -ring -linarith }

theorem step (h : c.Ok) {o : Op P} (hst : c.step disksize o = some d) : d.Ok := by
  cases o with
  | bread p dev blockno =>
      simp only [Cache.step, Option.ite_none_right_eq_some] at hst
      obtain ⟨hp, hst⟩ := hst
      cases hc : c.cached dev blockno with
      | some b =>
          simp only [bget, hc, Option.some.injEq] at hst
          exact hst ▸ h.found hp (h.cached_eq_some hc)
      | none =>
          cases hu : c.unused with
          | some b =>
              simp only [bget, hc, hu, Option.some.injEq] at hst
              obtain ⟨hfree, hclean⟩ := h.unused_eq_some hu
              exact hst ▸ h.recycle hp hfree hclean (h.cached_eq_none hc)
          | none =>
              simp only [bget, hc, hu] at hst
              cases hst
  | acquire p =>
      simp only [Cache.step] at hst
      split at hst
      · rename_i dev blockno b hp
        obtain ⟨hb, hd⟩ := Option.ite_none_right_eq_some.mp hst
        exact Option.some.inj hd ▸ h.acquire hp hb
      · cases hst
  | load p =>
      simp only [Cache.step] at hst
      split at hst
      · rename_i dev blockno b hp
        obtain ⟨e, he, rfl⟩ := Option.map_eq_some_iff.mp hst
        obtain ⟨hok, hv, -, hpos, -, -⟩ := h.fetch he
        exact hok.leave (hpos ▸ hp) hv
      · cases hst
  | modify p b data =>
      obtain ⟨⟨hp, hb⟩, hd⟩ := Option.ite_none_right_eq_some.mp hst
      exact Option.some.inj hd ▸ h.modify hp hb
  | mark p b =>
      obtain ⟨⟨hp, hb⟩, hd⟩ := Option.ite_none_right_eq_some.mp hst
      exact Option.some.inj hd ▸ h.mark hp hb
  | bwrite p b =>
      obtain ⟨⟨hp, hb⟩, hd⟩ := Option.ite_none_right_eq_some.mp hst
      exact h.bwrite hp hb hd
  | brelse p b =>
      obtain ⟨⟨hp, hb, hch⟩, hd⟩ := Option.ite_none_right_eq_some.mp hst
      exact Option.some.inj hd ▸ h.release hp hb hch
  | drop p =>
      simp only [Cache.step] at hst
      split at hst
      · rename_i b hp
        exact Option.some.inj hst ▸ h.drop hp
      · cases hst

omit [DecidableEq P] [Fintype P] in
theorem ring_binit : ∃ l, binitLinks.Ring l ∧ ∀ b, b ∈ l := by
  have hpush : ∀ (bs l : List BufId) (k : Links BufId), k.Ring l → (bs ++ l).Nodup →
      (bs.foldl Links.pushFront k).Ring (bs.reverse ++ l) := by
    intro bs
    induction bs with
    | nil => exact fun l k h _ => h
    | cons b bs ih =>
        intro l k h hnd
        rw [List.cons_append, List.nodup_cons, List.mem_append, not_or] at hnd
        rw [List.foldl_cons, List.reverse_cons, List.append_assoc]
        exact ih (b :: l) _ (h.pushFront hnd.1.2) (List.nodup_middle.mpr
          (List.nodup_cons.mpr ⟨by simpa using hnd.1, hnd.2⟩))
  refine ⟨_, hpush (List.finRange nbuf) [] _ Links.Ring.empty ?_, fun b => by simp⟩
  rw [List.append_nil]
  exact List.nodup_finRange nbuf

omit [DecidableEq P] in
theorem binit (d : Disk) : (binit P d).Ok where
  ring := ring_binit
  unbound := fun _ _ => rfl
  unique := fun _ _ h => nomatch h
  refs := fun b => by simp [Bio.binit, At.refs]
  pos := fun _ => trivial
  held := fun _ _ h => nomatch h
  changed := fun _ h => nomatch h
  valid := fun _ h => nomatch h
  dirty := fun _ h => nomatch h
  disk := fun _ => .inl rfl

omit [DecidableEq P] [Fintype P] in
theorem iderw_key {m : Disk} {x : Ide.Buf} {r : Disk × Ide.Buf} (hr : Mem.iderw disksize m x = some r) :
    r.2.dev = x.dev ∧ r.2.blockno = x.blockno := by
  simp only [Mem.iderw, Option.ite_none_left_eq_some] at hr
  obtain ⟨-, -, -, hr⟩ := hr
  split at hr
  all_goals
    obtain rfl := Option.some.inj hr
    exact ⟨rfl, rfl⟩

omit [DecidableEq P] [Fintype P] in
theorem key_update {x : Ide.Buf} {b' : BufId} (hd : d.buf = update c.buf b' x)
    (hx : x.dev = (c.buf b').dev ∧ x.blockno = (c.buf b').blockno) : d.Key b (c.buf b).dev (c.buf b).blockno := by
  rw [Key, hd]
  by_cases hb : b = b'
  · subst hb
    rw [update_self]
    exact hx
  · rw [update_of_ne hb]
    exact ⟨rfl, rfl⟩

theorem not_rebound (h : c.Ok) {o : Op P} (hst : c.step disksize o = some d)
    (hb : 0 < c.refcnt b ∨ (c.buf b).dirty = true) : d.Key b (c.buf b).dev (c.buf b).blockno := by
  cases o with
  | bread p dev blockno =>
      simp only [Cache.step, Option.ite_none_right_eq_some] at hst
      obtain ⟨-, hst⟩ := hst
      cases hc : c.cached dev blockno with
      | some b' =>
          simp only [bget, hc, Option.some.injEq] at hst
          exact hst ▸ ⟨rfl, rfl⟩
      | none =>
          cases hu : c.unused with
          | some b' =>
              simp only [bget, hc, hu, Option.some.injEq] at hst
              obtain ⟨hfree, hclean⟩ := h.unused_eq_some hu
              have hbb : b ≠ b' := by
                rintro rfl
                rcases hb with hb | hb
                · omega
                · rw [hclean] at hb
                  cases hb
              subst hst
              simp [goto, Key, update_of_ne hbb]
          | none =>
              simp only [bget, hc, hu] at hst
              cases hst
  | acquire p =>
      simp only [Cache.step] at hst
      split at hst
      · obtain ⟨-, hd⟩ := Option.ite_none_right_eq_some.mp hst
        exact Option.some.inj hd ▸ ⟨rfl, rfl⟩
      · cases hst
  | load p =>
      simp only [Cache.step] at hst
      split at hst
      · obtain ⟨e, he, rfl⟩ := Option.map_eq_some_iff.mp hst
        rw [Cache.fetch] at he
        split at he
        · exact Option.some.inj he ▸ ⟨rfl, rfl⟩
        · obtain ⟨r, hr, rfl⟩ := Option.map_eq_some_iff.mp he
          exact key_update rfl (iderw_key hr)
      · cases hst
  | modify p b' data =>
      obtain ⟨-, hd⟩ := Option.ite_none_right_eq_some.mp hst
      obtain rfl := Option.some.inj hd
      exact key_update rfl ⟨rfl, rfl⟩
  | mark p b' =>
      obtain ⟨-, hd⟩ := Option.ite_none_right_eq_some.mp hst
      obtain rfl := Option.some.inj hd
      exact key_update rfl ⟨rfl, rfl⟩
  | bwrite p b' =>
      obtain ⟨-, hd⟩ := Option.ite_none_right_eq_some.mp hst
      obtain ⟨r, hr, rfl⟩ := Option.map_eq_some_iff.mp hd
      obtain ⟨hdev, hblockno⟩ := iderw_key hr
      exact key_update rfl ⟨hdev, hblockno⟩
  | brelse p b' =>
      obtain ⟨-, hd⟩ := Option.ite_none_right_eq_some.mp hst
      exact Option.some.inj hd ▸ ⟨rfl, rfl⟩
  | drop p =>
      simp only [Cache.step] at hst
      split at hst
      · exact Option.some.inj hst ▸ ⟨rfl, rfl⟩
      · cases hst

theorem bread_returns (h : c.Ok) (hp : c.pos p = .locked dev blockno b) (hst : c.step disksize (.load p) = some d) :
    d.Key b dev blockno ∧ (d.buf b).data = c.latest blockno.toNat := by
  have hpos := h.pos p
  rw [hp] at hpos
  simp only [Cache.step, hp] at hst
  obtain ⟨e, he, rfl⟩ := Option.map_eq_some_iff.mp hst
  obtain ⟨hok, hv, hkey, -, hch, hlatest⟩ := h.fetch he
  rw [hpos.1.1, hpos.1.2] at hkey
  refine ⟨hkey, ?_⟩
  have hdata := (hok.valid b hv).2 (by rw [hch]; exact hpos.2.2)
  rwa [hkey.2, hlatest] at hdata

end Ok

end Cache

end Xv6.Bio
