import Xv6.Machine.Stack
import Xv6.Fs.BlockOwnership
import Xv6.Lib.Refine

namespace Xv6.Machine

open Lib Lib.Bytes Lib.Radix Lib.Exec Vm

structure File where
  size : Nat
  byte : Nat → UInt8

namespace File

def read (x : File) (off n : Nat) : List UInt8 := (List.range (min n (x.size - off))).map fun k => x.byte (off + k)

def readi (x : File) (off n : Nat) : Int × List UInt8 :=
  if off ≤ x.size ∧ off + n < 2 ^ 32 then ((x.read off n).length, x.read off n) else (-1, [])

theorem length_read (x : File) (off n : Nat) : (x.read off n).length = min n (x.size - off) := by
  rw [read, List.length_map, List.length_range]

theorem readi_fst (x : File) (off n : Nat) (hx : x.size < 2 ^ 32) (hn : 0 < n) :
    (x.readi off n).1 = n ↔ off + n ≤ x.size := by
  rw [readi]
  split
  next h =>
    rw [length_read]
    omega
  next h => omega

theorem readi_snd (x : File) (off n : Nat) (hx : x.size + n < 2 ^ 32) (hn : 0 < n) :
    (x.readi off n).2 = [] ↔ x.size ≤ off := by
  rw [readi]
  split
  next h =>
    rw [← List.length_eq_zero_iff, length_read]
    omega
  next h => simp only [true_iff]; omega

end File

def fileOf (fs : Fs.State) (ip : Fin ninode) : File :=
  ⟨(fs.icache ip).size.toNat, Fs.fileByte fs.disk (fs.icache ip).toDinode⟩

structure Opened (sb : Fs.Layout) (fs : Fs.State) (ip : Fin ninode) : Prop where
  consistent : Fs.Consistent sb fs
  ref : 0 < (fs.icache ip).ref
  valid : (fs.icache ip).valid = true
  regular : (fs.icache ip).type ≠ Fs.tDev

section

variable [Fs.Devsw] {sb : Fs.Layout} {fs : Fs.State} {ip : Fin ninode} {s : State}

omit [Fs.Devsw] in
theorem Opened.size_le (h : Opened sb fs ip) : (fileOf fs ip).size ≤ maxfile * bsize :=
  Fs.blocks_le_iff.mp (h.consistent.filled_cached h.ref h.valid).le_maxfile

omit [Fs.Devsw] in
theorem Opened.size_lt (h : Opened sb fs ip) : (fileOf fs ip).size < 2 ^ 17 :=
  lt_of_le_of_lt h.size_le (by decide)

theorem Opened.readi (h : Opened sb fs ip) (off n : UInt32) :
    Fs.readi sb ip off n fs = .ok ((fileOf fs ip).readi off.toNat n.toNat, fs) := by
  have hspec := wp_iff.mp (show wp (Fs.readi sb ip off n) _ _ fs from
    Fs.readi_filled (h.consistent.filled_cached h.ref h.valid) h.regular)
  cases hr : Fs.readi sb ip off n fs with
  | error e => exact (hspec.2 e hr).elim
  | ok q =>
      obtain ⟨r, fs'⟩ := q
      obtain ⟨rfl, hres⟩ := hspec.1 r fs' hr
      have hsize : (fileOf fs' ip).size = (fs'.icache ip).size.toNat := rfl
      congr 2
      rcases hres with ⟨rfl, hbad⟩ | ⟨hoff, hlt, hlen, hbytes⟩
      · rw [File.readi, if_neg]
        rw [UInt32.lt_iff_toNat_lt] at hbad
        omega
      · rw [File.readi, if_pos ⟨hoff, hlt⟩]
        exact Prod.ext (hlen.trans (by rw [hbytes]; rfl)) hbytes

theorem Opened.fsM_readi (h : Opened sb s.kernel.fs ip) (off n : UInt32) :
    fsM (Fs.readi sb ip off n) s = .ok ((fileOf s.kernel.fs ip).readi off.toNat n.toNat, s) := by
  rw [fsM, kernelM, Kernel.fsM, Exec.zoom, Exec.zoom, h.readi off n]

end

section

variable {α : Type} {m : VmM α} {s : State}

theorem vmM_eq {a : α} {m' : Vm.Mem} (h : m s.mem = .ok (a, m')) : vmM m s = .ok (a, { s with mem := m' }) := by
  rw [vmM, Exec.zoom, h]

theorem vmM_reads_eq {a : α} (h : m s.mem = .ok (a, s.mem)) : vmM m s = .ok (a, s) := vmM_eq h

theorem vmM_error {e : Halt} (h : m s.mem = .error e) : vmM m s = .error e := by
  rw [vmM, Exec.zoom, h]

end

section Pages

variable {kend : Nat} {sb : Fs.Layout} {ip : Fin ninode} {s : State} {l l₀ : List Nat} {t : Pgdir}
  {sz addr : UInt64} {offset filesz : UInt32}

def Store.Fine (l₀ : List Nat) (w : Store) : Prop := w.page ∈ l₀ ∧ w.page ∉ w.free

def State.addStores (s : State) (w : List Store) : State := { s with stores := w ++ s.stores }

theorem addStores_addStores (w w' : List Store) : (s.addStores w).addStores w' = s.addStores (w' ++ w) := by
  simp only [State.addStores, List.append_assoc]

theorem fine_of_mapped (h : NewImage kend l₀ sz t l) {k : Nat} {pte : Pte} (hk : mapped t k = some pte) :
    Store.Fine l₀ ⟨pte.page, l⟩ := by
  have hpos := pageCount_pos hk
  have hcount := h.count pte.page
  have honce := h.frames.once pte.page
  refine ⟨List.count_pos_iff.mp (show 0 < l₀.count pte.page by omega), fun hmem => ?_⟩
  have : 0 < l.count pte.page := List.count_pos_iff.mpr hmem
  omega

theorem store_eq (pte : Option Pte) (bs : List UInt8) :
    store pte bs s = .ok ((), s.addStores (if bs = [] then [] else [⟨pte.elim 0 Pte.page, s.mem.freelist⟩])) := by
  rw [store]
  split <;> rfl

theorem walkpgdir_user (h : NewImage kend l₀ sz t l) (va : UInt64) (hlow : 4096 ≤ va.toNat)
    (hva : va.toNat < sz.toNat) :
    ∃ f, mapped t (vpage va) = some ⟨f, true⟩ ∧ walkpgdir t va ⟨l⟩ = .ok (some (some ⟨f, true⟩), ⟨l⟩) := by
  have hpage : vpage va = va.toNat / 4096 := rfl
  have hpages : pages sz = (sz.toNat + 4095) / 4096 := rfl
  have hroom : pages sz ≤ 57345 := Frames.pages_le (x := ⟨sz, t⟩) h.frames h.synced
  obtain ⟨f, hf⟩ := h.user (vpage va) (by omega) (by omega)
  exact ⟨f, hf, by rw [walkpgdir_eq (by omega), find_of_mapped hf]⟩

theorem chunk_toNat {i : UInt32} (hlt : i < filesz) :
    (if filesz - i < 4096 then filesz - i else 4096).toNat = min (filesz.toNat - i.toNat) 4096 := by
  have hsub : (filesz - i).toNat = filesz.toNat - i.toNat := UInt32.toNat_sub_of_le _ _ (UInt32.le_of_lt hlt)
  have h4096 : (4096 : UInt32).toNat = 4096 := rfl
  split
  next h =>
    rw [UInt32.lt_iff_toNat_lt] at h
    omega
  next h =>
    rw [UInt32.lt_iff_toNat_lt] at h
    omega

theorem loadPages_end [Fs.Devsw] {fuel : Nat} {i : UInt32} (h : filesz ≤ i) :
    loadPages sb ip t addr offset filesz fuel i s = .ok (true, s) := by
  cases fuel with
  | zero => rfl
  | succ fuel =>
      rw [loadPages, if_neg (UInt32.not_lt.mpr h)]
      rfl

/-- The store of a round of `loaduvm`, if it reads any bytes. -/
def roundStores (x : File) (s : State) (pte : Option Pte) (off : Nat) : List Store :=
  if x.size ≤ off then [] else [⟨pte.elim 0 Pte.page, s.mem.freelist⟩]

theorem loadPages_step [Fs.Devsw] (hop : Opened sb s.kernel.fs ip) {fuel : Nat} {i : UInt32} {pte : Option Pte}
    (hwalk : walkpgdir t (addr + i.toUInt64) s.mem = .ok (some pte, s.mem)) (hlt : i.toNat < filesz.toNat)
    (hi : i.toNat = 0 ∨ offset.toNat + i.toNat ≤ (fileOf s.kernel.fs ip).size) :
    loadPages sb ip t addr offset filesz (fuel + 1) i s =
      if offset.toNat + i.toNat + min (filesz.toNat - i.toNat) 4096 ≤ (fileOf s.kernel.fs ip).size then
        loadPages sb ip t addr offset filesz fuel (i + 4096)
          (s.addStores (roundStores (fileOf s.kernel.fs ip) s pte (offset.toNat + i.toNat)))
      else .ok (false, s.addStores (roundStores (fileOf s.kernel.fs ip) s pte (offset.toNat + i.toNat))) := by
  have hlt' : i < filesz := UInt32.lt_iff_toNat_lt.mpr hlt
  have hsize := hop.size_lt
  have hoff : (offset + i).toNat = offset.toNat + i.toNat := by
    have := offset.toNat_lt
    rw [UInt32.toNat_add, Nat.mod_eq_of_lt (by omega)]
  have hn := chunk_toNat hlt'
  rw [loadPages, if_pos hlt', bind_ok (vmM_reads_eq hwalk)]
  simp only
  set n := if filesz - i < 4096 then filesz - i else 4096
  have hread := hop.fsM_readi (offset + i) n
  rw [hoff] at hread
  have hfst := File.readi_fst (fileOf s.kernel.fs ip) (offset.toNat + i.toNat) n.toNat (by omega) (by omega)
  have hsnd := File.readi_snd (fileOf s.kernel.fs ip) (offset.toNat + i.toNat) n.toNat (by omega) (by omega)
  rw [bind_ok hread]
  generalize (fileOf s.kernel.fs ip).readi (offset.toNat + i.toNat) n.toNat = q at hfst hsnd
  obtain ⟨r, bs⟩ := q
  simp only at hfst hsnd ⊢
  rw [bind_ok (store_eq _ _), if_congr hsnd rfl rfl, ← hn]
  change _ = if _ then loadPages _ _ _ _ _ _ _ _ (s.addStores (if _ then _ else _)) else _
  by_cases hall : offset.toNat + i.toNat + n.toNat ≤ (fileOf s.kernel.fs ip).size
  · rw [if_neg (not_not.mpr (hfst.mpr hall)), if_pos hall]
  · rw [if_pos (mt hfst.mp hall), if_neg hall]
    rfl

theorem loadPages_eq [Fs.Devsw] (addr : UInt64) (offset filesz : UInt32) (h : NewImage kend l₀ sz t l)
    (hs : s.mem = ⟨l⟩) (hop : Opened sb s.kernel.fs ip)
    (fuel : Nat) (i : UInt32) (hlow : 4096 ≤ addr.toNat + i.toNat) (hend : addr.toNat + filesz.toNat ≤ sz.toNat)
    (hi : i.toNat = 0 ∨ offset.toNat + i.toNat ≤ (fileOf s.kernel.fs ip).size)
    (hfuel : filesz.toNat ≤ i.toNat + fuel * 4096) :
    ∃ w, loadPages sb ip t addr offset filesz fuel i s =
        .ok (decide (filesz.toNat ≤ i.toNat ∨ offset.toNat + filesz.toNat ≤ (fileOf s.kernel.fs ip).size),
          s.addStores w) ∧
      ∀ v ∈ w, v.Fine l₀ := by
  induction fuel generalizing i s with
  | zero =>
      refine ⟨[], ?_, by simp⟩
      rw [decide_eq_true (.inl (by omega))]
      rfl
  | succ fuel ih =>
      by_cases hlt : i.toNat < filesz.toNat
      · have hsize := hop.size_lt
        have hva : (addr + i.toUInt64).toNat = addr.toNat + i.toNat := by
          have := sz.toNat_lt
          rw [UInt64.toNat_add, UInt32.toNat_toUInt64, Nat.mod_eq_of_lt (by omega)]
        obtain ⟨f, hf, hwalk⟩ := walkpgdir_user h (addr + i.toUInt64) (by omega) (by omega)
        rw [← hs] at hwalk
        rw [loadPages_step hop hwalk hlt hi]
        set w := roundStores (fileOf s.kernel.fs ip) s (some ⟨f, true⟩) (offset.toNat + i.toNat) with hw
        have hfine : ∀ v ∈ w, v.Fine l₀ := by
          intro v hv
          rw [hw, roundStores, hs] at hv
          split at hv
          · cases hv
          · rw [List.mem_singleton.mp hv]
            exact fine_of_mapped h hf
        split
        next hall =>
          have hnext : (i + 4096).toNat = i.toNat + 4096 := by
            rw [UInt32.toNat_add, Nat.mod_eq_of_lt (by show _ + 4096 < _; omega)]
            rfl
          by_cases hlast : filesz.toNat ≤ (i + 4096).toNat
          · refine ⟨w, ?_, hfine⟩
            rw [loadPages_end (UInt32.le_iff_toNat_le.mpr hlast), decide_eq_true (.inr (by omega))]
          · obtain ⟨w', hw', hfine'⟩ := ih (s := s.addStores w) (i := i + 4096) hs hop (by omega)
              (.inr (by show _ ≤ (fileOf s.kernel.fs ip).size; omega)) (by omega)
            refine ⟨w' ++ w, ?_, fun v hv => (List.mem_append.mp hv).elim (hfine' v) (hfine v)⟩
            have hsame : (filesz.toNat ≤ (i + 4096).toNat ∨
                offset.toNat + filesz.toNat ≤ (fileOf (s.addStores w).kernel.fs ip).size) ↔
                (filesz.toNat ≤ i.toNat ∨ offset.toNat + filesz.toNat ≤ (fileOf s.kernel.fs ip).size) := by
              show _ ∨ _ ≤ (fileOf s.kernel.fs ip).size ↔ _
              omega
            rw [hw', addStores_addStores, decide_eq_decide.mpr hsame]
        next hall =>
          refine ⟨w, ?_, hfine⟩
          rw [decide_eq_false (by omega)]
      · refine ⟨[], ?_, by simp⟩
        rw [loadPages_end (UInt32.le_iff_toNat_le.mpr (by omega)), decide_eq_true (.inl (by omega))]
        rfl

theorem walkpgdir_zero (h : NewImage kend l₀ sz t l) :
    walkpgdir t 0 ⟨l⟩ = .ok (if sz.toNat ≤ 4096 then none else some none, ⟨l⟩) := by
  have hpages : pages sz = (sz.toNat + 4095) / 4096 := rfl
  rw [walkpgdir_eq (by decide)]
  change Except.ok (find 3 t 0, _) = _
  split
  next hle => rw [h.bare (by omega)]
  next hle =>
    obtain ⟨f, hf⟩ := h.user 1 le_rfl (by omega)
    have hsome : (find 3 t 0).isSome := by
      rw [isSome_find_congr (show 0 / 512 = 1 / 512 from rfl), find_of_mapped hf]
      rfl
    obtain ⟨o, ho⟩ := Option.isSome_iff_exists.mp hsome
    have hz := h.unmapped 0 (by decide) (.inl rfl)
    rw [mapped, ho] at hz
    rw [ho, show o = none from hz]

/-- `loaduvm` for a segment of the new image. A segment at address 0 has no page: without a table there it panics,
otherwise file bytes go to physical page 0. -/
theorem loaduvm_eq [Fs.Devsw] (addr : UInt64) (offset filesz : UInt32) (hzero : 0 ∉ l₀)
    (h : NewImage kend l₀ sz t l) (hs : s.mem = ⟨l⟩)
    (hop : Opened sb s.kernel.fs ip) (halign : addr.toNat % 4096 = 0)
    (hend : addr.toNat + filesz.toNat ≤ sz.toNat) :
    if addr.toNat = 0 ∧ 0 < filesz.toNat ∧ sz.toNat ≤ 4096 then
      loaduvm sb t addr ip offset filesz s = .error (.panic .loaduvmExist)
    else ∃ w, loaduvm sb t addr ip offset filesz s =
        .ok (decide (filesz.toNat = 0 ∨ offset.toNat + filesz.toNat ≤ (fileOf s.kernel.fs ip).size),
          s.addStores w) ∧
      ((∀ v ∈ w, v.Fine l₀) ↔
        ¬ (addr.toNat = 0 ∧ 0 < filesz.toNat ∧ offset.toNat < (fileOf s.kernel.fs ip).size)) := by
  have haligned : ¬ addr % 4096 ≠ 0 := by
    rw [not_not, ← UInt64.toNat_inj, UInt64.toNat_mod]
    exact halign
  have hfuel : filesz.toNat ≤ 0 + (filesz.toNat / pgsize + 1) * 4096 := by
    show _ ≤ 0 + (filesz.toNat / 4096 + 1) * 4096
    omega
  rw [loaduvm, if_neg haligned]
  by_cases hat : addr.toNat = 0 ∧ 0 < filesz.toNat
  · obtain rfl : addr = 0 := UInt64.toNat_inj.mp hat.1
    have hwalk : walkpgdir t (0 + (0 : UInt32).toUInt64) s.mem =
      .ok (if sz.toNat ≤ 4096 then none else some none, s.mem) := by
      rw [hs]
      exact walkpgdir_zero h
    by_cases hsz : sz.toNat ≤ 4096
    · rw [if_pos hsz] at hwalk
      rw [if_pos ⟨hat.1, hat.2, hsz⟩, loadPages, if_pos (show 0 < filesz from UInt32.lt_iff_toNat_lt.mpr hat.2),
        bind_ok (vmM_reads_eq hwalk)]
      rfl
    · rw [if_neg hsz] at hwalk
      rw [if_neg fun hc => hsz hc.2.2, loadPages_step hop hwalk hat.2 (.inl rfl)]
      set w := roundStores (fileOf s.kernel.fs ip) s none (offset.toNat + (0 : UInt32).toNat) with hw
      have hfine : (∀ v ∈ w, v.Fine l₀) ↔ ¬ offset.toNat < (fileOf s.kernel.fs ip).size := by
        rw [hw, roundStores]
        split
        next hle => simpa using hle
        next hgt =>
          have hno : ¬ Store.Fine l₀ ⟨0, s.mem.freelist⟩ := fun hf => hzero hf.1
          simpa [hno] using hgt
      have hfine' : (∀ v ∈ w, v.Fine l₀) ↔
          ¬ ((0 : UInt64).toNat = 0 ∧ 0 < filesz.toNat ∧ offset.toNat < (fileOf s.kernel.fs ip).size) :=
        hfine.trans (not_congr ⟨fun ho => ⟨rfl, hat.2, ho⟩, fun ho => ho.2.2⟩)
      have hz : (0 : UInt32).toNat = 0 := rfl
      split
      next hall =>
        by_cases hlast : filesz.toNat ≤ 4096
        · refine ⟨w, ?_, hfine'⟩
          rw [loadPages_end (show filesz ≤ 0 + 4096 from UInt32.le_iff_toNat_le.mpr hlast),
            decide_eq_true (.inr (by omega))]
        · obtain ⟨w', hw', hrest⟩ := loadPages_eq 0 offset filesz h
            (s := s.addStores w) hs hop (filesz.toNat / pgsize) (0 + 4096) (by decide) hend
            (.inr (by show _ + 4096 ≤ (fileOf s.kernel.fs ip).size; omega))
            (by show _ ≤ 4096 + filesz.toNat / 4096 * 4096; omega)
          refine ⟨w' ++ w, ?_, ?_⟩
          · have hsame : (filesz.toNat ≤ (0 + 4096 : UInt32).toNat ∨
                offset.toNat + filesz.toNat ≤ (fileOf (s.addStores w).kernel.fs ip).size) ↔
                (filesz.toNat = 0 ∨ offset.toNat + filesz.toNat ≤ (fileOf s.kernel.fs ip).size) := by
              show filesz.toNat ≤ 4096 ∨ _ ≤ (fileOf s.kernel.fs ip).size ↔ _
              omega
            rw [hw', addStores_addStores, decide_eq_decide.mpr hsame]
          · rw [← hfine']
            simp only [List.mem_append]
            exact ⟨fun hv v hm => hv v (.inr hm), fun hv v hm => hm.elim (hrest v) (hv v)⟩
      next hall =>
        refine ⟨w, ?_, hfine'⟩
        rw [decide_eq_false (by omega)]
  · rw [if_neg fun hc => hat ⟨hc.1, hc.2.1⟩]
    have hno : ¬ (addr.toNat = 0 ∧ 0 < filesz.toNat ∧ offset.toNat < (fileOf s.kernel.fs ip).size) := fun hc =>
      hat ⟨hc.1, hc.2.1⟩
    by_cases hnone : filesz.toNat = 0
    · refine ⟨[], ?_, by simp [hno]⟩
      rw [loadPages_end (UInt32.le_iff_toNat_le.mpr (by omega)), decide_eq_true (.inl hnone)]
      rfl
    · obtain ⟨w, hw, hfine⟩ := loadPages_eq addr offset filesz h hs hop _ 0
        (by show 4096 ≤ addr.toNat + 0; omega) hend (.inl rfl) hfuel
      refine ⟨w, ?_, iff_of_true hfine hno⟩
      have hsame : (filesz.toNat ≤ (0 : UInt32).toNat ∨ offset.toNat + filesz.toNat ≤
        (fileOf s.kernel.fs ip).size) ↔
          (filesz.toNat = 0 ∨ offset.toNat + filesz.toNat ≤ (fileOf s.kernel.fs ip).size) := by
        show filesz.toNat ≤ 0 ∨ _ ↔ _
        omega
      rw [hw, decide_eq_decide.mpr hsame]

end Pages

end Xv6.Machine
