import Xv6.Machine.Load

namespace Xv6.Machine

open Lib Lib.Bytes Lib.Exec Vm

structure Proghdr where
  type : Nat
  off : Nat
  vaddr : Nat
  filesz : Nat
  memsz : Nat

def File.proghdr (x : File) (off : Nat) : Proghdr :=
  let ph := x.read off 56
  ⟨field ph 0 4, field ph 8 8, field ph 16 8, field ph 32 8, field ph 40 8⟩

namespace Proghdr

variable (ph : Proghdr)

def offset : Nat := ph.off % 2 ^ 32

def length : Nat := ph.filesz % 2 ^ 32

/-- The segment is not longer in the file than in memory, and it ends below the kernel. -/
def Accepted : Prop := ph.filesz ≤ ph.memsz ∧ ph.vaddr + ph.memsz < kernbase.toNat

instance : Decidable ph.Accepted := inferInstanceAs (Decidable (_ ∧ _))

def top (sz : Nat) : Nat := max sz (ph.vaddr + ph.memsz)

def AtZero : Prop := ph.vaddr = 0 ∧ 0 < ph.length

instance : Decidable ph.AtZero := inferInstanceAs (Decidable (_ ∧ _))

end Proghdr

def pagesOf (sz : Nat) : Nat := (sz + 4095) / pgsize

/-- What the loop over the program headers comes to. `astray` says that file bytes have gone to physical page 0. -/
inductive Loading
  | halt (e : Panic)
  | stop (sz : Nat) (astray : Bool)
  | done (sz : Nat) (astray : Bool)

/-- The loop over the program headers of a file when there are `room` free pages. -/
def segments (x : File) (room : Nat) : (n off sz : Nat) → (astray : Bool) → Loading
  | 0, _, sz, astray => .done sz astray
  | n + 1, off, sz, astray =>
      let ph := x.proghdr off
      if x.size < off + 56 then .stop sz astray
      else if ph.type ≠ 1 then segments x room n (off + 56) sz astray
      else if ¬ ph.Accepted then .stop sz astray
      else if room < imagePages (pagesOf (ph.top sz)) then .halt .outOfMemory
      else if ph.vaddr % 4096 ≠ 0 then .stop (ph.top sz) astray
      else if ph.AtZero ∧ ph.top sz ≤ 4096 then .halt .loaduvmExist
      else
        let astray := astray || decide (ph.AtZero ∧ ph.offset < x.size)
        if ph.length = 0 ∨ ph.offset + ph.length ≤ x.size then segments x room n (off + 56) (ph.top sz) astray
        else .stop (ph.top sz) astray

variable {kend : Nat} {sb : Fs.Layout} {ip : Fin ninode} {l l₀ : List Nat} {s₀ s : State} {t : Pgdir} {sz : UInt64}
  {astray : Bool}

/-- State `s` is `s₀` but for the free pages and the stores of `loaduvm`. -/
structure Reached (l₀ : List Nat) (s₀ : State) (l : List Nat) (astray : Bool) (s : State) : Prop where
  stores : ∃ w, s = State.addStores { s₀ with mem := ⟨l⟩ } w ∧ (astray = false ↔ ∀ v ∈ w, v.Fine l₀)

theorem Reached.mem (h : Reached l₀ s₀ l astray s) : s.mem = ⟨l⟩ := by
  obtain ⟨w, rfl, -⟩ := h.stores
  rfl

theorem Reached.kernel (h : Reached l₀ s₀ l astray s) : s.kernel = s₀.kernel := by
  obtain ⟨w, rfl, -⟩ := h.stores
  rfl

theorem Reached.setMem (h : Reached l₀ s₀ l astray s) (l' : List Nat) :
    Reached l₀ s₀ l' astray { s with mem := ⟨l'⟩ } := by
  obtain ⟨w, rfl, hw⟩ := h.stores
  exact ⟨w, rfl, hw⟩

theorem Reached.addStores {w : List Store} {b : Bool} (h : Reached l₀ s₀ l astray s)
    (hw : (∀ v ∈ w, v.Fine l₀) ↔ b = false) :
    Reached l₀ s₀ l (astray || b) (s.addStores w) := by
  obtain ⟨w₀, rfl, hw₀⟩ := h.stores
  refine ⟨w ++ w₀, addStores_addStores .., ?_⟩
  rw [Bool.or_eq_false_iff, hw₀, ← hw]
  simp only [List.mem_append]
  exact ⟨fun hv v hm => hm.elim (hv.2 v) (hv.1 v), fun hv => ⟨fun v hm => hv v (.inr hm), fun v hm =>
    hv v (.inl hm)⟩⟩

def Loading.Describes (kend : Nat) (l₀ : List Nat) (s₀ : State) :
    Loading → Except Halt ((Pgdir × Option UInt64) × State) → Prop
  | .halt e, r => r = .error (.panic e)
  | .stop sz astray, r => ∃ (sz' : UInt64) (t : Pgdir) (l : List Nat) (s : State),
      sz'.toNat = sz ∧ NewImage kend l₀ sz' t l ∧ Reached l₀ s₀ l astray s ∧ r = .ok ((t, none), s)
  | .done sz astray, r => ∃ (sz' : UInt64) (t : Pgdir) (l : List Nat) (s : State),
      sz'.toNat = sz ∧ NewImage kend l₀ sz' t l ∧ Reached l₀ s₀ l astray s ∧ r = .ok ((t, some sz'), s)

theorem pages_eq (sz : UInt64) : pages sz = pagesOf sz.toNat := rfl

theorem alloc_segment (h : NewImage kend l₀ sz t l) {e : UInt64} (he : e < kernbase) :
    if l₀.length < imagePages (pagesOf (max sz.toNat e.toNat)) then
      allocuvm kend t sz e ⟨l⟩ = .error (.panic .outOfMemory)
    else ∃ (sz' : UInt64) (t' : Pgdir) (l' : List Nat), sz'.toNat = max sz.toNat e.toNat ∧
      NewImage kend l₀ sz' t' l' ∧
      allocuvm kend t sz e ⟨l⟩ = .ok ((t', sz'), ⟨l'⟩) := by
  by_cases hlt : e < sz
  · have hmax : max sz.toNat e.toNat = sz.toNat := max_eq_left (UInt64.le_iff_toNat_le.mp (UInt64.le_of_lt hlt))
    have hroom := h.room
    rw [pages_eq] at hroom
    rw [hmax, if_neg (by omega)]
    refine ⟨sz, t, l, rfl, h, ?_⟩
    rw [allocuvm, if_neg (UInt64.not_le.mpr he), if_pos hlt]
    rfl
  · have hle : sz ≤ e := UInt64.not_lt.mp hlt
    have hmax : max sz.toNat e.toNat = e.toNat := max_eq_right (UInt64.le_iff_toNat_le.mp hle)
    have halloc := h.allocuvm he hle
    rw [pages_eq] at halloc
    rw [hmax]
    by_cases hroom : imagePages (pagesOf e.toNat) ≤ l₀.length
    · rw [if_pos hroom] at halloc
      obtain ⟨t', l', heq, h'⟩ := halloc
      rw [if_neg (by omega)]
      exact ⟨e, t', l', rfl, h', heq⟩
    · rw [if_neg hroom] at halloc
      rw [if_pos (by omega)]
      exact halloc

theorem File.readi_of_le {x : File} {off n : Nat} (hx : x.size < 2 ^ 32) (h : off + n ≤ x.size) :
    x.readi off n = ((n : Int), x.read off n) := by
  rw [File.readi, if_pos (by omega), File.length_read, show min n (x.size - off) = n by omega]

theorem toNat_field (l : List UInt8) (o : Nat) : (UInt64.ofNat (field l o 8)).toNat = field l o 8 := by
  rw [UInt64.toNat_ofNat']
  exact Nat.mod_eq_of_lt (field_lt l o 8)

theorem loadSegments_eq [Fs.Devsw] (hzero : 0 ∉ l₀) (hop : Opened sb s₀.kernel.fs ip) (n : Nat) (off : UInt32)
    (h : NewImage kend l₀ sz t l) (hs : Reached l₀ s₀ l astray s) :
    (segments (fileOf s₀.kernel.fs ip) l₀.length n off.toNat sz.toNat astray).Describes kend l₀ s₀
      (loadSegments kend sb ip n off t sz s) := by
  induction n generalizing off t sz l astray s with
  | zero => exact ⟨sz, t, l, s, rfl, h, hs, rfl⟩
  | succ n ih =>
      have hstop : Loading.Describes kend l₀ s₀ (.stop sz.toNat astray) (.ok ((t, none), s)) :=
        ⟨sz, t, l, s, rfl, h, hs, rfl⟩
      have hsize := hop.size_lt
      have hop' : Opened sb s.kernel.fs ip := by
        rw [hs.kernel]
        exact hop
      have hread := hop'.fsM_readi off 56
      rw [hs.kernel, show (56 : UInt32).toNat = 56 from rfl] at hread
      rw [segments, loadSegments, bind_ok hread]
      by_cases hin : (fileOf s₀.kernel.fs ip).size < off.toNat + 56
      · rw [if_pos hin]
        have hfst := File.readi_fst (fileOf s₀.kernel.fs ip) off.toNat 56 (by omega) (by omega)
        generalize (fileOf s₀.kernel.fs ip).readi off.toNat 56 = q at hfst
        obtain ⟨r, bs⟩ := q
        have hr : r ≠ 56 := fun hr => by
          have := hfst.mp hr
          omega
        simp only [if_pos hr]
        exact hstop
      · rw [if_neg hin, File.readi_of_le (by omega) (by omega)]
        simp only [Nat.cast_ofNat, ne_eq, not_true_eq_false, if_false]
        have hnext : (off + 56).toNat = off.toNat + 56 := by
          rw [UInt32.toNat_add, Nat.mod_eq_of_lt (by show _ + 56 < _; omega)]
          rfl
        have hvaddr := toNat_field ((fileOf s₀.kernel.fs ip).read off.toNat 56) 16
        have hfilesz := toNat_field ((fileOf s₀.kernel.fs ip).read off.toNat 56) 32
        have hmemsz := toNat_field ((fileOf s₀.kernel.fs ip).read off.toNat 56) 40
        change _ = ((fileOf s₀.kernel.fs ip).proghdr off.toNat).vaddr at hvaddr
        change _ = ((fileOf s₀.kernel.fs ip).proghdr off.toNat).filesz at hfilesz
        change _ = ((fileOf s₀.kernel.fs ip).proghdr off.toNat).memsz at hmemsz
        generalize UInt64.ofNat (field ((fileOf s₀.kernel.fs ip).read off.toNat 56) 16 8) = vaddr at hvaddr ⊢
        generalize UInt64.ofNat (field ((fileOf s₀.kernel.fs ip).read off.toNat 56) 32 8) = filesz at hfilesz ⊢
        generalize UInt64.ofNat (field ((fileOf s₀.kernel.fs ip).read off.toNat 56) 40 8) = memsz at hmemsz ⊢
        by_cases htype : ((fileOf s₀.kernel.fs ip).proghdr off.toNat).type = 1
        · rw [if_neg (not_not.mpr htype),
            if_neg (show ¬ ¬ field ((fileOf s₀.kernel.fs ip).read off.toNat 56) 0 4 = 1 from not_not.mpr htype)]
          clear hread hin htype
          generalize hph : (fileOf s₀.kernel.fs ip).proghdr off.toNat = ph at hvaddr hfilesz hmemsz ⊢
          have hoff : (UInt32.ofNat (field ((fileOf s₀.kernel.fs ip).read off.toNat 56) 8 8)).toNat =
            ph.offset := by
            rw [UInt32.toNat_ofNat', ← hph]
            rfl
          generalize UInt32.ofNat (field ((fileOf s₀.kernel.fs ip).read off.toNat 56) 8 8) = offset at hoff ⊢
          by_cases hacc : ph.Accepted
          · have hbase : ph.vaddr + ph.memsz < kernbase.toNat := hacc.2
            have hkern : kernbase.toNat < 2 ^ 64 := kernbase.toNat_lt
            have hle : ph.filesz ≤ ph.memsz := hacc.1
            have hsum : (vaddr + memsz).toNat = ph.vaddr + ph.memsz := by
              rw [UInt64.toNat_add, hvaddr, hmemsz, Nat.mod_eq_of_lt (by omega)]
            have hfits : ¬ memsz < filesz := by
              rw [UInt64.lt_iff_toNat_lt]
              omega
            have hwrap : ¬ vaddr + memsz < vaddr := by
              rw [UInt64.lt_iff_toNat_lt]
              omega
            have halloc := alloc_segment h (e := vaddr + memsz) (UInt64.lt_iff_toNat_lt.mpr (by omega))
            rw [hsum] at halloc
            change if _ < imagePages (pagesOf (ph.top sz.toNat)) then _ else _ at halloc
            rw [if_neg (not_not.mpr hacc), if_neg hfits, if_neg hwrap]
            by_cases hroom : l₀.length < imagePages (pagesOf (ph.top sz.toNat))
            · rw [if_pos hroom] at halloc ⊢
              rw [← hs.mem] at halloc
              rw [bind_error (vmM_error halloc)]
              rfl
            · rw [if_neg hroom] at halloc ⊢
              obtain ⟨sz', t', l', hsz', h', heq⟩ := halloc
              rw [← hs.mem] at heq
              rw [bind_ok (vmM_eq heq)]
              simp only
              have hne : sz' ≠ 0 := by
                rintro rfl
                exact absurd h'.pos (by decide)
              have htop : sz'.toNat = ph.top sz.toNat := hsz'
              have hend : ph.vaddr + ph.memsz ≤ ph.top sz.toNat := le_max_right ..
              rw [if_neg hne]
              have hmod : vaddr % 4096 = 0 ↔ ph.vaddr % 4096 = 0 := by
                rw [← UInt64.toNat_inj, UInt64.toNat_mod, hvaddr]
                rfl
              by_cases halign : ph.vaddr % 4096 = 0
              · rw [if_neg (not_not.mpr halign), if_neg (not_not.mpr (hmod.mpr halign))]
                have hlen : filesz.toUInt32.toNat = ph.length := by
                  rw [UInt64.toNat_toUInt32, hfilesz]
                  rfl
                have hshort : ph.length ≤ ph.filesz := Nat.mod_le ..
                have hload := loaduvm_eq vaddr offset filesz.toUInt32 hzero h'
                  (s := { s with mem := ⟨l'⟩ }) rfl hop' (by rw [hvaddr]; exact halign) (by omega)
                have hfile : fileOf ({ s with mem := ⟨l'⟩ } : State).kernel.fs ip = fileOf s₀.kernel.fs ip :=
                  congrArg (fun k : Kernel.State => fileOf k.fs ip) hs.kernel
                rw [hvaddr, hlen, htop, hoff, hfile] at hload
                by_cases hz : ph.AtZero ∧ ph.top sz.toNat ≤ 4096
                · rw [if_pos ⟨hz.1.1, hz.1.2, hz.2⟩] at hload
                  rw [if_pos hz, bind_error hload]
                  rfl
                · rw [if_neg fun hc => hz ⟨⟨hc.1, hc.2.1⟩, hc.2.2⟩] at hload
                  obtain ⟨w, hw, hfine⟩ := hload
                  have hs' := (hs.setMem l').addStores (w := w)
                    (b := decide (ph.AtZero ∧ ph.offset < (fileOf s₀.kernel.fs ip).size)) (hfine.trans (by
                      rw [decide_eq_false_iff_not]
                      exact not_congr ⟨fun hc => ⟨⟨hc.1, hc.2.1⟩, hc.2.2⟩, fun hc => ⟨hc.1.1, hc.1.2, hc.2⟩⟩))
                  rw [if_neg hz, bind_ok hw]
                  by_cases hall : ph.length = 0 ∨ ph.offset + ph.length ≤ (fileOf s₀.kernel.fs ip).size
                  · rw [if_pos hall, decide_eq_true hall, if_pos rfl, ← hnext, ← htop]
                    exact ih _ h' hs'
                  · rw [if_neg hall, decide_eq_false hall]
                    exact ⟨sz', t', l', _, htop, h', hs', rfl⟩
              · rw [if_pos halign, if_pos (mt hmod.mp halign)]
                exact ⟨sz', t', l', _, htop, h', hs.setMem l', rfl⟩
          · rw [if_pos hacc]
            by_cases hfits : memsz < filesz
            · rw [if_pos hfits]
              exact hstop
            · rw [if_neg hfits]
              by_cases hwrap : vaddr + memsz < vaddr
              · rw [if_pos hwrap]
                exact hstop
              · have hbase : kernbase ≤ vaddr + memsz := by
                  rw [UInt64.lt_iff_toNat_lt] at hfits hwrap
                  rw [UInt64.le_iff_toNat_le]
                  refine le_of_not_gt fun hlt => hacc ⟨by omega, ?_⟩
                  rw [UInt64.toNat_add] at hwrap hlt
                  have := vaddr.toNat_lt
                  have := memsz.toNat_lt
                  omega
                have heq : allocuvm kend t sz (vaddr + memsz) s.mem = .ok ((t, 0), s.mem) := by
                  rw [allocuvm, if_pos hbase]
                  rfl
                rw [if_neg hwrap, bind_ok (vmM_reads_eq heq)]
                simp only [if_true]
                exact hstop
        · rw [if_pos htype, if_pos (show ¬ field ((fileOf s₀.kernel.fs ip).read off.toNat 56) 0 4 =
            1 from htype), ← hnext]
          exact ih _ h hs

end Xv6.Machine
