import Mathlib

/-! The boot loader, `bootmain.c`: it reads the kernel's image from the disk, from sector 1 on, and jumps to it. -/

namespace Xv6.Boot

abbrev Memory := UInt32 → UInt8

abbrev Sectors := Nat → Fin 512 → UInt8

variable {disk : Sectors} {m : Memory}

/-- The sector that the controller takes the four registers to mean; the upper bits of the last one choose the drive
and the mode. -/
def lba (offset : UInt32) : Nat :=
  offset.toUInt8.toNat + 2 ^ 8 * (offset >>> 8).toUInt8.toNat + 2 ^ 16 * (offset >>> 16).toUInt8.toNat +
    2 ^ 24 * (((offset >>> 24).toUInt8 ||| 0xE0) &&& 0x0F).toNat

def readsect (disk : Sectors) (dst offset : UInt32) (m : Memory) : Memory := fun a =>
  if h : (a - dst).toNat < 512 then disk (lba offset) ⟨(a - dst).toNat, h⟩ else m a

/-- The loop of `readseg`, for so many rounds. -/
def readsects (disk : Sectors) (epa : UInt32) : Nat → UInt32 → UInt32 → Memory → Option Memory
  | 0, _, _, _ => none
  | n + 1, pa, offset, m =>
      if pa < epa then readsects disk epa n (pa + 512) (offset + 1) (readsect disk pa offset m) else some m

def readseg (disk : Sectors) (fuel : Nat) (pa count offset : UInt32) (m : Memory) : Option Memory :=
  readsects disk (pa + count) fuel (pa - offset % 512) (offset / 512 + 1) m

def stosb (addr : UInt32) (data : UInt8) (cnt : UInt32) (m : Memory) : Memory := fun a =>
  if a - addr < cnt then data else m a

def word (b : Nat → UInt8) : UInt32 :=
  (b 0).toUInt32 ||| (b 1).toUInt32 <<< 8 ||| (b 2).toUInt32 <<< 16 ||| (b 3).toUInt32 <<< 24

def scratch : UInt32 := 0x10000

def x (m : Memory) (n : Nat) : UInt32 := word fun i => m (scratch + UInt32.ofNat (4 * n + i))

def isHeader (x : Nat → UInt32) (n : Nat) : Bool := x n == 0x1BADB002 && x n + x (n + 1) + x (n + 2) == 0

structure Header where
  magic : UInt32
  flags : UInt32
  checksum : UInt32
  header_addr : UInt32
  load_addr : UInt32
  load_end_addr : UInt32
  bss_end_addr : UInt32
  entry_addr : UInt32
  deriving DecidableEq

def Header.at (x : Nat → UInt32) (n : Nat) : Header :=
  ⟨x n, x (n + 1), x (n + 2), x (n + 3), x (n + 4), x (n + 5), x (n + 6), x (n + 7)⟩

inductive Outcome
  | returns
  | jumps (entry : UInt32)
  deriving DecidableEq, Repr

/-- `hdr` points into the scratch space, and every use of a field reads it there again. -/
def bootmain (disk : Sectors) (fuel : Nat) (m : Memory) : Option (Outcome × Memory) := do
  let m ← readseg disk fuel scratch 8192 0 m
  match (List.range 2048).find? (isHeader (x m)) with
  | none => some (.returns, m)
  | some n =>
      let hdr := Header.at (x m) n
      if hdr.flags &&& 0x10000 = 0 then some (.returns, m)
      else if hdr.header_addr < hdr.load_addr then some (.returns, m)
      else if hdr.load_end_addr < hdr.load_addr then some (.returns, m)
      else do
        let m ← readseg disk fuel hdr.load_addr (hdr.load_end_addr - hdr.load_addr)
          (UInt32.ofNat n * 4 - (hdr.header_addr - hdr.load_addr)) m
        let hdr := Header.at (x m) n
        let m :=
          if hdr.load_end_addr < hdr.bss_end_addr then
            stosb hdr.load_end_addr 0 (hdr.bss_end_addr - hdr.load_end_addr) m
          else m
        some (.jumps (Header.at (x m) n).entry_addr, m)

/-! ### Reading sectors -/

def image (disk : Sectors) (i : Nat) : UInt8 := disk (i / 512 + 1) ⟨i % 512, Nat.mod_lt _ (by decide)⟩

def loaded (disk : Sectors) (base first len : Nat) (m : Memory) : Memory := fun a =>
  if base ≤ a.toNat ∧ a.toNat < base + len then image disk (first + (a.toNat - base)) else m a

theorem drive_bits (b : UInt8) : ((b ||| 0xE0) &&& 0x0F).toNat = b.toNat % 16 := by
  have hall : ∀ i : Fin 256, ((UInt8.ofFin i ||| 0xE0) &&& 0x0F).toNat = i.val % 16 := by decide +kernel
  exact hall b.toFin

theorem lba_eq {offset : UInt32} (h : offset.toNat < 2 ^ 28) : lba offset = offset.toNat := by
  unfold lba
  rw [drive_bits]
  have h8 : (8 : UInt32).toNat = 8 := rfl
  have h16 : (16 : UInt32).toNat = 16 := rfl
  have h24 : (24 : UInt32).toNat = 24 := rfl
  simp only [UInt32.toNat_toUInt8, UInt32.toNat_shiftRight, h8, h16, h24, Nat.shiftRight_eq_div_pow, Nat.reduceMod,
    Nat.reducePow]
  omega

theorem sub_lt_iff {a b : UInt32} {n : Nat} (h : b.toNat + n ≤ 2 ^ 32) :
    (a - b).toNat < n ↔ b.toNat ≤ a.toNat ∧ a.toNat < b.toNat + n := by
  have := a.toNat_lt
  have := b.toNat_lt
  rw [UInt32.toNat_sub]
  omega

theorem readsect_eq {pa offset : UInt32} {k : Nat} (hpa : pa.toNat + 512 ≤ 2 ^ 32) (hoff : offset.toNat = k + 1)
    (hk : k + 1 < 2 ^ 28) : readsect disk pa offset m = loaded disk pa.toNat (512 * k) 512 m := by
  funext a
  unfold readsect loaded
  have hiff := sub_lt_iff (a := a) hpa
  by_cases h : (a - pa).toNat < 512
  · have hin := hiff.mp h
    have hsub : (a - pa).toNat = a.toNat - pa.toNat := UInt32.toNat_sub_of_le _ _ (UInt32.le_iff_toNat_le.mpr hin.1)
    rw [dif_pos h, if_pos hin, lba_eq (by omega), hoff, image]
    congr 1
    · omega
    · apply Fin.ext
      show (a - pa).toNat = (512 * k + (a.toNat - pa.toNat)) % 512
      omega
  · rw [dif_neg h, if_neg fun hc => h (hiff.mpr hc)]

theorem loaded_append {base first : Nat} {a b : Nat} :
    loaded disk (base + a) (first + a) b (loaded disk base first a m) = loaded disk base first (a + b) m := by
  funext c
  unfold loaded
  by_cases h : base + a ≤ c.toNat ∧ c.toNat < base + a + b
  · rw [if_pos h, if_pos (by omega)]
    congr 1
    omega
  · rw [if_neg h]
    by_cases h' : base ≤ c.toNat ∧ c.toNat < base + a
    · rw [if_pos h', if_pos (by omega)]
    · rw [if_neg h', if_neg (by omega)]

theorem loaded_zero {base first : Nat} : loaded disk base first 0 m = m := by
  funext c
  exact if_neg (by omega)

theorem readsects_eq {epa pa offset : UInt32} {k n fuel : Nat} (hoff : offset.toNat = k + 1) (hk : k + n < 2 ^ 27)
    (hlt : 0 < n → pa.toNat + 512 * (n - 1) < epa.toNat) (hle : epa.toNat ≤ pa.toNat + 512 * n)
    (hend : pa.toNat + 512 * n < 2 ^ 32) (hf : n < fuel) :
    readsects disk epa fuel pa offset m = some (loaded disk pa.toNat (512 * k) (512 * n) m) := by
  induction n generalizing pa offset k m fuel with
  | zero =>
      obtain ⟨fuel, rfl⟩ : ∃ f, fuel = f + 1 := ⟨fuel - 1, by omega⟩
      rw [readsects, if_neg (by rw [UInt32.lt_iff_toNat_lt]; omega), Nat.mul_zero, loaded_zero]
  | succ n ih =>
      obtain ⟨fuel, rfl⟩ : ∃ f, fuel = f + 1 := ⟨fuel - 1, by omega⟩
      have hpa : (pa + 512).toNat = pa.toNat + 512 := by
        have h512 : (512 : UInt32).toNat = 512 := rfl
        rw [UInt32.toNat_add, h512]
        omega
      have hoff' : (offset + 1).toNat = k + 1 + 1 := by
        rw [UInt32.toNat_add, hoff, UInt32.toNat_one]
        omega
      rw [readsects, if_pos (by rw [UInt32.lt_iff_toNat_lt]; have := hlt (by omega); omega),
        readsect_eq (by omega) hoff (by omega), ih hoff' (by omega) (fun hn => by have := hlt (by omega); omega)
          (by omega)
          (by omega) (by omega), hpa, Nat.mul_succ, Nat.mul_succ, loaded_append, Nat.add_comm 512]

theorem readseg_eq {pa count offset : UInt32} {fuel : Nat} (hpa : offset.toNat % 512 ≤ pa.toNat)
    (hend : pa.toNat + count.toNat + 512 ≤ 2 ^ 32) (hf : (count.toNat + 1023) / 512 < fuel) :
    readseg disk fuel pa count offset m = some (loaded disk (pa.toNat - offset.toNat % 512)
      (offset.toNat - offset.toNat % 512) (512 * ((count.toNat + offset.toNat % 512 + 511) / 512)) m) := by
  have h512 : (512 : UInt32).toNat = 512 := rfl
  have hmod : (offset % 512).toNat = offset.toNat % 512 := UInt32.toNat_mod _ _
  have hdiv : (offset / 512).toNat = offset.toNat / 512 := UInt32.toNat_div _ _
  have hoff := offset.toNat_lt
  have hsub : (pa - offset % 512).toNat = pa.toNat - offset.toNat % 512 := by
    rw [UInt32.toNat_sub_of_le _ _ (UInt32.le_iff_toNat_le.mpr (hmod ▸ hpa)), hmod]
  have hsect : (offset / 512 + 1).toNat = offset.toNat / 512 + 1 := by
    rw [UInt32.toNat_add, hdiv, UInt32.toNat_one]
    omega
  have hepa : (pa + count).toNat = pa.toNat + count.toNat := by
    rw [UInt32.toNat_add]
    omega
  rw [readseg, readsects_eq hsect (n := (count.toNat + offset.toNat % 512 + 511) / 512) (by omega)
    (by omega) (by omega)
    (by omega) (by omega), hsub, show 512 * (offset.toNat / 512) = offset.toNat - offset.toNat % 512 by omega]

/-! ### The header -/

def iword (disk : Sectors) (n : Nat) : UInt32 := word fun i => image disk (4 * n + i)

theorem word_congr {b b' : Nat → UInt8} (h : ∀ i < 4, b i = b' i) : word b = word b' := by
  unfold word
  rw [h 0 (by decide), h 1 (by decide), h 2 (by decide), h 3 (by decide)]

theorem x_eq {k : Nat} (hk : k < 2048) (hm : ∀ a : UInt32, 65536 + 4 * k ≤ a.toNat → a.toNat < 65536 + 4 * k + 4 →
    m a = image disk (a.toNat - 65536)) : x m k = iword disk k := by
  have hbyte : ∀ i < 4, m (scratch + UInt32.ofNat (4 * k + i)) = image disk (4 * k + i) := by
    intro i hi
    have ha : (scratch + UInt32.ofNat (4 * k + i)).toNat = 65536 + (4 * k + i) := by
      have hs : scratch.toNat = 65536 := rfl
      rw [UInt32.toNat_add, UInt32.toNat_ofNat', hs]
      omega
    rw [hm _ (by omega) (by omega), ha, Nat.add_sub_cancel_left]
  exact word_congr hbyte

theorem header_eq {n : Nat} (hn : n + 8 ≤ 2048) (hm : ∀ a : UInt32, 65536 + 4 * n ≤ a.toNat →
    a.toNat < 65536 + 4 * n + 32 → m a = image disk (a.toNat - 65536)) :
    Header.at (x m) n = Header.at (iword disk) n := by
  have hx : ∀ i < 8, x m (n + i) = iword disk (n + i) := by
    intro i hi
    exact x_eq (by omega) fun a ha ha' => hm a (by omega) (by omega)
  unfold Header.at
  rw [show x m n = iword disk n from hx 0 (by decide), hx 1 (by decide), hx 2 (by decide), hx 3 (by decide),
    hx 4 (by decide), hx 5 (by decide), hx 6 (by decide), hx 7 (by decide)]

def Header.offset (h : Header) (n : Nat) : Nat := 4 * n - (h.header_addr.toNat - h.load_addr.toNat)

/-- An image with its first header at word `n`: the whole header is in the first 8192 bytes, and the sectors
that hold the part to be loaded go to addresses behind the header's place in the scratch space and do not reach
the end of the address space. -/
structure Loadable (disk : Sectors) (n : Nat) (h : Header) : Prop where
  fits : n + 8 ≤ 2048
  header : h = Header.at (iword disk) n
  found : isHeader (iword disk) n = true
  first : ∀ k < n, isHeader (iword disk) k = false
  flags : h.flags &&& 0x10000 ≠ 0
  load_le : h.load_addr ≤ h.header_addr
  end_le : h.load_addr ≤ h.load_end_addr
  start : h.header_addr.toNat - h.load_addr.toNat ≤ 4 * n
  above : 65536 + 4 * n + 32 + h.offset n % 512 ≤ h.load_addr.toNat
  below : h.load_end_addr.toNat + 512 ≤ 2 ^ 32

theorem stosb_eq {addr e : UInt32} (h : addr ≤ e) (d : UInt8) (a : UInt32) :
    stosb addr d (e - addr) m a = if addr ≤ a ∧ a < e then d else m a := by
  have hle := UInt32.le_iff_toNat_le.mp h
  have he := e.toNat_lt
  have hiff : a - addr < e - addr ↔ addr ≤ a ∧ a < e := by
    rw [UInt32.lt_iff_toNat_lt, UInt32.toNat_sub_of_le _ _ h, sub_lt_iff (by omega), UInt32.le_iff_toNat_le,
      UInt32.lt_iff_toNat_lt]
    omega
  rw [stosb]
  exact if_congr hiff rfl rfl

theorem scratch_loaded {fuel : Nat} (hf : 2 ^ 23 + 2 ≤ fuel) (m : Memory) :
    readseg disk fuel scratch 8192 0 m = some (loaded disk 65536 0 8192 m) := by
  have hs : scratch.toNat = 65536 := rfl
  have hc : (8192 : UInt32).toNat = 8192 := rfl
  have hread : readseg disk fuel scratch 8192 0 m = _ :=
    readseg_eq (by simp) (by rw [hs, hc]; decide) (by rw [hc]; omega)
  simpa [hs, hc] using hread

theorem find_header {n : Nat} {h : Header} (hl : Loadable disk n h) (m : Memory) :
    (List.range 2048).find? (isHeader (x (loaded disk 65536 0 8192 m))) = some n := by
  have hfit := hl.fits
  have hx : ∀ k < 2048, x (loaded disk 65536 0 8192 m) k = iword disk k := by
    intro k hk
    refine x_eq hk fun a ha ha' => ?_
    rw [loaded, if_pos (by omega), Nat.zero_add]
  have hhdr : ∀ k ≤ n, isHeader (x (loaded disk 65536 0 8192 m)) k = isHeader (iword disk) k := by
    intro k hk
    rw [isHeader, isHeader, hx k (by omega), hx (k + 1) (by omega), hx (k + 2) (by omega)]
  refine List.find?_range_eq_some.mpr ⟨?_, List.mem_range.mpr (by omega), fun k hk => ?_⟩
  · rw [hhdr n le_rfl, hl.found]
  · rw [hhdr k hk.le, hl.first k hk]
    rfl

/-- The header of a small kernel: 700 bytes for `0x100000`, from byte 104 of the image on, and 300 zeros. -/
def smallWords : List UInt32 :=
  [0x1BADB002, 0x10000, 0xE4514FFE, 0x100000, 0x100000, 0x1002BC, 0x1003E8, 0x100020]

def smallDisk : Sectors := fun sector i =>
  if sector = 1 then
    if i.val < 104 then 0x1B else ((smallWords.getD ((i - 104) / 4) 0) >>> UInt32.ofNat (8 * (i % 4))).toUInt8
  else UInt8.ofNat (i + sector)

theorem smallDisk_loadable : Loadable smallDisk 26 (Header.at (smallWords.getD · 0) 0) where
  fits := by decide
  header := by decide +kernel
  found := by decide +kernel
  first := by decide +kernel
  flags := by decide
  load_le := by decide
  end_le := by decide
  start := by decide
  above := by decide
  below := by decide

end Xv6.Boot
