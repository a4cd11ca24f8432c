import Xv6.Lib.Copy

namespace Xv6

open Lib.Copy

abbrev Mem := UInt64 → UInt8

/-- The loop `while(n-- > 0) *d++ = *s++;`. -/
def copyForward : Nat → UInt64 → UInt64 → Mem → Mem
  | 0, _, _, m => m
  | n + 1, d, s, m => copyForward n (d + 1) (s + 1) (Function.update m d (m s))

/-- The loop `while(n-- > 0) *--d = *--s;`. -/
def copyBackward : Nat → UInt64 → UInt64 → Mem → Mem
  | 0, _, _, m => m
  | n + 1, d, s, m => copyBackward n (d - 1) (s - 1) (Function.update m (d - 1) (m (s - 1)))

/-- The kernel's `memmove`, from string.c; the result is `dst` with the memory it leaves. -/
def memmove (dst src : UInt64) (n : UInt32) (m : Mem) : UInt64 × Mem :=
  if src < dst ∧ src + n.toUInt64 > dst then
    (dst, copyBackward n.toNat (dst + n.toUInt64) (src + n.toUInt64) m)
  else
    (dst, copyForward n.toNat dst src m)

def Ulib.memmove (vdst vsrc : UInt64) (n : Int32) (m : Mem) : UInt64 × Mem :=
  (vdst, copyForward n.toInt.toNat vdst vsrc m)

def transfer (d s : UInt64) (i : Nat) : UInt64 × UInt64 := (d + UInt64.ofNat i, s + UInt64.ofNat i)

theorem transfer_succ (d s : UInt64) (i : Nat) : transfer d s (i + 1) = transfer (d + 1) (s + 1) i := by
  have hcast : UInt64.ofNat (i + 1) = 1 + UInt64.ofNat i := by
    rw [UInt64.ofNat_add, UInt64.add_comm]; rfl
  simp only [transfer, hcast, UInt64.add_assoc]

theorem copyForward_eq (n : Nat) (d s : UInt64) (m : Mem) :
    copyForward n d s m = copies ((List.range n).map (transfer d s)) m := by
  induction n generalizing d s m with
  | zero => rfl
  | succ n ih =>
      have htail : (List.range n).map (transfer d s ∘ Nat.succ) = (List.range n).map (transfer (d + 1) (s + 1)) :=
        List.map_congr_left fun i _ => transfer_succ d s i
      rw [copyForward, ih, List.range_succ_eq_map, List.map_cons, List.map_map, htail]
      simp [copies, transfer]

theorem copyBackward_eq (n : Nat) (d s : UInt64) (m : Mem) :
    copyBackward n (d + UInt64.ofNat n) (s + UInt64.ofNat n) m =
      copies ((List.range n).reverse.map (transfer d s)) m := by
  induction n generalizing m with
  | zero => rfl
  | succ n ih =>
      have hback (a : UInt64) : a + UInt64.ofNat (n + 1) - 1 = a + UInt64.ofNat n := by
        rw [UInt64.ofNat_add, ← UInt64.add_assoc]
        exact UInt64.add_sub_cancel _ _
      rw [copyBackward, hback, hback, ih, List.range_succ, List.reverse_append]
      rfl

/-- The bytes at `d` are those that were at `s`, and no other byte is changed. -/
structure Moved (d s : UInt64) (n : Nat) (m m' : Mem) : Prop where
  moved : ∀ i < n, m' (d + UInt64.ofNat i) = m (s + UInt64.ofNat i)
  kept : ∀ a : UInt64, ¬ (d.toNat ≤ a.toNat ∧ a.toNat < d.toNat + n) → m' a = m a

theorem toNat_add_ofNat {a : UInt64} {i : Nat} (h : a.toNat + i < 2 ^ 64) :
    (a + UInt64.ofNat i).toNat = a.toNat + i := by
  rw [UInt64.toNat_add, UInt64.toNat_ofNat', Nat.mod_eq_of_lt (a := i) (by omega), Nat.mod_eq_of_lt h]

variable {d s : UInt64} {n : Nat} {m : Mem}

theorem copies_moved {l : List Nat} (hl : ∀ i, i ∈ l ↔ i < n) (hd : d.toNat + n ≤ 2 ^ 64)
    (h : Apart (l.map (transfer d s))) : Moved d s n m (copies (l.map (transfer d s)) m) := by
  constructor
  · intro i hi
    exact copies_of_mem h (List.mem_map_of_mem ((hl i).mpr hi))
  · intro a ha
    apply copies_of_notMem
    intro hin
    obtain ⟨p, hp, hpa⟩ := List.mem_map.mp hin
    obtain ⟨i, hi, rfl⟩ := List.mem_map.mp hp
    have hi := (hl i).mp hi
    have hat := toNat_add_ofNat (a := d) (i := i) (by omega)
    have : (d + UInt64.ofNat i).toNat = a.toNat := by rw [← hpa]; rfl
    exact ha ⟨by omega, by omega⟩

theorem add_ofNat_ne {a b : UInt64} {i j : Nat} (ha : a.toNat + i < 2 ^ 64) (hb : b.toNat + j < 2 ^ 64)
    (h : a.toNat + i ≠ b.toNat + j) : a + UInt64.ofNat i ≠ b + UInt64.ofNat j := by
  intro heq
  have := congrArg UInt64.toNat heq
  rw [toNat_add_ofNat ha, toNat_add_ofNat hb] at this
  exact h this

theorem copyForward_moved (hd : d.toNat + n ≤ 2 ^ 64) (hs : s.toNat + n ≤ 2 ^ 64)
    (h : d.toNat ≤ s.toNat ∨ s.toNat + n ≤ d.toNat) : Moved d s n m (copyForward n d s m) := by
  rw [copyForward_eq]
  apply copies_moved (fun i => List.mem_range) hd
  refine List.pairwise_map.mpr (List.pairwise_lt_range.imp_of_mem ?_)
  intro i j _ hj hij
  have hj := List.mem_range.mp hj
  exact ⟨add_ofNat_ne (by omega) (by omega) (by omega), add_ofNat_ne (by omega) (by omega) (by omega)⟩

theorem copyBackward_moved (hd : d.toNat + n ≤ 2 ^ 64) (hs : s.toNat + n ≤ 2 ^ 64) (h : s.toNat ≤ d.toNat) :
    Moved d s n m (copyBackward n (d + UInt64.ofNat n) (s + UInt64.ofNat n) m) := by
  rw [copyBackward_eq]
  apply copies_moved (fun i => by rw [List.mem_reverse, List.mem_range]) hd
  refine List.pairwise_map.mpr (List.pairwise_reverse.mpr (List.pairwise_lt_range.imp_of_mem ?_))
  intro i j _ hj hij
  have hj := List.mem_range.mp hj
  exact ⟨add_ofNat_ne (by omega) (by omega) (by omega), add_ofNat_ne (by omega) (by omega) (by omega)⟩

theorem toUInt64_eq (n : UInt32) : n.toUInt64 = UInt64.ofNat n.toNat := by
  apply UInt64.toNat.inj
  have hn := n.toNat_lt
  rw [UInt32.toNat_toUInt64, UInt64.toNat_ofNat', Nat.mod_eq_of_lt (by omega)]

abbrev Overlaps (d s : UInt64) (n : Nat) : Prop := s.toNat < d.toNat ∧ d.toNat < s.toNat + n

/-- The pointer comparison of the code does not go wrong at the end of the address space: when the
source lies below the destination, its end has not wrapped to zero. -/
theorem backward_iff {dst src : UInt64} {n : UInt32} (hd : dst.toNat + n.toNat ≤ 2 ^ 64) :
    (src < dst ∧ src + n.toUInt64 > dst) ↔ Overlaps dst src n.toNat := by
  have hbelow (h : src.toNat < dst.toNat) : (src + n.toUInt64).toNat = src.toNat + n.toNat := by
    rw [toUInt64_eq, toNat_add_ofNat (by omega)]
  constructor
  · rintro ⟨hlt, hgt⟩
    have hlt := UInt64.lt_iff_toNat_lt.mp hlt
    have hgt := UInt64.lt_iff_toNat_lt.mp hgt
    rw [hbelow hlt] at hgt
    exact ⟨hlt, hgt⟩
  · rintro ⟨hlt, hgt⟩
    rw [← hbelow hlt] at hgt
    exact ⟨UInt64.lt_iff_toNat_lt.mpr hlt, UInt64.lt_iff_toNat_lt.mpr hgt⟩

theorem moved_memmove (dst src : UInt64) (n : UInt32) (m : Mem)
    (hd : dst.toNat + n.toNat ≤ 2 ^ 64) (hs : src.toNat + n.toNat ≤ 2 ^ 64) :
    Moved dst src n.toNat m (memmove dst src n m).2 := by
  rw [memmove]
  split
  next h =>
    have hin := (backward_iff hd).mp h
    rw [toUInt64_eq]
    exact copyBackward_moved hd hs (by omega)
  next h =>
    rw [backward_iff hd] at h
    exact copyForward_moved hd hs (by omega)

theorem memmove_correct (dst src : UInt64) (n : UInt32) (m : Mem)
    (hd : dst.toNat + n.toNat ≤ 2 ^ 64) (hs : src.toNat + n.toNat ≤ 2 ^ 64) :
    (∀ i < n.toNat, (memmove dst src n m).2 (dst + UInt64.ofNat i) = m (src + UInt64.ofNat i)) ∧
      (∀ a : UInt64, ¬ (dst.toNat ≤ a.toNat ∧ a.toNat < dst.toNat + n.toNat) →
      (memmove dst src n m).2 a = m a) := by
  have h := moved_memmove dst src n m hd hs
  exact ⟨h.moved, h.kept⟩

theorem memmove_correct_overlap :
    (memmove 2 1 3 fun a => a.toUInt8).2 4 = 3 ∧ (memmove 2 1 3 fun a => a.toUInt8).2 5 = 5 := by
  have h := memmove_correct 2 1 3 (fun a => a.toUInt8) (by decide) (by decide)
  exact ⟨h.1 2 (by decide), h.2 5 (by decide)⟩

/-! ### The user library's copy -/

theorem copyForward_succ (n : Nat) (d s : UInt64) (m : Mem) :
    copyForward (n + 1) d s m =
      Function.update (copyForward n d s m) (d + UInt64.ofNat n) (copyForward n d s m (s + UInt64.ofNat n)) := by
  rw [copyForward_eq, copyForward_eq, List.range_succ, List.map_append, copies_append]
  rfl

theorem copyForward_kept (hd : d.toNat + n ≤ 2 ^ 64) {a : UInt64}
    (ha : ¬ (d.toNat ≤ a.toNat ∧ a.toNat < d.toNat + n)) : copyForward n d s m a = m a := by
  induction n with
  | zero => rfl
  | succ n ih =>
      have hne : a ≠ d + UInt64.ofNat n := by
        rintro rfl
        rw [toNat_add_ofNat (by omega)] at ha
        omega
      rw [copyForward_succ, Function.update_of_ne hne]
      exact ih (by omega) (by omega)

theorem copyForward_at (hd : d.toNat + n ≤ 2 ^ 64) {i : Nat} (hi : i < n) :
    copyForward n d s m (d + UInt64.ofNat i) = copyForward i d s m (s + UInt64.ofNat i) := by
  induction n with
  | zero => omega
  | succ n ih =>
      rw [copyForward_succ]
      rcases Nat.lt_succ_iff_lt_or_eq.mp hi with hlt | rfl
      · rw [Function.update_of_ne (add_ofNat_ne (by omega) (by omega) (by omega))]
        exact ih (by omega) hlt
      · rw [Function.update_self]

section

variable (hd : d.toNat + n ≤ 2 ^ 64) (hlt : s.toNat < d.toNat)

include hd hlt

theorem copyForward_start {i : Nat} (hi : i < n) (hdist : i < d.toNat - s.toNat) :
    copyForward n d s m (d + UInt64.ofNat i) = m (s + UInt64.ofNat i) := by
  rw [copyForward_at hd hi, copyForward_kept (by omega)]
  rw [toNat_add_ofNat (by omega)]
  omega

theorem copyForward_again {i : Nat} (hi : i + (d.toNat - s.toNat) < n) :
    copyForward n d s m (d + UInt64.ofNat (i + (d.toNat - s.toNat))) =
      copyForward n d s m (d + UInt64.ofNat i) := by
  have hread : s + UInt64.ofNat (i + (d.toNat - s.toNat)) = d + UInt64.ofNat i := by
    apply UInt64.toNat.inj
    rw [toNat_add_ofNat (by omega), toNat_add_ofNat (by omega)]
    omega
  rw [copyForward_at hd hi, hread, copyForward_at (by omega) (by omega), copyForward_at hd (by omega)]

end

def Repeats (s : UInt64) (n δ : Nat) (m : Mem) : Prop :=
  ∀ i, i + δ < n → m (s + UInt64.ofNat (i + δ)) = m (s + UInt64.ofNat i)

theorem moved_copyForward_iff (hd : d.toNat + n ≤ 2 ^ 64) (hlt : s.toNat < d.toNat) :
    Moved d s n m (copyForward n d s m) ↔ Repeats s n (d.toNat - s.toNat) m := by
  constructor
  · intro h i hi
    rw [← h.moved _ hi, ← h.moved i (by omega), copyForward_again hd hlt hi]
  · intro h
    constructor
    · intro i
      -- Each byte is the copy of the one a period before it.
      induction i using Nat.strong_induction_on with
      | _ i ih =>
          intro hi
          by_cases hdist : i < d.toNat - s.toNat
          · exact copyForward_start hd hlt hi hdist
          · obtain ⟨j, rfl⟩ := Nat.exists_eq_add_of_le' (Nat.le_of_not_lt hdist)
            rw [copyForward_again hd hlt hi, ih j (by omega) (by omega), h j hi]
    · intro a ha
      exact copyForward_kept hd ha

theorem Moved.eq {m₁ m₂ : Mem} (hd : d.toNat + n ≤ 2 ^ 64) (h₁ : Moved d s n m m₁) (h₂ : Moved d s n m m₂) :
    m₁ = m₂ := by
  funext a
  by_cases ha : d.toNat ≤ a.toNat ∧ a.toNat < d.toNat + n
  · have hat : a = d + UInt64.ofNat (a.toNat - d.toNat) := by
      apply UInt64.toNat.inj
      rw [toNat_add_ofNat (by omega)]
      omega
    rw [hat, h₁.moved _ (by omega), h₂.moved _ (by omega)]
  · rw [h₁.kept a ha, h₂.kept a ha]

theorem toNat_toUInt32 {n : Int32} (hn : 0 ≤ n) : n.toUInt32.toNat = n.toInt.toNat := by
  have hpos : 0 ≤ n.toInt := Int32.le_iff_toInt_le.mp hn
  have hdef : n.toInt = _ := BitVec.toInt_eq_toNat_cond n.toBitVec
  have hlt := n.toUInt32.toNat_lt
  have hnat : n.toBitVec.toNat = n.toUInt32.toNat := rfl
  split at hdef <;> omega

theorem ulib_memmove_iff (dst src : UInt64) (n : Int32) (m : Mem) (hn : 0 ≤ n)
    (hd : dst.toNat + n.toInt.toNat ≤ 2 ^ 64) (hs : src.toNat + n.toInt.toNat ≤ 2 ^ 64) :
    (Ulib.memmove dst src n m).2 = (memmove dst src n.toUInt32 m).2 ↔
      ¬ (src.toNat < dst.toNat ∧ dst.toNat < src.toNat + n.toInt.toNat) ∨
        Repeats src n.toInt.toNat (dst.toNat - src.toNat) m := by
  have hcount := toNat_toUInt32 hn
  have hkernel := moved_memmove dst src n.toUInt32 m (by omega) (by omega)
  rw [hcount] at hkernel
  have hsame : (Ulib.memmove dst src n m).2 = (memmove dst src n.toUInt32 m).2 ↔
      Moved dst src n.toInt.toNat m (copyForward n.toInt.toNat dst src m) := by
    constructor
    · intro h
      rw [← h] at hkernel
      exact hkernel
    · intro h
      exact h.eq hd hkernel
  rw [hsame]
  by_cases hin : Overlaps dst src n.toInt.toNat
  · rw [moved_copyForward_iff hd hin.1]
    exact ⟨.inr, fun h => h.resolve_left (not_not_intro hin)⟩
  · exact ⟨fun _ => .inl hin, fun _ => copyForward_moved hd hs (by omega)⟩

theorem ulib_memmove_differs :
    (Ulib.memmove 2 1 2 fun a => a.toUInt8).2 ≠ (memmove 2 1 2 fun a => a.toUInt8).2 := by
  intro h
  have hlast : (1 : UInt8) = 2 := congrFun h 3
  exact absurd hlast (by decide)

theorem ulib_memmove_downwards :
    (Ulib.memmove 1 2 2 fun a => a.toUInt8).2 = (memmove 1 2 2 fun a => a.toUInt8).2 :=
  (ulib_memmove_iff 1 2 2 (fun a => a.toUInt8) (by decide) (by decide) (by decide)).mpr (.inl (by decide))

end Xv6
