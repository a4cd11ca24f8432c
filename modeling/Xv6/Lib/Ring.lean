import Mathlib

namespace Xv6.Lib.Ring

variable {α : Type} {N : Nat} [NeZero N] {buf : Fin N → α} {r w e : UInt32}

/-- The elements of a ring buffer between two counters that run modulo `2 ^ 32`; position `n` is in
place `n % N`. -/
def contents (buf : Fin N → α) (r w : UInt32) : List α :=
  (List.range (w - r).toNat).map fun k => buf (Fin.ofNat N (r.toNat + k))

@[simp] theorem length_contents : (contents buf r w).length = (w - r).toNat := by simp [contents]

theorem contents_self : contents buf r r = [] := by simp [contents]

theorem size_succ (h : (w - r).toNat + 1 < 2 ^ 32) : (w + 1 - r).toNat = (w - r).toNat + 1 := by
  have := r.toNat_lt
  have := w.toNat_lt
  simp only [UInt32.toNat_sub, UInt32.toNat_add, UInt32.toNat_one] at h ⊢
  omega

theorem size_pred (h : r ≠ w) : (w - r).toNat = (w - (r + 1)).toNat + 1 := by
  have := r.toNat_lt
  have := w.toNat_lt
  have hne : r.toNat ≠ w.toNat := fun he => h (UInt32.toNat_inj.mp he)
  simp only [UInt32.toNat_sub, UInt32.toNat_add, UInt32.toNat_one]
  omega

theorem size_le (hr : r ≠ w) {n : Nat} (h : (w - r).toNat ≤ n) : (w - (r + 1)).toNat ≤ n := by
  have := size_pred hr
  omega

theorem ofNat_writer (hN : N ∣ 2 ^ 32) : Fin.ofNat N (r.toNat + (w - r).toNat) = Fin.ofNat N w.toNat := by
  have hw : w.toNat = (r.toNat + (w - r).toNat) % 2 ^ 32 := by
    rw [← UInt32.toNat_add, UInt32.add_comm, UInt32.sub_add_cancel]
  apply Fin.ext
  show _ % N = w.toNat % N
  rw [hw, Nat.mod_mod_of_dvd _ hN]

theorem ofNat_ne {a k m : Nat} (hk : k < m) (hm : m < N) : Fin.ofNat N (a + k) ≠ Fin.ofNat N (a + m) := by
  intro he
  have hmod : a + k ≡ a + m [MOD N] := congrArg Fin.val he
  have := (Nat.modEq_iff_dvd' (by omega)).mp hmod
  exact absurd (Nat.le_of_dvd (by omega) this) (by omega)

theorem contents_frame (hN : N ∣ 2 ^ 32) (hw : (w - r).toNat ≤ (e - r).toNat) (he : (e - r).toNat < N) (a : α) :
    contents (Function.update buf (Fin.ofNat N e.toNat) a) r w = contents buf r w := by
  refine List.map_congr_left fun k hk => Function.update_of_ne ?_ ..
  rw [← ofNat_writer (r := r) hN]
  exact ofNat_ne (lt_of_lt_of_le (List.mem_range.mp hk) hw) he

theorem contents_push (hN : N ∣ 2 ^ 32) (hN' : N < 2 ^ 32) (h : (w - r).toNat < N) (a : α) :
    contents (Function.update buf (Fin.ofNat N w.toNat) a) r (w + 1) = contents buf r w ++ [a] := by
  rw [← contents_frame hN (Nat.le_refl _) h a]
  rw [contents, size_succ (by omega), List.range_succ, List.map_append, List.map_singleton,
    ofNat_writer hN, Function.update_self, contents]

theorem contents_pop (hN : N ∣ 2 ^ 32) (h : r ≠ w) :
    contents buf r w = buf (Fin.ofNat N r.toNat) :: contents buf (r + 1) w := by
  rw [contents, size_pred h, List.range_succ_eq_map, List.map_cons, List.map_map, contents, Nat.add_zero]
  congr 1
  refine List.map_congr_left fun k _ => congrArg buf (Fin.ext ?_)
  show (r.toNat + (k + 1)) % N = ((r + 1).toNat + k) % N
  rw [UInt32.toNat_add, UInt32.toNat_one, Nat.add_mod ((r.toNat + 1) % 2 ^ 32) k N, Nat.mod_mod_of_dvd _ hN,
    ← Nat.add_mod, Nat.add_right_comm, Nat.add_assoc]

theorem size_add (h : (w - r).toNat ≤ (e - r).toNat) : (e - r).toNat = (w - r).toNat + (e - w).toNat := by
  have := r.toNat_lt
  have := w.toNat_lt
  have := e.toNat_lt
  simp only [UInt32.toNat_sub] at h ⊢
  omega

theorem contents_append (hN : N ∣ 2 ^ 32) (h : (w - r).toNat ≤ (e - r).toNat) :
    contents buf r w ++ contents buf w e = contents buf r e := by
  rw [contents, contents, contents, size_add h, List.range_add, List.map_append, List.map_map]
  congr 1
  refine List.map_congr_left fun k _ => congrArg buf (Fin.ext ?_)
  have hw : w.toNat % N = (r.toNat + (w - r).toNat) % N := congrArg Fin.val (ofNat_writer hN).symm
  show (w.toNat + k) % N = (r.toNat + ((w - r).toNat + k)) % N
  rw [← Nat.add_assoc, Nat.add_mod, hw, ← Nat.add_mod]

theorem size_back (h : r ≠ w) : (w - r).toNat = (w - 1 - r).toNat + 1 := by
  have := r.toNat_lt
  have := w.toNat_lt
  have hne : r.toNat ≠ w.toNat := fun he => h (UInt32.toNat_inj.mp he)
  simp only [UInt32.toNat_sub, UInt32.toNat_one]
  omega

theorem contents_back (hN : N ∣ 2 ^ 32) (h : r ≠ w) :
    contents buf r w = contents buf r (w - 1) ++ [buf (Fin.ofNat N (w - 1).toNat)] := by
  have hw : w - 1 + 1 = w := UInt32.sub_add_cancel w 1
  have hone : contents buf (w - 1) w = [buf (Fin.ofNat N (w - 1).toNat)] := by
    have hne : w - 1 ≠ w := by
      intro he
      rw [he] at hw
      exact absurd hw (by simp)
    rw [contents_pop hN hne, hw, contents_self]
  rw [← hone, contents_append hN]
  have := size_back h
  omega

end Xv6.Lib.Ring
