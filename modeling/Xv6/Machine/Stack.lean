import Xv6.Machine.Model
import Xv6.Vm.Image

namespace Xv6.Machine

open Lib Lib.Radix Lib.Exec Vm

variable {t : Pgdir} {K : Nat} {l : List Nat}

/-- The page table that `exec` has made before it copies the arguments: the last page is the stack, and the one
below it is not for the user. -/
structure Stacked (K : Nat) (t : Pgdir) : Prop where
  low : LowOnly t
  three : 3 ≤ K
  small : K ≤ 2 ^ 34
  user : ∀ k, 1 ≤ k → k < K → ∃ f, mapped t k = some ⟨f, decide (k ≠ K - 2)⟩
  zero : mapped t 0 = none

theorem Stacked.find_zero (h : Stacked K t) : find 3 t 0 = some none := by
  obtain ⟨f, hf⟩ := h.user 1 le_rfl (by have := h.three; omega)
  have hsome : (find 3 t 0).isSome := by
    rw [isSome_find_congr (show 0 / 512 = 1 / 512 from rfl), find_of_mapped hf]
    rfl
  obtain ⟨o, ho⟩ := Option.isSome_iff_exists.mp hsome
  have hz := h.zero
  rw [mapped, ho] at hz
  rw [ho]
  exact congrArg some hz

theorem Stacked.uva2ka_eq (h : Stacked K t) {va : UInt64} {k : Nat} (hva : va.toNat = k * 4096) (hk : k < K) :
    ∃ o, uva2ka t va ⟨l⟩ = .ok (o, ⟨l⟩) ∧ (o.isSome ↔ k ≠ 0 ∧ k ≠ K - 2) := by
  have hsmall := h.small
  have hpage := vpage_of_toNat hva
  have hwalk : walkpgdir t va ⟨l⟩ = _ := walkpgdir_eq (by omega)
  rw [hpage] at hwalk
  rw [uva2ka, bind_ok hwalk]
  rcases Nat.eq_zero_or_pos k with rfl | hpos
  · rw [h.find_zero]
    exact ⟨none, rfl, by simp⟩
  · obtain ⟨f, hf⟩ := h.user k hpos hk
    rw [find_of_mapped hf]
    by_cases hg : k = K - 2
    · refine ⟨none, ?_, by simp [hg]⟩
      simp [hg]
      rfl
    · refine ⟨some f, ?_, by simp [hg]; omega⟩
      simp [hg]
      rfl

theorem rounddown_toNat (va : UInt64) : (va &&& ~~~4095).toNat = va.toNat / 4096 * 4096 := by
  rw [UInt64.toNat_and, show (~~~4095 : UInt64).toNat =
    2 ^ 64 - 2 ^ 12 by decide, and_highMask (by decide) va.toNat_lt]
  rfl

theorem aligned_toNat (sp : UInt64) : (sp &&& ~~~7).toNat = sp.toNat / 8 * 8 := by
  rw [UInt64.toNat_and, show (~~~7 : UInt64).toNat = 2 ^ 64 - 2 ^ 3 by decide, and_highMask (by decide) sp.toNat_lt]
  rfl

theorem copyoutLoop_zero (n : Nat) (va : UInt64) : copyoutLoop t n va 0 ⟨l⟩ = .ok (true, ⟨l⟩) := by
  cases n with
  | zero => rfl
  | succ n =>
      rw [copyoutLoop, if_neg (by decide)]
      rfl

theorem Stacked.copyoutLoop_eq (h : Stacked K t) {n : Nat} {va len : UInt64} (hn : len.toNat < n)
    (hlen : 0 < len.toNat)
    (hend : va.toNat + len.toNat ≤ K * 4096) (hpast : (K - 2) * 4096 < va.toNat + len.toNat) :
    copyoutLoop t n va len ⟨l⟩ = .ok (decide ((K - 1) * 4096 ≤ va.toNat), ⟨l⟩) := by
  induction n generalizing va len with
  | zero => omega
  | succ n ih =>
      have hthree := h.three
      have hk : va.toNat / 4096 < K := by omega
      have hroom : (va.toNat / 4096 + 1) * 4096 < 2 ^ 64 :=
        lt_of_le_of_lt (Nat.mul_le_mul_right 4096 (Nat.le_trans hk h.small)) (by decide)
      have hround := rounddown_toNat va
      have hoff : (va - (va &&& ~~~4095)).toNat = va.toNat - va.toNat / 4096 * 4096 := by
        rw [UInt64.toNat_sub_of_le _ _ (UInt64.le_iff_toNat_le.mpr (by omega)), hround]
      have hrest : (4096 - (va - (va &&& ~~~4095))).toNat = 4096 - (va.toNat - va.toNat / 4096 * 4096) := by
        have h4096 : (4096 : UInt64).toNat = 4096 := rfl
        rw [UInt64.toNat_sub_of_le _ _ (UInt64.le_iff_toNat_le.mpr (by omega)), hoff, h4096]
      obtain ⟨o, ho, hsome⟩ := h.uva2ka_eq (l := l) hround hk
      rw [copyoutLoop, if_pos (show 0 < len from UInt64.lt_iff_toNat_lt.mpr hlen), bind_ok ho]
      cases o with
      | none =>
          simp only [Option.isSome_none, Bool.false_eq_true, false_iff, not_and_or, not_not] at hsome
          rw [decide_eq_false (by omega)]
          rfl
      | some f =>
          simp only [Option.isSome_some, true_iff] at hsome
          simp only
          by_cases hlast : va.toNat / 4096 = K - 1
          · -- the rest of the range is in the stack
            have hmin : (if 4096 - (va - (va &&& ~~~4095)) > len then len else 4096 - (va - (va &&& ~~~4095))) =
              len := by
              split
              next => rfl
              next hle =>
                rw [gt_iff_lt, UInt64.lt_iff_toNat_lt] at hle
                exact UInt64.toNat_inj.mp (by omega)
            rw [hmin, UInt64.sub_self, copyoutLoop_zero, decide_eq_true (show (K - 1) * 4096 ≤ va.toNat by omega)]
          · have hnext : ((va &&& ~~~4095) + 4096).toNat = (va.toNat / 4096 + 1) * 4096 :=
              add_page hround hroom
            have hfits : 4096 - (va - (va &&& ~~~4095)) ≤ len := by
              rw [UInt64.le_iff_toNat_le]
              omega
            have hless : (len - (4096 - (va - (va &&& ~~~4095)))).toNat =
                len.toNat - (4096 - (va.toNat - va.toNat / 4096 * 4096)) := by
              rw [UInt64.toNat_sub_of_le _ _ hfits, hrest]
            have hbelow : decide ((K - 1) * 4096 ≤ ((va &&& ~~~4095) + 4096).toNat) =
              decide ((K - 1) * 4096 ≤ va.toNat) :=
              decide_eq_decide.mpr (by omega)
            have hsum : ((va &&& ~~~4095) + 4096).toNat + (len - (4096 - (va - (va &&& ~~~4095)))).toNat =
                va.toNat + len.toNat := by
              rw [hnext, hless]
              omega
            have hstep := @ih ((va &&& ~~~4095) + 4096) (len - (4096 - (va - (va &&& ~~~4095))))
              (by rw [hless]; omega) (by rw [hless]; omega) (by rw [hsum]; exact hend) (by rw [hsum]; exact hpast)
            rw [if_neg (UInt64.not_lt.mpr hfits), hstep, hbelow]

theorem Stacked.copyout_eq (h : Stacked K t) (va len : UInt64) (hlen : 0 < len.toNat)
    (hend : va.toNat + len.toNat ≤ K * 4096) (hpast : (K - 2) * 4096 < va.toNat + len.toNat) :
    copyout t va len ⟨l⟩ = .ok (decide ((K - 1) * 4096 ≤ va.toNat), ⟨l⟩) :=
  h.copyoutLoop_eq (Nat.lt_succ_self _) hlen hend hpast

theorem Stacked.copyout_wrapped (h : Stacked K t) {va len : UInt64} (hlen : 0 < len.toNat)
    (hva : 2 ^ 64 - 2 ^ 32 ≤ va.toNat) : copyout t va len ⟨l⟩ = .error (.panic .trap) := by
  have hround := rounddown_toNat va
  have hlt := va.toNat_lt
  have hpage : vpage (va &&& ~~~4095) = va.toNat / 4096 := vpage_of_toNat hround
  have hindex : index 512 3 (vpage (va &&& ~~~4095)) = 511 := by
    rw [hpage, index]
    refine Fin.ext (?_ : va.toNat / 4096 / 512 ^ 3 % 512 = 511)
    omega
  have hwalk : walkpgdir t (va &&& ~~~4095) ⟨l⟩ = .ok (none, ⟨l⟩) := by
    have hfind : find 3 t (vpage (va &&& ~~~4095)) = none := by
      rw [find, hindex, h.low 511 (by decide)]
    rw [walkpgdir, kernelHalf, hindex, hfind]
    rfl
  have huva : uva2ka t (va &&& ~~~4095) ⟨l⟩ = .error (.panic .trap) := by
    rw [uva2ka, bind_ok hwalk]
    rfl
  rw [copyout, copyoutLoop, if_pos (show 0 < len from UInt64.lt_iff_toNat_lt.mpr hlen), bind_error huva]

def pushed (sp len : Nat) : Nat := (sp - (len + 1)) / 8 * 8

/-- Each argument that `exec` comes to is shorter than the address at which it is to end; it comes to the next one
if this one is in the stack, which begins at `base`. -/
def ArgsFit (base : Nat) : List Arg → (argc sp : Nat) → Prop
  | [], _, _ => True
  | s :: argv, argc, sp =>
      argc < maxarg → s.val.length < sp ∧ (base ≤ pushed sp s.val.length → ArgsFit base argv (argc + 1)
        (pushed sp s.val.length))

instance ArgsFit.decidable (base : Nat) :
    (argv : List Arg) → (argc sp : Nat) → Decidable (ArgsFit base argv argc sp)
  | [], _, _ => isTrue trivial
  | s :: argv, argc, sp =>
      have := ArgsFit.decidable base argv (argc + 1) (pushed sp s.val.length)
      inferInstanceAs (Decidable (_ → _ ∧ (_ → _)))

theorem Stacked.pushArgs_eq (h : Stacked K t) (argv : List Arg) {argc : Nat} {sp : UInt64}
    (hlo : (K - 1) * 4096 ≤ sp.toNat)
    (hhi : sp.toNat ≤ K * 4096) (hargc : argc ≤ maxarg) :
    (ArgsFit ((K - 1) * 4096) argv argc sp.toNat → ∃ o, pushArgs t argv argc sp ⟨l⟩ = .ok (o, ⟨l⟩) ∧
      ∀ r ∈ o, r.1 ≤ maxarg ∧ (K - 1) * 4096 ≤ r.2.toNat ∧ r.2.toNat ≤ K * 4096) ∧
    (¬ ArgsFit ((K - 1) * 4096) argv argc sp.toNat → pushArgs t argv argc sp ⟨l⟩ = .error (.panic .trap)) := by
  induction argv generalizing argc sp with
  | nil =>
      refine ⟨fun _ => ⟨_, rfl, ?_⟩, fun hno => absurd trivial hno⟩
      rintro r ⟨⟩
      exact ⟨hargc, hlo, hhi⟩
  | cons s argv ih =>
      by_cases hmax : argc ≥ maxarg
      · rw [pushArgs, if_pos hmax, ArgsFit]
        exact ⟨fun _ => ⟨none, rfl, by simp⟩, fun hno => absurd (fun hlt => absurd hmax (by omega)) hno⟩
      · have hthree := h.three
        have hsmall := h.small
        have hs := s.property
        have hlen : (UInt64.ofNat (s.val.length + 1)).toNat = s.val.length + 1 := by
          rw [UInt64.toNat_ofNat']
          exact Nat.mod_eq_of_lt (by omega)
        rw [pushArgs, if_neg hmax]
        by_cases hfit : s.val.length < sp.toNat
        · have hsp : ((sp - UInt64.ofNat (s.val.length + 1)) &&& ~~~7).toNat = pushed sp.toNat s.val.length := by
            rw [aligned_toNat, UInt64.toNat_sub_of_le _ _ (UInt64.le_iff_toNat_le.mpr (by omega)), hlen, pushed]
          have hnext : pushed sp.toNat s.val.length ≤ sp.toNat - (s.val.length + 1) := Nat.div_mul_le_self ..
          have hnear : sp.toNat - (s.val.length + 1) < pushed sp.toNat s.val.length + 8 := by
            rw [pushed]
            omega
          have hcopy := h.copyout_eq (l := l) ((sp - UInt64.ofNat (s.val.length + 1)) &&& ~~~7)
            (UInt64.ofNat (s.val.length + 1)) (by omega) (by omega) (by omega)
          rw [hsp] at hcopy
          rw [bind_ok hcopy]
          by_cases hin : (K - 1) * 4096 ≤ pushed sp.toNat s.val.length
          · have hrest := @ih (argc + 1) ((sp - UInt64.ofNat (s.val.length + 1)) &&& ~~~7) (by omega) (by omega)
              (by omega)
            rw [hsp] at hrest
            rw [decide_eq_true hin, if_pos rfl]
            refine ⟨fun hf => hrest.1 ((hf (by omega)).2 hin), fun hno => hrest.2 fun hf => hno fun _ =>
              ⟨hfit, fun _ => hf⟩⟩
          · rw [decide_eq_false hin]
            exact ⟨fun _ => ⟨none, rfl, by simp⟩, fun hno => absurd (fun _ => ⟨hfit, fun hb => absurd hb hin⟩) hno⟩
        · have hwrap : 2 ^ 64 - 2 ^ 32 ≤ ((sp - UInt64.ofNat (s.val.length + 1)) &&& ~~~7).toNat := by
            rw [aligned_toNat, UInt64.toNat_sub, hlen]
            omega
          rw [bind_error (h.copyout_wrapped (by omega) hwrap)]
          exact ⟨fun hf => absurd (hf (by omega)).1 hfit, fun _ => rfl⟩

theorem Stacked.pushStack_eq (h : Stacked K t) (argv : List Arg) {sp : UInt64} (hsp : sp.toNat = K * 4096) :
    (ArgsFit ((K - 1) * 4096) argv 0 sp.toNat → ∃ b, pushStack t argv sp ⟨l⟩ = .ok (b, ⟨l⟩)) ∧
    (¬ ArgsFit ((K - 1) * 4096) argv 0 sp.toNat → pushStack t argv sp ⟨l⟩ = .error (.panic .trap)) := by
  have hthree := h.three
  have hsmall := h.small
  have hargs := h.pushArgs_eq (l := l) argv (show (K - 1) * 4096 ≤ sp.toNat by omega) (by omega)
    (Nat.zero_le maxarg)
  refine ⟨fun hf => ?_, fun hno => by rw [pushStack, bind_error (hargs.2 hno)]⟩
  obtain ⟨o, ho, hr⟩ := hargs.1 hf
  rw [pushStack, bind_ok ho]
  cases o with
  | none => exact ⟨false, rfl⟩
  | some r =>
      obtain ⟨hargc, hlo, hhi⟩ := hr r rfl
      have hargc : r.1 ≤ 32 := hargc
      have hlen : (UInt64.ofNat ((r.1 + 2) * 8)).toNat = (r.1 + 2) * 8 := by
        rw [UInt64.toNat_ofNat']
        exact Nat.mod_eq_of_lt (by omega)
      have hsub : (r.2 - UInt64.ofNat ((r.1 + 2) * 8)).toNat = r.2.toNat - (r.1 + 2) * 8 := by
        rw [UInt64.toNat_sub_of_le _ _ (UInt64.le_iff_toNat_le.mpr (by omega)), hlen]
      exact ⟨_, h.copyout_eq _ _ (by omega) (by omega) (by omega)⟩

end Xv6.Machine
