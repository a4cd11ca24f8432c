import Xv6.Param

namespace Xv6.Syscall

structure Trapframe where
  rdi : UInt64
  rsi : UInt64
  rdx : UInt64
  r10 : UInt64
  r8 : UInt64
  r9 : UInt64

structure Proc where
  sz : UInt64
  tf : Trapframe
  mem : UInt64 → UInt8

def fetcharg (proc : Proc) (n : Int32) : Option UInt64 :=
  if n = 0 then some proc.tf.rdi
  else if n = 1 then some proc.tf.rsi
  else if n = 2 then some proc.tf.rdx
  else if n = 3 then some proc.tf.r10
  else if n = 4 then some proc.tf.r8
  else if n = 5 then some proc.tf.r9
  else none

/-- What a call of `fetchstr` returns, what it leaves in `*pp`, and the addresses that it has read. -/
structure Fetched where
  ret : Int32
  pp : UInt64
  reads : List UInt64

theorem toNat_succ {s ep : UInt64} (h : s < ep) : (s + 1).toNat = s.toNat + 1 := by
  have hs := UInt64.lt_iff_toNat_lt.mp h
  have hep := ep.toNat_lt
  rw [UInt64.toNat_add, UInt64.toNat_one, Nat.mod_eq_of_lt (by omega)]

/-- The loop of `fetchstr`: the addresses it reads from `s` on, and where it finds NUL. -/
def fetchLoop (mem : UInt64 → UInt8) (ep s : UInt64) : List UInt64 × Option UInt64 :=
  if h : s < ep then
    if mem s = 0 then ([s], some s)
    else
      let r := fetchLoop mem ep (s + 1)
      (s :: r.1, r.2)
  else ([], none)
termination_by ep.toNat - s.toNat
decreasing_by
  rw [toNat_succ h]
  have := UInt64.lt_iff_toNat_lt.mp h
  omega

def fetchstr (proc : Proc) (addr pp : UInt64) : Fetched :=
  if addr < 4096 ∨ addr ≥ proc.sz then ⟨-1, pp, []⟩
  else
    let r := fetchLoop proc.mem proc.sz addr
    match r.2 with
    | some s => ⟨(s - addr).toUInt32.toInt32, addr, r.1⟩
    | none => ⟨-1, addr, r.1⟩

/-- What it returns and what it leaves in `*ip`. -/
def argint (proc : Proc) (n : Int32) : Option (Int32 × Int32) :=
  (fetcharg proc n).map fun a => (0, a.toUInt32.toInt32)

def argstr (proc : Proc) (n : Int32) (pp : UInt64) : Option Fetched :=
  (argint proc n).map fun r =>
    if r.1 < 0 then ⟨-1, pp, []⟩ else fetchstr proc r.2.toInt64.toUInt64 pp

def extended (a : UInt64) : UInt64 := a.toUInt32.toInt32.toInt64.toUInt64

theorem argstr_eq {proc : Proc} {n : Int32} {a : UInt64} (pp : UInt64) (h : fetcharg proc n = some a) :
    argstr proc n pp = some (fetchstr proc (extended a) pp) := by
  rw [argstr, argint, h]
  rfl

section FirstNul

variable {mem : UInt64 → UInt8} {ep s b : UInt64}

structure FirstNul (mem : UInt64 → UInt8) (ep s b : UInt64) : Prop where
  le : s ≤ b
  lt : b < ep
  nul : mem b = 0
  first : ∀ c, s ≤ c → c < b → mem c ≠ 0

theorem FirstNul.unique {b' : UInt64} (h : FirstNul mem ep s b) (h' : FirstNul mem ep s b') : b = b' := by
  by_contra hne
  rcases UInt64.lt_or_lt_of_ne hne with hlt | hlt
  · exact h'.first b h.le hlt h.nul
  · exact h.first b' h'.le hlt h'.nul

theorem succ_le_iff (h : s < ep) : s + 1 ≤ b ↔ s < b := by
  rw [UInt64.le_iff_toNat_le, UInt64.lt_iff_toNat_lt, toNat_succ h]
  exact Iff.rfl

theorem FirstNul.succ_iff (h : s < ep) (hs : mem s ≠ 0) : FirstNul mem ep (s + 1) b ↔ FirstNul mem ep s b := by
  constructor
  · intro hb
    have hlt := (succ_le_iff h).mp hb.le
    refine ⟨UInt64.le_of_lt hlt, hb.lt, hb.nul, ?_⟩
    intro c hc hcb
    rcases UInt64.le_iff_lt_or_eq.mp hc with hsc | rfl
    · exact hb.first c ((succ_le_iff h).mpr hsc) hcb
    · exact hs
  · intro hb
    have hne : s ≠ b := by
      rintro rfl
      exact hs hb.nul
    refine ⟨(succ_le_iff h).mpr (UInt64.lt_of_le_of_ne hb.le hne), hb.lt, hb.nul, ?_⟩
    intro c hc hcb
    exact hb.first c (UInt64.le_of_lt ((succ_le_iff h).mp hc)) hcb

theorem fetchLoop_eq_some : (fetchLoop mem ep s).2 = some b ↔ FirstNul mem ep s b := by
  fun_induction fetchLoop mem ep s with
  | case1 s h h0 =>
      rw [Option.some.injEq]
      constructor
      · rintro rfl
        exact ⟨UInt64.le_refl s, h, h0, fun c hc hcs => absurd hcs (UInt64.not_lt.mpr hc)⟩
      · intro hb
        by_contra hne
        exact hb.first s (UInt64.le_refl s) (UInt64.lt_of_le_of_ne hb.le hne) h0
  | case2 s h h0 r ih => rw [ih, FirstNul.succ_iff h h0]
  | case3 s h =>
      constructor
      · rintro ⟨⟩
      · intro hb
        exact absurd (UInt64.lt_of_le_of_lt hb.le hb.lt) h

theorem fetchLoop_reads : ∀ x ∈ (fetchLoop mem ep s).1, x < ep := by
  fun_induction fetchLoop mem ep s with
  | case1 s h h0 => simpa using h
  | case2 s h h0 r ih =>
      intro x hx
      rcases List.mem_cons.mp hx with rfl | hr
      · exact h
      · exact ih x hr
  | case3 s h => simp

theorem exists_firstNul (hs : s ≤ b) (hb : b < ep) (h0 : mem b = 0) : ∃ c, FirstNul mem ep s c := by
  by_contra hno
  have hnone : (fetchLoop mem ep s).2 = none := by
    rw [Option.eq_none_iff_forall_ne_some]
    intro c hc
    exact hno ⟨c, fetchLoop_eq_some.mp hc⟩
  fun_induction fetchLoop mem ep s with
  | case1 s h h0' => cases hnone
  | case2 s h h0' r ih =>
      have hne : s ≠ b := by
        rintro rfl
        exact h0' h0
      refine ih ((succ_le_iff h).mpr (UInt64.lt_of_le_of_ne hs hne)) ?_ hnone
      rintro ⟨c, hc⟩
      exact hno ⟨c, (FirstNul.succ_iff h h0').mp hc⟩
  | case3 s h => exact h (UInt64.lt_of_le_of_lt hs hb)

end FirstNul

section Argstr

variable {proc : Proc} {a b : UInt64}

def IsString (proc : Proc) (a : UInt64) : Prop :=
  4096 ≤ a ∧ a < proc.sz ∧ ∃ b, a ≤ b ∧ b < proc.sz ∧ proc.mem b = 0

def StringAt (proc : Proc) (a b : UInt64) : Prop := 4096 ≤ a ∧ a < proc.sz ∧ FirstNul proc.mem proc.sz a b

theorem isString_iff : IsString proc a ↔ ∃ b, StringAt proc a b := by
  constructor
  · rintro ⟨hlow, hsz, b, hab, hb, h0⟩
    obtain ⟨c, hc⟩ := exists_firstNul hab hb h0
    exact ⟨c, hlow, hsz, hc⟩
  · rintro ⟨b, hlow, hsz, hb⟩
    exact ⟨hlow, hsz, b, hb.le, hb.lt, hb.nul⟩

theorem fetchstr_of_stringAt (pp : UInt64) (h : StringAt proc a b) :
    (fetchstr proc a pp).ret = (b - a).toUInt32.toInt32 ∧ (fetchstr proc a pp).pp = a := by
  have hrange : ¬ (a < 4096 ∨ a ≥ proc.sz) := by
    rw [not_or]
    exact ⟨UInt64.not_lt.mpr h.1, UInt64.not_le.mpr h.2.1⟩
  rw [fetchstr, if_neg hrange]
  dsimp only
  rw [fetchLoop_eq_some.mpr h.2.2]
  exact ⟨rfl, rfl⟩

theorem fetchstr_of_not_isString (pp : UInt64) (h : ¬ IsString proc a) : (fetchstr proc a pp).ret = -1 := by
  rw [fetchstr]
  split
  next => rfl
  next hrange =>
    rw [not_or] at hrange
    dsimp only
    split
    next s hs =>
      refine absurd (isString_iff.mpr ⟨s, ?_⟩) h
      exact ⟨UInt64.not_lt.mp hrange.1, UInt64.not_le.mp hrange.2, fetchLoop_eq_some.mp hs⟩
    next => rfl

theorem fetchstr_reads (proc : Proc) (a pp : UInt64) : ∀ x ∈ (fetchstr proc a pp).reads, x < proc.sz := by
  rw [fetchstr]
  split
  next => simp
  next =>
    dsimp only
    split
    next => exact fetchLoop_reads
    next => exact fetchLoop_reads

theorem toInt_narrowed (x : UInt64) : x.toUInt32.toInt32.toInt = Int.bmod x.toNat (2 ^ 32) := by
  rw [← Int32.toInt_toBitVec, UInt32.toBitVec_toInt32, BitVec.toInt_eq_toNat_bmod, UInt32.toNat_toBitVec,
    UInt64.toNat_toUInt32, Int.natCast_emod]
  exact Int.emod_bmod _ _

theorem toInt_narrowed_eq_iff (x : UInt64) : x.toUInt32.toInt32.toInt = x.toNat ↔ x.toNat < 2 ^ 31 := by
  rw [toInt_narrowed, Int.bmod_def]
  have := x.toNat_lt
  omega

theorem narrowed_eq_neg_one_iff (x : UInt64) : x.toUInt32.toInt32 = -1 ↔ x.toUInt32 = 0xffffffff := by
  constructor
  · intro h
    have := congrArg Int32.toUInt32 h
    rwa [UInt32.toUInt32_toInt32] at this
  · intro h
    rw [h]
    rfl

structure Validated (proc : Proc) (a : UInt64) (r : Fetched) : Prop where
  accepts : 0 ≤ r.ret ↔ IsString proc a
  string : ∀ b, StringAt proc a b → r.pp = a ∧ r.ret.toInt = (b - a).toNat
  refuses : ¬ IsString proc a → r.ret = -1
  reads : ∀ x ∈ r.reads, x < proc.sz

/-- A string is at an address that survives the `int` and has a length that fits into one, and what is not a string
does not become one, short of a length that reads as -1. -/
structure FitsInt (proc : Proc) (a : UInt64) : Prop where
  string : ∀ b, StringAt proc a b → extended a = a ∧ (b - a).toNat < 2 ^ 31
  truncated : ∀ b, StringAt proc (extended a) b → extended a = a ∨ (b - extended a).toUInt32 = 0xffffffff

theorem validated_iff (pp : UInt64) : Validated proc a (fetchstr proc (extended a) pp) ↔ FitsInt proc a := by
  constructor
  · intro h
    by_cases ha : IsString proc a
    · obtain ⟨b, hb⟩ := isString_iff.mp ha
      obtain ⟨hpp, hret⟩ := h.string b hb
      have hext : extended a = a := by
        -- `*pp` is set to the address only if it is a string
        by_cases he : IsString proc (extended a)
        · obtain ⟨c, hc⟩ := isString_iff.mp he
          exact (fetchstr_of_stringAt pp hc).2.symm.trans hpp
        · have hpos := h.accepts.mpr ha
          rw [fetchstr_of_not_isString pp he] at hpos
          exact absurd hpos (by decide)
      refine ⟨?_, fun _ _ => .inl hext⟩
      intro c hc
      rw [(fetchstr_of_stringAt pp (hext.symm ▸ hb)).1, hext, toInt_narrowed_eq_iff] at hret
      rw [hc.2.2.unique hb.2.2]
      exact ⟨hext, hret⟩
    · refine ⟨fun b hb => absurd (isString_iff.mpr ⟨b, hb⟩) ha, ?_⟩
      intro b hb
      have hret := h.refuses ha
      rw [(fetchstr_of_stringAt pp hb).1, narrowed_eq_neg_one_iff] at hret
      exact .inr hret
  · intro h
    by_cases ha : IsString proc a
    · obtain ⟨b, hb⟩ := isString_iff.mp ha
      obtain ⟨hext, hlen⟩ := h.string b hb
      rw [hext]
      obtain ⟨hret, hpp⟩ := fetchstr_of_stringAt pp hb
      have hint := (toInt_narrowed_eq_iff (b - a)).mpr hlen
      refine ⟨?_, ?_, fun hno => absurd ha hno, fetchstr_reads proc a pp⟩
      · rw [hret, Int32.le_iff_toInt_le, hint]
        exact iff_of_true (Int.natCast_nonneg _) ha
      · intro c hc
        rw [hc.2.2.unique hb.2.2, hret]
        exact ⟨hpp, hint⟩
    · have hret : (fetchstr proc (extended a) pp).ret = -1 := by
        by_cases he : IsString proc (extended a)
        · obtain ⟨c, hc⟩ := isString_iff.mp he
          rw [(fetchstr_of_stringAt pp hc).1, narrowed_eq_neg_one_iff]
          refine (h.truncated c hc).resolve_left ?_
          intro hext
          exact ha (hext ▸ he)
        · exact fetchstr_of_not_isString pp he
      refine ⟨?_, fun b hb => absurd (isString_iff.mpr ⟨b, hb⟩) ha, fun _ => hret, fetchstr_reads proc _ pp⟩
      rw [hret]
      exact iff_of_false (by decide) ha

/-- `argstr` validates its argument in full width exactly if the argument and the string's length fit into an
`int`. -/
theorem argstr_validates_iff (proc : Proc) (n : Int32) (a pp : UInt64) (h : fetcharg proc n = some a) :
    ∃ r, argstr proc n pp = some r ∧ (Validated proc a r ↔ FitsInt proc a) :=
  ⟨fetchstr proc (extended a) pp, argstr_eq pp h, validated_iff pp⟩

end Argstr

/-- A process with the string `sh` at 4096. -/
def sh : Proc := ⟨0x2000, ⟨0x1000, 0, 0, 0, 0, 0⟩, fun a => if a = 0x1000 then 115 else if a =
    0x1001 then 104 else 0⟩

theorem firstNul_sh : FirstNul sh.mem sh.sz 0x1000 0x1002 := by
  refine ⟨by decide, by decide, by decide, fun c hc hlt => ?_⟩
  have hle : 0x1000 ≤ c.toNat := UInt64.le_iff_toNat_le.mp hc
  have hlt : c.toNat < 0x1002 := UInt64.lt_iff_toNat_lt.mp hlt
  obtain rfl | rfl : c = 0x1000 ∨ c = 0x1001 := by
    rw [← UInt64.toNat_inj, ← UInt64.toNat_inj]
    show c.toNat = 0x1000 ∨ c.toNat = 0x1001
    omega
  · decide
  · decide

theorem argstr_validates_iff_sh : fetcharg sh 0 = some 0x1000 ∧ StringAt sh 0x1000 0x1002 ∧
    ∃ r, argstr sh 0 0 = some r ∧ Validated sh 0x1000 r := by
  refine ⟨rfl, ⟨by decide, by decide, firstNul_sh⟩, ?_⟩
  obtain ⟨r, hr, hiff⟩ := argstr_validates_iff sh 0 0x1000 0 rfl
  refine ⟨r, hr, hiff.mpr ⟨?_, fun _ _ => .inl rfl⟩⟩
  intro b hb
  rw [hb.2.2.unique firstNul_sh]
  exact ⟨rfl, by decide⟩

def zeros (rdi : UInt64) : Proc := ⟨0x2000, ⟨rdi, 0, 0, 0, 0, 0⟩, fun _ => 0⟩

theorem stringAt_zeros (rdi : UInt64) : StringAt (zeros rdi) 0x1000 0x1000 := by
  have hsz : (0x1000 : UInt64) < (zeros rdi).sz := show (0x1000 : UInt64) < 0x2000 by decide
  exact ⟨by decide, hsz, by decide, hsz, rfl, fun c hc hlt => absurd hlt (UInt64.not_lt.mpr hc)⟩

/-- The argument 2^32 + 4096 is far above the size, and `argstr` takes it for 4096. -/
theorem argstr_truncates : fetcharg (zeros 0x100001000) 0 = some 0x100001000 ∧ ¬ IsString
    (zeros 0x100001000) 0x100001000 ∧
    ∃ r, argstr (zeros 0x100001000) 0 0 = some r ∧ r.ret = 0 ∧ r.pp = 0x1000 := by
  refine ⟨rfl, fun h => absurd h.2.1 (by decide), fetchstr (zeros 0x100001000) (extended 0x100001000) 0,
    argstr_eq 0 rfl, ?_⟩
  exact fetchstr_of_stringAt 0 (stringAt_zeros 0x100001000)

end Xv6.Syscall
