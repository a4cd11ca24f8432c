import Xv6.Lib.Bytes

namespace Xv6.Lib.Bytes

variable {n : Nat}

def getBit (b : Buf n) (i : Nat) : Bool := (byteAt b (i / 8)).toNat.testBit (i % 8)

def setBit (b : Buf n) (i : Nat) : Buf n :=
  putBytes b (i / 8) [UInt8.ofNat ((byteAt b (i / 8)).toNat ||| 1 <<< (i % 8))]

def clearBit (b : Buf n) (i : Nat) : Buf n :=
  putBytes b (i / 8) [UInt8.ofNat ((byteAt b (i / 8)).toNat &&& (255 ^^^ 1 <<< (i % 8)))]

theorem byteAt_putByte (b : Buf n) (i j : Nat) (v : UInt8) (hj : j < n) :
    byteAt (putBytes b i [v]) j = if j = i then v else byteAt b j := by
  rw [byteAt_putBytes b i j [v] hj]
  by_cases h : j = i
  · subst h; simp
  · rw [if_neg h, if_neg]
    simp only [List.length_cons, List.length_nil]
    omega

theorem getBit_setBit (b : Buf n) (i j : Nat) (hj : j / 8 < n) :
    getBit (setBit b i) j = (decide (i = j) || getBit b j) := by
  have hi : i % 8 < 8 := Nat.mod_lt _ (by omega)
  have hj8 : j % 8 < 8 := Nat.mod_lt _ (by omega)
  simp only [getBit, setBit, byteAt_putByte _ _ _ _ hj]
  by_cases h : j / 8 = i / 8
  · have hij : i % 8 = j % 8 ↔ i = j := by omega
    simp only [h, if_true, UInt8.toNat_ofNat', Nat.testBit_mod_two_pow, Nat.testBit_or, Nat.one_shiftLeft,
      Nat.testBit_two_pow, hj8, decide_true, Bool.true_and, hij]
    exact Bool.or_comm _ _
  · have hij : i ≠ j := fun e => h (by rw [e])
    simp [h, hij]

theorem getBit_clearBit (b : Buf n) (i j : Nat) (hj : j / 8 < n) :
    getBit (clearBit b i) j = (!decide (i = j) && getBit b j) := by
  have hj8 : j % 8 < 8 := Nat.mod_lt _ (by omega)
  simp only [getBit, clearBit, byteAt_putByte _ _ _ _ hj]
  by_cases h : j / 8 = i / 8
  · have hij : i % 8 = j % 8 ↔ i = j := by omega
    have h255 : (255 : Nat).testBit (j % 8) = true := by
      rw [show (255 : Nat) = 2 ^ 8 - 1 from rfl, Nat.testBit_two_pow_sub_one]
      simpa using hj8
    simp only [h, if_true, UInt8.toNat_ofNat', Nat.testBit_mod_two_pow, Nat.testBit_and, Nat.testBit_xor,
      Nat.one_shiftLeft, Nat.testBit_two_pow, hj8, decide_true, Bool.true_and, hij, h255]
    rw [Bool.and_comm]
    cases decide (i = j) <;> simp
  · have hij : i ≠ j := fun e => h (by rw [e])
    simp [h, hij]

end Xv6.Lib.Bytes
