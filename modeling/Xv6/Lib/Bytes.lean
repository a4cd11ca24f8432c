import Mathlib

namespace Xv6.Lib.Bytes

abbrev Buf (n : Nat) := Fin n → UInt8

variable {n : Nat}

def byteAt (b : Buf n) (i : Nat) : UInt8 := if h : i < n then b ⟨i, h⟩ else 0

def getBytes (b : Buf n) (off k : Nat) : List UInt8 := (List.range k).map fun j => byteAt b (off + j)

def putBytes (b : Buf n) (off : Nat) (bs : List UInt8) : Buf n := fun i =>
  if off ≤ i.val ∧ i.val < off + bs.length then bs.getD (i.val - off) 0 else b i

@[simp] theorem length_getBytes (b : Buf n) (off k : Nat) : (getBytes b off k).length = k := by
  simp [getBytes]

theorem byteAt_putBytes (b : Buf n) (off i : Nat) (bs : List UInt8) (hi : i < n) :
    byteAt (putBytes b off bs) i =
      if off ≤ i ∧ i < off + bs.length then bs.getD (i - off) 0 else byteAt b i := by
  simp [byteAt, putBytes, hi]

theorem getBytes_putBytes_self (b : Buf n) (off : Nat) (bs : List UInt8) (h : off + bs.length ≤ n) :
    getBytes (putBytes b off bs) off bs.length = bs := by
  apply List.ext_getElem
  · simp
  · intro i hi hi'
    simp only [getBytes, List.getElem_map, List.getElem_range]
    rw [byteAt_putBytes b off (off + i) bs (by omega), if_pos (by omega)]
    simp [hi']

theorem getBytes_putBytes_of_disjoint (b : Buf n) (off off' k : Nat) (bs : List UInt8)
    (h : off' + k ≤ off ∨ off + bs.length ≤ off') (hn : off' + k ≤ n) :
    getBytes (putBytes b off bs) off' k = getBytes b off' k := by
  apply List.map_congr_left
  intro j hj
  rw [List.mem_range] at hj
  rw [byteAt_putBytes b off (off' + j) bs (by omega), if_neg (by omega)]

def leVal : List UInt8 → Nat
  | [] => 0
  | b :: bs => b.toNat + 256 * leVal bs

theorem leVal_replicate_zero (k : Nat) : leVal (List.replicate k 0) = 0 := by
  induction k with
  | zero => rfl
  | succ k ih => simp [List.replicate_succ, leVal, ih]

def leBytes : Nat → Nat → List UInt8
  | 0, _ => []
  | k + 1, v => UInt8.ofNat v :: leBytes k (v / 256)

@[simp] theorem length_leBytes (k v : Nat) : (leBytes k v).length = k := by
  induction k generalizing v with
  | zero => rfl
  | succ k ih => simp [leBytes, ih]

theorem leVal_leBytes (k v : Nat) : leVal (leBytes k v) = v % 256 ^ k := by
  induction k generalizing v with
  | zero => simp [leBytes, leVal, Nat.mod_one]
  | succ k ih =>
      have hb : (UInt8.ofNat v).toNat = v % 256 := by simp
      rw [leBytes, leVal, ih, hb, Nat.pow_succ, Nat.mul_comm (256 ^ k) 256, Nat.mod_mul]

theorem leVal_lt (bs : List UInt8) : leVal bs < 256 ^ bs.length := by
  induction bs with
  | nil => simp [leVal]
  | cons b bs ih =>
      have hb := b.toNat_lt
      simp only [leVal, List.length_cons, Nat.pow_succ]
      omega

def getWord (b : Buf n) (off : Nat) : Nat := leVal (getBytes b off 4)

def putWord (b : Buf n) (off v : Nat) : Buf n := putBytes b off (leBytes 4 v)

theorem getWord_putWord_self (b : Buf n) (off v : Nat) (h : off + 4 ≤ n) (hv : v < 2 ^ 32) :
    getWord (putWord b off v) off = v := by
  have h4 := getBytes_putBytes_self b off (leBytes 4 v) (by simpa using h)
  rw [length_leBytes] at h4
  rw [getWord, putWord, h4, leVal_leBytes, Nat.mod_eq_of_lt (by simpa using hv)]

theorem getWord_putWord_of_disjoint (b : Buf n) (off off' v : Nat)
    (h : off' + 4 ≤ off ∨ off + 4 ≤ off') (hn : off' + 4 ≤ n) :
    getWord (putWord b off v) off' = getWord b off' := by
  rw [getWord, putWord, getBytes_putBytes_of_disjoint _ _ _ _ _ (by simpa using h) hn, getWord]

def putWords (b : Buf n) (off : Nat) : List Nat → Buf n
  | [] => b
  | v :: vs => putWords (putWord b off v) (off + 4) vs

def getWords (b : Buf n) (off k : Nat) : List Nat := (List.range k).map fun i => getWord b (off + 4 * i)

theorem getWord_putWords_before (b : Buf n) (off off' : Nat) (vs : List Nat)
    (h : off' + 4 ≤ off) (hn : off' + 4 ≤ n) :
    getWord (putWords b off vs) off' = getWord b off' := by
  induction vs generalizing b off with
  | nil => rfl
  | cons v vs ih =>
      rw [putWords, ih _ _ (by omega), getWord_putWord_of_disjoint _ _ _ _ (Or.inl h) hn]

theorem getWord_putWords (b : Buf n) (off : Nat) (vs : List Nat)
    (h : off + 4 * vs.length ≤ n) (hv : ∀ v ∈ vs, v < 2 ^ 32) (i : Nat) (hi : i < vs.length) :
    getWord (putWords b off vs) (off + 4 * i) = vs[i] := by
  induction vs generalizing b off i with
  | nil => simp at hi
  | cons v vs ih =>
      simp only [List.length_cons] at h hi
      rw [putWords]
      cases i with
      | zero =>
          rw [getWord_putWords_before _ _ _ _ (by omega) (by omega)]
          exact getWord_putWord_self _ _ _ (by omega) (hv v (by simp))
      | succ i =>
          have htail := ih (putWord b off v) (off + 4) (by omega) (fun w hw => hv w (by simp [hw])) i (by omega)
          rwa [show off + 4 * (i + 1) = off + 4 + 4 * i by omega]

theorem getWords_putWords_self (b : Buf n) (off : Nat) (vs : List Nat)
    (h : off + 4 * vs.length ≤ n) (hv : ∀ v ∈ vs, v < 2 ^ 32) :
    getWords (putWords b off vs) off vs.length = vs := by
  apply List.ext_getElem
  · simp [getWords]
  · intro i _ hi
    simpa [getWords] using getWord_putWords b off vs h hv i hi

def field (l : List UInt8) (o w : Nat) : Nat := leVal ((l.drop o).take w)

theorem field_lt (l : List UInt8) (o w : Nat) : field l o w < 256 ^ w := by
  refine lt_of_lt_of_le (leVal_lt _) (Nat.pow_le_pow_right (by decide) ?_)
  rw [List.length_take]
  exact Nat.min_le_left ..

theorem field_append_left {l l' : List UInt8} {o w : Nat} (h : o + w ≤ l.length) :
    field (l ++ l') o w = field l o w := by
  rw [field, field, List.drop_append_of_le_length (by omega), List.take_append_of_le_length (by simp; omega)]

theorem field_append_right {l l' : List UInt8} {o w : Nat} (h : l.length ≤ o) :
    field (l ++ l') o w = field l' (o - l.length) w := by
  rw [field, field, List.drop_append, List.drop_eq_nil_of_le h, List.nil_append]

theorem field_leBytes (w v : Nat) : field (leBytes w v) 0 w = v % 256 ^ w := by
  rw [field, List.drop_zero, List.take_of_length_le (by simp), leVal_leBytes]

theorem field_flatMap {α : Type} (f : α → Nat) (w : Nat) (xs : List α) (i : Nat) (hi : i < xs.length) :
    field (xs.flatMap fun x => leBytes w (f x)) (w * i) w = f xs[i] % 256 ^ w := by
  induction xs generalizing i with
  | nil => simp at hi
  | cons x xs ih =>
      simp only [List.flatMap_cons]
      cases i with
      | zero => rw [Nat.mul_zero, field_append_left (by simp), field_leBytes, List.getElem_cons_zero]
      | succ i =>
          have hlen : (leBytes w (f x)).length = w := length_leBytes w _
          rw [field_append_right (by rw [hlen, Nat.mul_succ]; omega), hlen, Nat.mul_succ, Nat.add_sub_cancel]
          exact ih i (by simpa using hi)

end Xv6.Lib.Bytes
