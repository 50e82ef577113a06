import Mathlib.Algebra.Ring.Int.Defs
import Mathlib.Algebra.Ring.Nat

/-!
# Word arithmetic in a wider register

A `w`-bit sum, difference or shift computed in a register of more than `w` bits: the wide result
is exact, or wraps far above `2 ^ w`, so comparing it with `2 ^ w` is the test for a carry, a
borrow or a bit shifted out. The narrow result is the wide one cut back.
-/

namespace WideWord

variable {w v : Nat}

/-- A wider register has room for twice as much. -/
theorem two_pow_mul_two_le (h : w < v) : 2 ^ w * 2 ≤ 2 ^ v := by
  rw [← Nat.pow_succ]
  exact Nat.pow_le_pow_right (by decide) h

/-- A sum fits. -/
theorem toNat_add (h : w < v) (a b : BitVec w) :
    (a.setWidth v + b.setWidth v).toNat = a.toNat + b.toNat := by
  have ha := a.isLt
  have hb := b.isLt
  have hroom := two_pow_mul_two_le h
  rw [BitVec.toNat_add, BitVec.toNat_setWidth_of_le (Nat.le_of_lt h),
    BitVec.toNat_setWidth_of_le (Nat.le_of_lt h)]
  exact Nat.mod_eq_of_lt (by omega)

/-- A difference borrows just when it wraps past `2 ^ w`. -/
theorem two_pow_le_sub_iff (h : w < v) (a b : BitVec w) :
    2 ^ w ≤ (a.setWidth v - b.setWidth v).toNat ↔ a.toNat < b.toNat := by
  have ha := a.isLt
  have hb := b.isLt
  have hroom := two_pow_mul_two_le h
  rw [BitVec.toNat_sub, BitVec.toNat_setWidth_of_le (Nat.le_of_lt h),
    BitVec.toNat_setWidth_of_le (Nat.le_of_lt h)]
  constructor
  · intro hle
    by_contra hab
    -- Without a borrow the subtrahend's complement carries out once.
    have hwrap : 2 ^ v - b.toNat + a.toNat = (a.toNat - b.toNat) + 2 ^ v := by omega
    rw [hwrap, Nat.add_mod_right, Nat.mod_eq_of_lt (by omega)] at hle
    omega
  · intro hab
    rw [Nat.mod_eq_of_lt (by omega)]
    omega

/-- A left shift fits as long as the register has room for it. -/
theorem toNat_shiftLeft {s : Nat} (h : w + s ≤ v) (a : BitVec w) :
    (a.setWidth v <<< s).toNat = a.toNat * 2 ^ s := by
  have ha := a.isLt
  have hle : w ≤ v := Nat.le_of_add_right_le h
  have hfit : a.toNat * 2 ^ s < 2 ^ v :=
    calc a.toNat * 2 ^ s < 2 ^ w * 2 ^ s := Nat.mul_lt_mul_of_pos_right ha (Nat.two_pow_pos s)
      _ = 2 ^ (w + s) := (Nat.pow_add 2 w s).symm
      _ ≤ 2 ^ v := Nat.pow_le_pow_right (by decide) h
  rw [BitVec.toNat_shiftLeft, BitVec.toNat_setWidth_of_le hle, Nat.shiftLeft_eq,
    Nat.mod_eq_of_lt hfit]

/-- A shifted number reaches past `2 ^ w` just when one of its bits does. -/
theorem two_pow_le_shift_iff (n s : Nat) :
    2 ^ w ≤ n * 2 ^ s ↔ ∃ i, n.testBit i = true ∧ w ≤ i + s := by
  constructor
  · intro hle
    have hn : n ≠ 0 := by
      rintro rfl
      rw [Nat.zero_mul] at hle
      exact absurd (Nat.two_pow_pos w) (Nat.not_lt.mpr hle)
    -- The highest bit is the one that reaches furthest.
    refine ⟨n.log2, Nat.testBit_log2 hn, ?_⟩
    have hlt : 2 ^ w < 2 ^ (n.log2 + 1 + s) :=
      calc 2 ^ w ≤ n * 2 ^ s := hle
        _ < 2 ^ (n.log2 + 1) * 2 ^ s :=
          Nat.mul_lt_mul_of_pos_right Nat.lt_log2_self (Nat.two_pow_pos s)
        _ = 2 ^ (n.log2 + 1 + s) := (Nat.pow_add 2 _ s).symm
    have := (Nat.pow_lt_pow_iff_right (by decide)).mp hlt
    omega
  · rintro ⟨i, hbit, hi⟩
    calc 2 ^ w ≤ 2 ^ (i + s) := Nat.pow_le_pow_right (by decide) hi
      _ = 2 ^ i * 2 ^ s := Nat.pow_add 2 i s
      _ ≤ n * 2 ^ s := Nat.mul_le_mul_right _ (Nat.ge_two_pow_of_testBit hbit)

/-! ## Signs

The sign bit of a result, and when the signs of two words and their sum tell an overflow. -/

/-- Masking the top bit tests the sign. -/
theorem and_sign_ne_zero {k : Nat} (x : BitVec (k + 1)) :
    x &&& BitVec.twoPow (k + 1) k ≠ 0 ↔ x.toInt < 0 := by
  have htwo : BitVec.twoPow (k + 1) k ≠ 0 := by
    intro h
    have hbit := congrArg (BitVec.getLsbD · k) h
    simp at hbit
  have hmsb : x.getLsbD k = x.msb := (BitVec.msb_eq_getLsbD_last x).symm
  rw [BitVec.and_twoPow, hmsb]
  cases h : x.msb with
  | true =>
    rw [if_pos rfl]
    rw [BitVec.msb_eq_toInt, decide_eq_true_iff] at h
    exact iff_of_true htwo h
  | false =>
    rw [if_neg (by decide)]
    rw [BitVec.msb_eq_toInt, decide_eq_false_iff_not] at h
    exact iff_of_false (fun h0 => h0 rfl) h

/-- The top bit, shifted down to stand alone. -/
theorem sign_bit {k : Nat} (x : BitVec (k + 1)) :
    (x >>> k) &&& 1#(k + 1) = if x.msb then 1#(k + 1) else 0#(k + 1) := by
  have hmsb : (x >>> k).getLsbD 0 = x.msb := by
    rw [BitVec.getLsbD_ushiftRight, BitVec.msb_eq_getLsbD_last]
    rfl
  rw [← BitVec.twoPow_zero, BitVec.and_twoPow, hmsb]

theorem sign_bit_eq_iff {k : Nat} (x y : BitVec (k + 1)) :
    (x >>> k) &&& 1#(k + 1) = (y >>> k) &&& 1#(k + 1) ↔ x.msb = y.msb := by
  have hone : 1#(k + 1) ≠ 0#(k + 1) := by
    intro h
    have hbit := congrArg (BitVec.getLsbD · 0) h
    simp at hbit
  rw [sign_bit, sign_bit]
  cases x.msb <;> cases y.msb <;> simp [hone, hone.symm]

/-- Two sums of signs that agree and a result that does not is the signed overflow. -/
theorem add_overflows_iff {k : Nat} (a b : BitVec (k + 1)) :
    (a.msb = b.msb ∧ (a + b).msb ≠ a.msb) ↔
      (a.toInt + b.toInt < -2 ^ k ∨ 2 ^ k ≤ a.toInt + b.toInt) := by
  have h := BitVec.saddOverflow_eq a b
  rw [BitVec.saddOverflow, Nat.add_sub_cancel] at h
  have hb : (a.msb = b.msb ∧ (a + b).msb ≠ a.msb) ↔
      (a.msb == b.msb && !((a + b).msb == a.msb)) = true := by simp
  rw [hb, ← h]
  simp only [Bool.or_eq_true, decide_eq_true_eq]
  exact Or.comm

/-- The sign of a wrapped difference is wrong just when the difference does not fit. -/
theorem toInt_sub_cases {k : Nat} (a b : BitVec (k + 1)) :
    (a - b).toInt = a.toInt - b.toInt ∧
      -2 ^ k ≤ a.toInt - b.toInt ∧ a.toInt - b.toInt < 2 ^ k ∨
    (a - b).toInt = a.toInt - b.toInt + 2 ^ (k + 1) ∧ a.toInt - b.toInt < -2 ^ k ∨
    (a - b).toInt = a.toInt - b.toInt - 2 ^ (k + 1) ∧ 2 ^ k ≤ a.toInt - b.toInt := by
  have hpow : (2 : Int) ^ (k + 1) = 2 * 2 ^ k := by rw [Int.pow_succ, Int.mul_comm]
  have hcast : (((2 ^ (k + 1) : Nat) : Int)) = 2 * 2 ^ k := by rw [← hpow]; norm_cast
  have ha := BitVec.le_two_mul_toInt (x := a)
  have ha' := BitVec.two_mul_toInt_lt (x := a)
  have hb := BitVec.le_two_mul_toInt (x := b)
  have hb' := BitVec.two_mul_toInt_lt (x := b)
  rw [hpow] at ha ha' hb hb' ⊢
  rw [BitVec.toInt_sub]
  rcases Int.lt_or_le (a.toInt - b.toInt) (-2 ^ k) with hlow | hlow
  · right; left
    refine ⟨?_, hlow⟩
    rw [← Int.add_bmod_right, Int.bmod_eq_of_le (by omega) (by omega), hcast]
  · rcases Int.lt_or_le (a.toInt - b.toInt) (2 ^ k) with hhigh | hhigh
    · left
      exact ⟨Int.bmod_eq_of_le (by omega) (by omega), hlow, hhigh⟩
    · right; right
      refine ⟨?_, hhigh⟩
      rw [← Int.sub_bmod_right, Int.bmod_eq_of_le (by omega) (by omega), hcast]

end WideWord
