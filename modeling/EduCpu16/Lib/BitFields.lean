import Mathlib.Algebra.Ring.Int.Defs
import Mathlib.Algebra.Ring.Nat

/-!
# Bit fields of a machine word

A word built by or-ing shifted fields is the sum of the fields, each at its weight, and reading
a field back is a division and a remainder. A sign extension written as two shifts is the
balanced remainder. With both, field packing and unpacking become linear arithmetic.
-/

namespace BitFields

/-- A number that fits is read back. -/
theorem toNat_ofNat_of_lt {w n : Nat} (h : n < 2 ^ w) : (BitVec.ofNat w n).toNat = n := by
  rw [BitVec.toNat_ofNat, Nat.mod_eq_of_lt h]

/-- Or-ing into bits that are clear adds. -/
theorem toNat_or_of_lt {w k : Nat} {x y : BitVec w} (hx : 2 ^ k ∣ x.toNat)
    (hy : y.toNat < 2 ^ k) : (x ||| y).toNat = x.toNat + y.toNat := by
  obtain ⟨c, hc⟩ := hx
  rw [BitVec.toNat_or, hc, Nat.mul_comm, ← Nat.shiftLeft_eq, Nat.shiftLeft_add_eq_or_of_lt hy]

/-- Masking with `2 ^ k - 1` is the remainder. -/
theorem toNat_and_mask {w k : Nat} (x : BitVec w) {m : BitVec w} (hm : m.toNat = 2 ^ k - 1) :
    (x &&& m).toNat = x.toNat % 2 ^ k := by
  rw [BitVec.toNat_and, hm, Nat.and_two_pow_sub_one_eq_mod]

/-- Reading a field: shift it down and mask it. -/
theorem toNat_extract {w k sh : Nat} (x : BitVec w) {m : BitVec w} (hm : m.toNat = 2 ^ k - 1) :
    ((x >>> sh) &&& m).toNat = x.toNat / 2 ^ sh % 2 ^ k := by
  rw [toNat_and_mask _ hm, BitVec.toNat_ushiftRight, Nat.shiftRight_eq_div_pow]

/-! ## Bytes -/

/-- A word put together from two bytes, low byte first. -/
theorem toNat_littleEndian (lo hi : BitVec 8) :
    (lo.setWidth 16 ||| (hi.setWidth 16 <<< 8) : BitVec 16).toNat =
      lo.toNat + 256 * hi.toNat := by
  have hlo := lo.isLt
  have hhi := hi.isLt
  have hlow : (lo.setWidth 16 : BitVec 16).toNat = lo.toNat := by
    rw [BitVec.toNat_setWidth]
    omega
  have hhigh : (hi.setWidth 16 <<< 8 : BitVec 16).toNat = 256 * hi.toNat := by
    rw [BitVec.toNat_shiftLeft, BitVec.toNat_setWidth, Nat.shiftLeft_eq]
    omega
  rw [BitVec.or_comm, toNat_or_of_lt (k := 8) (by rw [hhigh]; exact Nat.dvd_mul_right _ _)
    (by rw [hlow]; exact hlo), hlow, hhigh, Nat.add_comm]

/-- Its low byte and its high byte. -/
theorem bytes_littleEndian (lo hi : BitVec 8) :
    (lo.setWidth 16 ||| (hi.setWidth 16 <<< 8) : BitVec 16).setWidth 8 = lo ∧
    ((lo.setWidth 16 ||| (hi.setWidth 16 <<< 8) : BitVec 16) >>> 8).setWidth 8 = hi := by
  have hlo := lo.isLt
  have hhi := hi.isLt
  have hword := toNat_littleEndian lo hi
  constructor
  · apply BitVec.eq_of_toNat_eq
    rw [BitVec.toNat_setWidth, hword]
    omega
  · apply BitVec.eq_of_toNat_eq
    rw [BitVec.toNat_setWidth, BitVec.toNat_ushiftRight, Nat.shiftRight_eq_div_pow, hword]
    omega

/-! ## Sign extension -/

/-- A common factor comes out of a balanced remainder. -/
theorem bmod_mul_left {m : Nat} (hm : 0 < m) (a : Int) (b : Nat) :
    Int.bmod (m * a) (m * b) = m * Int.bmod a b := by
  have hm' : (0 : Int) < m := by omega
  have half : ∀ x y : Int, x < (y + 1) / 2 ↔ 2 * x < y := by omega
  have hmod : (m * a) % ((m * b : Nat) : Int) = m * (a % b) := by
    rw [Int.natCast_mul, Int.mul_emod_mul_of_pos _ _ hm']
  have hcond : (m * (a % b) : Int) < (((m * b : Nat) : Int) + 1) / 2 ↔ a % b < (b + 1) / 2 := by
    rw [half, half, Int.natCast_mul, Int.mul_left_comm]
    exact Int.mul_lt_mul_left hm'
  rw [Int.bmod_def, Int.bmod_def, hmod]
  by_cases h : a % b < (b + 1) / 2
  · rw [if_pos h, if_pos (hcond.mpr h)]
  · rw [if_neg h, if_neg fun hc => h (hcond.mp hc), Int.natCast_mul, Int.mul_sub]

/-- Sign extension of the low `k` bits, as a shift up and an arithmetic shift down. -/
theorem toInt_signExtend {n k : Nat} (x : BitVec (n + k)) :
    ((x <<< n).sshiftRight n).toInt = Int.bmod x.toNat (2 ^ k) := by
  have hpos : 0 < 2 ^ n := Nat.two_pow_pos n
  have hshift : ((x.toNat <<< n : Nat) : Int) = (2 ^ n : Nat) * (x.toNat : Int) := by
    rw [Nat.shiftLeft_eq, Nat.mul_comm, Int.natCast_mul]
  rw [BitVec.toInt_sshiftRight, BitVec.toInt_shiftLeft, hshift, Nat.pow_add,
    bmod_mul_left hpos, Int.shiftRight_eq_div_pow]
  exact Int.mul_ediv_cancel_left _ (by omega)

end BitFields
