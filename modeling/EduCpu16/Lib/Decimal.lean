import EduCpu16.Lib.Strtol

/-!
# Printing numbers in decimal

`%u` and `%d`. The digits printed spell the number by position (`positional_decimal`), and of a
number below `10 ^ k` there are at most `k` (`decimal_length_le`).
-/

namespace CLib

/-- The character of a digit. -/
def digitChar (d : Nat) : Byte := BitVec.ofNat 8 (48 + d)

/-- The digits of `n`, most significant first. The fuel is to be above `n`. -/
def decimalFrom : Nat → Nat → Bytes
  | 0, _ => []
  | fuel + 1, n =>
      if n < 10 then [digitChar n] else decimalFrom fuel (n / 10) ++ [digitChar (n % 10)]

/-- `%u`. -/
def decimal (n : Nat) : Bytes := decimalFrom (n + 1) n

/-- `%d`. -/
def signedDecimal (v : Int) : Bytes :=
  if v < 0 then ch '-' :: decimal v.natAbs else decimal v.natAbs

theorem digitChar_spec : ∀ d < 10,
    isDigitIn 10 (digitChar d) = true ∧ digitVal? (digitChar d) = some d := by decide

theorem positional_snoc (base : Nat) (ds : Bytes) (c : Byte) :
    positional base (ds ++ [c]) = (digitVal? c).getD 0 + base * positional base ds := by
  rw [positional, List.reverse_append, List.reverse_singleton, List.singleton_append,
    List.map_cons, Nat.ofDigits_cons]
  rfl

theorem decimalFrom_spec : ∀ (fuel n : Nat), n < fuel →
    Digits 10 (decimalFrom fuel n) ∧ positional 10 (decimalFrom fuel n) = n
  | 0, _, h => absurd h (Nat.not_lt_zero _)
  | fuel + 1, n, h => by
    rw [decimalFrom]
    split
    · rename_i hn
      obtain ⟨hdigit, hval⟩ := digitChar_spec n hn
      refine ⟨⟨List.cons_ne_nil _ _, List.forall_mem_singleton.mpr hdigit⟩, ?_⟩
      simp [positional, hval]
    · obtain ⟨hdigit, hval⟩ := digitChar_spec (n % 10) (Nat.mod_lt n (by decide))
      obtain ⟨⟨-, hall⟩, hpos⟩ := decimalFrom_spec fuel (n / 10) (by omega)
      refine ⟨⟨List.concat_ne_nil _ _, ?_⟩, ?_⟩
      · exact List.forall_mem_append.mpr ⟨hall, List.forall_mem_singleton.mpr hdigit⟩
      · rw [positional_snoc, hpos, hval, Option.getD_some]
        omega

/-- **What is printed is the number.** -/
theorem positional_decimal (n : Nat) : positional 10 (decimal n) = n :=
  (decimalFrom_spec (n + 1) n (Nat.lt_succ_self n)).2

theorem decimal_digits (n : Nat) : Digits 10 (decimal n) :=
  (decimalFrom_spec (n + 1) n (Nat.lt_succ_self n)).1

theorem decimal_injective {m n : Nat} (h : decimal m = decimal n) : m = n := by
  rw [← positional_decimal m, h, positional_decimal]

theorem decimalFrom_length_le : ∀ (k fuel n : Nat), n < 10 ^ (k + 1) →
    (decimalFrom fuel n).length ≤ k + 1
  | _, 0, _, _ => Nat.zero_le _
  | 0, fuel + 1, n, h => by
    rw [decimalFrom, if_pos (by omega)]
    exact Nat.le_refl _
  | k + 1, fuel + 1, n, h => by
    rw [decimalFrom]
    split
    · exact Nat.succ_le_succ (Nat.zero_le _)
    · rw [List.length_append, List.length_singleton]
      have hrest : n / 10 < 10 ^ (k + 1) := by
        rw [Nat.pow_succ] at h
        omega
      exact Nat.succ_le_succ (decimalFrom_length_le k fuel (n / 10) hrest)

theorem decimal_length_le {n k : Nat} (h : n < 10 ^ (k + 1)) : (decimal n).length ≤ k + 1 :=
  decimalFrom_length_le k (n + 1) n h

end CLib
