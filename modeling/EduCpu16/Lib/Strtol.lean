import EduCpu16.Lib.CString
import Mathlib.Data.List.TakeWhile
import Mathlib.Data.Nat.Digits.Defs

/-!
# What `strtol` converts

The digits of a text spell a number by position (`digitsVal_eq`). On a text of letters and digits
`strtol` reads to the end exactly if the text is digits of the base, in base 16 possibly behind a
`0x` of its own, and the value is then the one they spell, cut at `LONG_MAX` (`strtol_iff`).
-/

namespace CLib

/-- A non-empty run of digits of a base. -/
def Digits (base : Nat) (ds : Bytes) : Prop := ds ≠ [] ∧ ∀ c ∈ ds, isDigitIn base c = true

/-- The value of digits, by position. -/
def positional (base : Nat) (ds : Bytes) : Nat :=
  Nat.ofDigits base (ds.reverse.map fun c => (digitVal? c).getD 0)

/-- The mark that base 16 skips. -/
def hexMarks : List Bytes := [ascii "0x", ascii "0X"]

theorem digitsVal_eq (base : Nat) (ds : Bytes) (acc : Nat) :
    digitsVal base ds acc = positional base ds + base ^ ds.length * acc := by
  induction ds generalizing acc with
  | nil => simp [digitsVal, positional]
  | cons c cs ih =>
    rw [digitsVal, ih, positional, positional, List.reverse_cons, List.map_append,
      Nat.ofDigits_append, List.length_map, List.length_reverse, List.length_cons, pow_succ]
    simp only [List.map_cons, List.map_nil, Nat.ofDigits_singleton]
    ring

theorem digitsVal_zero (base : Nat) (ds : Bytes) : digitsVal base ds 0 = positional base ds := by
  rw [digitsVal_eq, Nat.mul_zero, Nat.add_zero]

theorem isalnum_not_space_sign : ∀ c : Byte, isalnum c = true →
    isspace c = false ∧ c ≠ ch '-' ∧ c ≠ ch '+' := by decide

theorem not_isDigitIn_x : isDigitIn 16 (ch 'x') = false ∧ isDigitIn 16 (ch 'X') = false := by
  decide

/-- Where the digits start. -/
def afterMark (base : Nat) (q : Bytes) : Bytes :=
  if base = 16 ∧ q.head? = some (ch '0') ∧
      (q.tail.head? = some (ch 'x') ∨ q.tail.head? = some (ch 'X')) ∧
      q.tail.tail.head?.any (isDigitIn 16) then q.tail.tail
  else q

/-- White space and sign are not among letters and digits. -/
theorem strtol_alnum {q : Bytes} (hq : ∀ c ∈ q, isalnum c = true) (base : Nat) :
    strtol q base =
      if (afterMark base q).takeWhile (isDigitIn base) = [] then (0, q)
      else
        (max LONG_MIN (min LONG_MAX
            (digitsVal base ((afterMark base q).takeWhile (isDigitIn base)) 0)),
          (afterMark base q).dropWhile (isDigitIn base)) := by
  have hspace : q.dropWhile isspace = q := by
    cases q with
    | nil => rfl
    | cons c cs =>
      rw [List.dropWhile_cons, (isalnum_not_space_sign c (hq c List.mem_cons_self)).1]
      rfl
  have hsign : ¬ q.head? = some (ch '-') ∧ ¬ q.head? = some (ch '+') := by
    cases q with
    | nil => exact ⟨by decide, by decide⟩
    | cons c cs =>
      obtain ⟨-, hminus, hplus⟩ := isalnum_not_space_sign c (hq c List.mem_cons_self)
      exact ⟨fun h => hminus (Option.some.inj h), fun h => hplus (Option.some.inj h)⟩
  rw [strtol]
  simp only [hspace, hsign.1, hsign.2, or_self, if_false]
  rfl

/-- The mark is skipped before a digit only, and digits do not start with one. -/
theorem afterMark_digits {base : Nat} {mark ds : Bytes} (hds : Digits base ds)
    (hmark : mark = [] ∨ base = 16 ∧ mark ∈ hexMarks) : afterMark base (mark ++ ds) = ds := by
  obtain ⟨hne, hall⟩ := hds
  cases ds with
  | nil => exact absurd rfl hne
  | cons d ds =>
    rcases hmark with rfl | ⟨rfl, hmark⟩
    · rw [List.nil_append, afterMark, if_neg]
      rintro ⟨rfl, -, hx, -⟩
      cases ds with
      | nil => rcases hx with hx | hx <;> cases hx
      | cons e ds =>
        have he := hall e (List.mem_cons_of_mem _ List.mem_cons_self)
        rcases hx with hx | hx
        · exact absurd he (by rw [Option.some.inj hx, not_isDigitIn_x.1]; decide)
        · exact absurd he (by rw [Option.some.inj hx, not_isDigitIn_x.2]; decide)
    · have hd : (some d).any (isDigitIn 16) = true := hall d List.mem_cons_self
      rcases List.mem_cons.mp hmark with rfl | hmark
      · exact if_pos ⟨rfl, rfl, .inl rfl, hd⟩
      · obtain rfl := List.mem_singleton.mp hmark
        exact if_pos ⟨rfl, rfl, .inr rfl, hd⟩

theorem afterMark_split (base : Nat) (q : Bytes) : ∃ mark, q = mark ++ afterMark base q ∧
    (mark = [] ∨ base = 16 ∧ mark ∈ hexMarks) := by
  rw [afterMark]
  split
  · rename_i hskip
    obtain ⟨hbase, hzero, hx, -⟩ := hskip
    match q, hzero, hx with
    | [], hzero, _ => cases hzero
    | [_], _, hx => rcases hx with hx | hx <;> cases hx
    | c :: d :: cs, hzero, hx =>
      obtain rfl : c = ch '0' := Option.some.inj hzero
      refine ⟨[ch '0', d], rfl, .inr ⟨hbase, ?_⟩⟩
      rcases hx with hx | hx
      · obtain rfl : d = ch 'x' := Option.some.inj hx
        decide
      · obtain rfl : d = ch 'X' := Option.some.inj hx
        decide
  · exact ⟨[], rfl, .inl rfl⟩

/-- **When `strtol` reads a text to its end**, and the value. -/
theorem strtol_iff {q : Bytes} (hq : ∀ c ∈ q, isalnum c = true) (hne : q ≠ []) {base : Nat}
    {v : Int} : strtol q base = (v, []) ↔
      ∃ mark ds, q = mark ++ ds ∧ (mark = [] ∨ base = 16 ∧ mark ∈ hexMarks) ∧ Digits base ds ∧
        v = min LONG_MAX (positional base ds) := by
  have hmax : ∀ n : Nat, max LONG_MIN (min LONG_MAX (n : Int)) = min LONG_MAX n := by
    intro n
    unfold LONG_MIN LONG_MAX
    omega
  rw [strtol_alnum hq]
  constructor
  · intro h
    obtain ⟨mark, hsplit, hmark⟩ := afterMark_split base q
    split at h
    · exact absurd (Prod.mk.inj h).2 hne
    · rename_i hsome
      obtain ⟨hv, hrest⟩ := Prod.mk.inj h
      have hall := List.dropWhile_eq_nil_iff.mp hrest
      have htake := List.takeWhile_eq_self_iff.mpr hall
      rw [htake] at hsome hv
      exact ⟨mark, _, hsplit, hmark, ⟨hsome, hall⟩, by rw [← hv, digitsVal_zero, hmax]⟩
  · rintro ⟨mark, ds, rfl, hmark, hds, rfl⟩
    have htake := List.takeWhile_eq_self_iff.mpr hds.2
    rw [afterMark_digits hds hmark, htake, if_neg hds.1, List.dropWhile_eq_nil_iff.mpr hds.2,
      digitsVal_zero, hmax]

end CLib
