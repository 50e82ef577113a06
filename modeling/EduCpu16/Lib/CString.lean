import Mathlib.Algebra.Ring.Int.Defs
import Mathlib.Algebra.Ring.Nat
import Mathlib.Data.List.TakeWhile

/-!
# C strings and the part of the C library that reads them

A NUL-terminated `char *` is the list of the bytes before its NUL. `ctype.h` is taken in the
"C" locale, so every class is a range of ASCII codes; `strcasecmp` and `strtol` follow the
documented behaviour of the 64-bit library (`long` has 64 bits and overflow saturates).

The facts the rest of a development needs are at the end: where the string in a buffer ends, and
that `strcasecmp` answers zero exactly on strings that agree after `tolower`.
-/

namespace CLib

/-- `unsigned char`. -/
abbrev Byte := BitVec 8

/-- The bytes of a NUL-terminated string, without the NUL. -/
abbrev Bytes := List Byte

/-- A character constant. -/
def ch (c : Char) : Byte := BitVec.ofNat 8 c.toNat

/-- A string constant. -/
def ascii (s : String) : Bytes := s.toList.map ch

/-- What a reader of a NUL-terminated string sees of a buffer: the bytes before the first
NUL. Its length is `strlen`. -/
def cstr (buf : Bytes) : Bytes := buf.takeWhile (· ≠ 0)

/-! ## `ctype.h` -/

def isdigit (c : Byte) : Bool := ch '0' ≤ c && c ≤ ch '9'

def isupper (c : Byte) : Bool := ch 'A' ≤ c && c ≤ ch 'Z'

def islower (c : Byte) : Bool := ch 'a' ≤ c && c ≤ ch 'z'

def isalpha (c : Byte) : Bool := isupper c || islower c

def isalnum (c : Byte) : Bool := isalpha c || isdigit c

/-- Space, `\t`, `\n`, `\v`, `\f`, `\r`. -/
def isspace (c : Byte) : Bool := c = ch ' ' || (9 ≤ c && c ≤ 13)

def tolower (c : Byte) : Byte := if isupper c then c + 32 else c

/-! ## `strings.h` -/

/-- Compares the strings after `tolower`; only the sign of the answer is specified, and the NUL
that ends a shorter string is below every byte. -/
def strcasecmp : Bytes → Bytes → Int
  | [], [] => 0
  | _ :: _, [] => 1
  | [], _ :: _ => -1
  | a :: as, b :: bs =>
      if tolower a = tolower b then strcasecmp as bs
      else (tolower a).toNat - (tolower b).toNat

/-! ## `stdlib.h` -/

/-- The value of a digit or letter as a digit of some base. -/
def digitVal? (c : Byte) : Option Nat :=
  if isdigit c then some (c.toNat - (ch '0').toNat)
  else if isupper c then some (c.toNat - (ch 'A').toNat + 10)
  else if islower c then some (c.toNat - (ch 'a').toNat + 10)
  else none

/-- Whether `c` is a digit of base `base`. -/
def isDigitIn (base : Nat) (c : Byte) : Bool :=
  match digitVal? c with
  | some d => d < base
  | none => false

/-- The value the digits spell, most significant first, from `acc`. -/
def digitsVal (base : Nat) : Bytes → Nat → Nat
  | [], acc => acc
  | c :: cs, acc => digitsVal base cs (acc * base + (digitVal? c).getD 0)

def LONG_MAX : Int := 2 ^ 63 - 1

def LONG_MIN : Int := -2 ^ 63

/-- `strtol(s, &end, base)`: the value, and the suffix `end` points to. White space and a sign
are skipped, in base 16 also a `0x` that a hexadecimal digit follows; with no digit there is no
conversion and `end` is `s`. -/
def strtol (s : Bytes) (base : Nat) : Int × Bytes :=
  let p := s.dropWhile isspace
  let neg := p.head? = some (ch '-')
  let p := if neg ∨ p.head? = some (ch '+') then p.tail else p
  let p :=
    if base = 16 ∧ p.head? = some (ch '0') ∧
        (p.tail.head? = some (ch 'x') ∨ p.tail.head? = some (ch 'X')) ∧
        (p.tail.tail.head?.any (isDigitIn 16)) then p.tail.tail
    else p
  let ds := p.takeWhile (isDigitIn base)
  if ds = [] then (0, s)
  else
    let v : Int := digitsVal base ds 0
    let v := if neg then -v else v
    (max LONG_MIN (min LONG_MAX v), p.dropWhile (isDigitIn base))

/-! ## Strings in buffers -/

theorem cstr_cons {c : Byte} (h : c ≠ 0) (cs : Bytes) : cstr (c :: cs) = c :: cstr cs :=
  List.takeWhile_cons_of_pos (decide_eq_true h)

theorem cstr_of_not_mem {s : Bytes} (h : 0 ∉ s) : cstr s = s := by
  apply List.takeWhile_eq_self_iff.mpr
  intro b hb
  have hne : b ≠ 0 := by
    rintro rfl
    exact h hb
  simpa using hne

theorem not_mem_cstr (s : Bytes) : 0 ∉ cstr s := by
  intro h
  have := List.mem_takeWhile_imp h
  simp at this

/-- A text begins with its C string. -/
theorem take_cstr (s : Bytes) : s.take (cstr s).length = cstr s :=
  (List.prefix_iff_eq_take.mp (List.takeWhile_prefix _)).symm

/-- A text is its C string, or its C string, a zero and the rest. -/
theorem cstr_append_of_mem {s : Bytes} (h : 0 ∈ s) : ∃ rest, s = cstr s ++ 0 :: rest := by
  induction s with
  | nil => exact absurd h List.not_mem_nil
  | cons c cs ih =>
    by_cases hc : c = 0
    · subst hc
      exact ⟨cs, rfl⟩
    · obtain ⟨rest, hrest⟩ := ih ((List.mem_cons.mp h).resolve_left fun h0 => hc h0.symm)
      refine ⟨rest, ?_⟩
      rw [cstr_cons hc, List.cons_append, ← hrest]

/-- What is behind the first NUL is not seen. -/
theorem cstr_append_zero (s rest : Bytes) : cstr (s ++ 0 :: rest) = cstr s := by
  induction s with
  | nil => rfl
  | cons c cs ih =>
    by_cases hc : c = 0
    · subst hc
      rfl
    · rw [List.cons_append, cstr_cons hc, cstr_cons hc, ih]

/-! ## Equality up to case -/

theorem strcasecmp_eq_zero_iff : ∀ {a b : Bytes},
    strcasecmp a b = 0 ↔ a.map tolower = b.map tolower
  | [], [] => by simp [strcasecmp]
  | _ :: _, [] => by simp [strcasecmp]
  | [], _ :: _ => by simp [strcasecmp]
  | a :: as, b :: bs => by
    by_cases h : tolower a = tolower b
    · simp [strcasecmp, h, strcasecmp_eq_zero_iff]
    · have hne : (tolower a).toNat ≠ (tolower b).toNat := fun hn => h (BitVec.eq_of_toNat_eq hn)
      rw [strcasecmp, if_neg h]
      simp only [List.map_cons, List.cons.injEq, h, false_and, iff_false]
      omega

end CLib
