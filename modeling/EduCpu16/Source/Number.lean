import EduCpu16.Assembler.Lexer
import EduCpu16.Lib.Strtol

/-!
# Number literals

What a literal looks like and the number it denotes: a sign or none, the mark of a base or none, and
digits of that base. The number is an integer of any size, so that what fits in 32 bits is a
question of its own (`FitsI32`).

`parse_number` also reads a text with its hexadecimal mark written twice. Such a text is no literal
(`DoublyMarked`), but it spells a number (`Spells`).
-/

namespace EduCpu16
namespace Source

open CLib

inductive Radix
  | decimal | hexadecimal | binary
  deriving DecidableEq, Repr

def Radix.base : Radix → Nat
  | .decimal => 10
  | .hexadecimal => 16
  | .binary => 2

/-- The marks that announce it. -/
def Radix.marks : Radix → List Bytes
  | .decimal => [[]]
  | .hexadecimal => [ascii "0x", ascii "0X"]
  | .binary => [ascii "0b", ascii "0B"]

/-- The signs and what they multiply by. -/
def signs : List (Bytes × Int) := [([], 1), (ascii "+", 1), (ascii "-", -1)]

/-- A literal and the number it denotes. -/
inductive Numeral : Bytes → Int → Prop
  | mk {sign mark ds : Bytes} {s : Int} {r : Radix} (hsign : (sign, s) ∈ signs)
      (hmark : mark ∈ r.marks) (hds : Digits r.base ds) :
      Numeral (sign ++ (mark ++ ds)) (s * positional r.base ds)

/-- A number an `int32_t` has room for. -/
def FitsI32 (v : Int) : Prop := -2 ^ 31 ≤ v ∧ v < 2 ^ 31

/-- A hexadecimal literal with its mark written twice. -/
def DoublyMarked (text : Bytes) : Prop :=
  ∃ sign mark again ds, text = sign ++ (mark ++ (again ++ ds)) ∧ sign ∈ signs.map Prod.fst ∧
    mark ∈ Radix.hexadecimal.marks ∧ again ∈ Radix.hexadecimal.marks ∧ Digits 16 ds

/-- What a number token spells: the number of its literal, or of what is left of it when the
second of two marks is taken out. -/
inductive Spells : Bytes → Int → Prop
  | literal {text : Bytes} {v : Int} (h : Numeral text v) : Spells text v
  | again {sign mark again ds : Bytes} {s : Int} (hsign : (sign, s) ∈ signs)
      (hmark : mark ∈ Radix.hexadecimal.marks) (hagain : again ∈ Radix.hexadecimal.marks)
      (hds : Digits 16 ds) : Spells (sign ++ (mark ++ (again ++ ds))) (s * positional 16 ds)

/-- A number that a `long` holds and that is one of the `n` smallest of an `int32_t` when it is cut
to 32 bits. -/
def CutsLow (n : Nat) (v : Int) : Prop :=
  LONG_MIN < v ∧ v ≤ LONG_MAX ∧ 2 ^ 31 ≤ v % 2 ^ 32 ∧ v % 2 ^ 32 < 2 ^ 31 + n

end Source
end EduCpu16
