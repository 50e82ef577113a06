import EduCpu16.Lib.CString

/-!
# `errors.h` — error codes and diagnostics
-/

namespace EduCpu16

open CLib

/-- `AsmError`. -/
inductive AsmError
  | ok | undefinedLabel | duplicateLabel | immOverflow | jumpOverflow | unknownMnemonic
  | wrongOperandCount | invalidRegister | invalidNumber | invalidDirective | io | internal
  deriving DecidableEq, Repr

/-- One line `asm_report` prints: the source line, the error code and the formatted message.
The file name before it is the same for every diagnostic of the two passes and is left out. -/
structure Diag where
  line : Nat
  code : AsmError
  msg : Bytes
  deriving DecidableEq, Repr

/-! ## The conversions the message formats use -/

/-- One hexadecimal digit, as `%X` prints it. -/
def hexDigit (d : Nat) : Byte :=
  if d < 10 then BitVec.ofNat 8 (48 + d) else BitVec.ofNat 8 (55 + d)

/-- The hexadecimal digits of `n`, most significant first, `k` of them. -/
def hexDigits (k n : Nat) : Bytes :=
  (List.range k).map fun i => hexDigit (n / 16 ^ (k - 1 - i) % 16)

/-- `%02X` of a byte. -/
def fmt02X (b : Byte) : Bytes := hexDigits 2 b.toNat

/-- `%X` of a 32-bit value: no leading zeros, and one digit for zero. -/
def fmtX (v : BitVec 32) : Bytes :=
  match (hexDigits 8 v.toNat).dropWhile (· = ch '0') with
  | [] => ascii "0"
  | ds => ds

end EduCpu16
