import EduCpu16.Lib.CString

/-!
# `isa.h` — the constants and decode helpers both halves share

`uint16_t` is `Word`, `int16_t` is `Word` read through `toInt`, and `int32_t` is `I32` read
through `toInt`. The opcodes are an enumeration with their five-bit codes beside it; a `switch`
over an opcode is a `match` on `Opcode.ofCode?`, whose `none` is the `default:`.
-/

namespace EduCpu16

open CLib

/-- `uint16_t`, an address or a memory word. -/
abbrev Word := BitVec 16

/-- `int32_t`. -/
abbrev I32 := BitVec 32

/-- `NUM_REGS`. -/
def numRegs : Nat := 8

inductive Opcode
  | add | sub | and | or | xor | not | shl | shr | addi | lw | sw | mov | cmp
  | jmp | jeq | jne | jlt | jgt | call | ret | halt
  deriving DecidableEq, Repr

namespace Opcode

/-- The `OP_*` values. -/
def code : Opcode → Byte
  | add => 0x01 | sub => 0x02 | and => 0x03 | or => 0x04 | xor => 0x05 | not => 0x06
  | shl => 0x07 | shr => 0x08 | addi => 0x09 | lw => 0x0A | sw => 0x0B | mov => 0x0C
  | cmp => 0x0D | jmp => 0x0E | jeq => 0x0F | jne => 0x10 | jlt => 0x11 | jgt => 0x12
  | call => 0x13 | ret => 0x14 | halt => 0x1F

def all : List Opcode :=
  [add, sub, and, or, xor, not, shl, shr, addi, lw, sw, mov, cmp,
   jmp, jeq, jne, jlt, jgt, call, ret, halt]

/-- The opcode a code is assigned to, if any. -/
def ofCode? (b : Byte) : Option Opcode := all.find? (·.code = b)

@[simp] theorem ofCode?_code (o : Opcode) : ofCode? o.code = some o := by
  cases o <;> decide

theorem code_of_ofCode? {b : Byte} {o : Opcode} (h : ofCode? b = some o) : o.code = b := by
  have hp := List.find?_some h
  exact of_decide_eq_true hp

end Opcode

/-! ## Bounds and the memory map -/

/-- `IMM5_MIN` and `IMM5_MAX`. -/
def imm5Min : Int := -16
def imm5Max : Int := 15

/-- `JUMP_MIN` and `JUMP_MAX`. -/
def jumpMin : Int := -1024
def jumpMax : Int := 1023

/-- `MEM_SIZE`, in words. -/
def memSize : Nat := 0x10000

def ioBase : Word := 0xFF00
def ioStdout : Word := 0xFF00
def ioStdin : Word := 0xFF01
def ioTimer : Word := 0xFF02
def stackBase : Word := 0xFEFF

/-! ## The `INSTR_*` macros

A shift of an `int16_t` is a shift of the promoted `int` cut back to 16 bits, which is the
shift of the 16-bit vector; `>>` on a negative value is the arithmetic shift. -/

/-- `INSTR_OPCODE`. -/
def instrOpcode (w : Word) : Word := (w >>> 11) &&& 0x1F

/-- `INSTR_RD`. -/
def instrRd (w : Word) : Word := (w >>> 8) &&& 0x07

/-- `INSTR_RS1`. -/
def instrRs1 (w : Word) : Word := (w >>> 5) &&& 0x07

/-- `INSTR_RS2`. -/
def instrRs2 (w : Word) : Word := (w >>> 2) &&& 0x07

/-- `INSTR_IMM5`: the low five bits, sign-extended. -/
def instrImm5 (w : Word) : Word := (w <<< 11).sshiftRight 11

/-- `INSTR_OFFSET`: the low eleven bits, sign-extended. -/
def instrOffset (w : Word) : Word := (w <<< 5).sshiftRight 5

end EduCpu16
