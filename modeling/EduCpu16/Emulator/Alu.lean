import EduCpu16.Emulator.Cpu

/-!
# `alu.c`

`alu_execute` changes nothing of the CPU but the flags. The `switch` falls into two groups: the
cases that go through the 32-bit `result32` and set the carry and overflow flags, and those that
jump to `no_carry` with a 16-bit `result`.
-/

namespace EduCpu16

open CLib

def setFlag (cpu : CPU) (mask : Byte) (value : Bool) : CPU :=
  if value then { cpu with flags := cpu.flags ||| mask }
  else { cpu with flags := cpu.flags &&& ~~~mask }

def updateZnFlags (cpu : CPU) (result : Word) : CPU :=
  setFlag (setFlag cpu flagZf (result = 0)) flagNf (result &&& 0x8000 ≠ 0)

/-- From the label `no_carry` on. -/
def aluNoCarry (cpu : CPU) (result : Word) : Word × CPU := (result, updateZnFlags cpu result)

/-- The signed overflow test of the add-like cases: equal operand signs, another result sign. -/
def addOverflows (a b result : Word) : Bool :=
  let signA := (a >>> 15) &&& 1
  let signB := (b >>> 15) &&& 1
  let signR := (result >>> 15) &&& 1
  signA = signB ∧ signR ≠ signA

/-- After the `switch`, for the cases that `break`. -/
def aluCarry (cpu : CPU) (a b : Word) (result32 : BitVec 32) (isAddLike : Bool) : Word × CPU :=
  let result : Word := result32.setWidth 16
  let cpu := setFlag cpu flagCf (0xFFFF < result32)
  let cpu := setFlag cpu flagOf (isAddLike && addOverflows a b result)
  aluNoCarry cpu result

def aluExecute (cpu : CPU) (op : Byte) (a b : Word) : Word × CPU :=
  match Opcode.ofCode? op with
  | some .add | some .addi => aluCarry cpu a b (a.setWidth 32 + b.setWidth 32) true
  | some .sub | some .cmp => aluCarry cpu a b (a.setWidth 32 - b.setWidth 32) false
  | some .and => aluNoCarry cpu (a &&& b)
  | some .or => aluNoCarry cpu (a ||| b)
  | some .xor => aluNoCarry cpu (a ^^^ b)
  | some .not => aluNoCarry cpu (~~~a)
  | some .shl => aluCarry cpu a b (a.setWidth 32 <<< (b &&& 0x0F)) false
  | some .shr => aluNoCarry cpu (a >>> (b &&& 0x0F))
  | _ => (a, cpu)

end EduCpu16
