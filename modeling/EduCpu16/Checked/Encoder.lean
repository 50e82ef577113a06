import EduCpu16.Assembler.Encoder
import EduCpu16.Lib.CheckedC

/-!
# `encoder.c` with its subtraction checked

`encode_instr` subtracts two `int32_t` before `encode_J` looks at the range of the result. Here the
subtraction is a fault where the exact difference leaves the type, which C leaves undefined.
-/

namespace EduCpu16
namespace Checked

open CLib CheckedC

/-- `encode_instr`. Only the jumps do signed arithmetic. -/
def encodeInstr (i : Instr) (pc out : Word) : Run (AsmError × Word) :=
  match findOp i.mnemonic with
  | none => return (.unknownMnemonic, out)
  | some d =>
      match d.fmt with
      | .j =>
          if i.nops ≠ 1 then return (.wrongOperandCount, out)
          else if (i.ops 0).kind = .imm then do
            -- `pc + 1` is an `int` of at most 65536.
            let offset ← sub (i.ops 0).imm (pc.setWidth 32 + 1)
            return encodeJ d.opcode offset out
          else if (i.ops 0).kind = .label then return (.undefinedLabel, out)
          else return (.wrongOperandCount, out)
      | .r3 | .r2 | .rCmp | .i3 | .iMov | .none => return EduCpu16.encodeInstr i pc out

end Checked
end EduCpu16
