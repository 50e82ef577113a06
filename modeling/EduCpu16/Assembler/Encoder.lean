import EduCpu16.Assembler.Parser

/-!
# `encoder.c` — one parsed instruction to one 16-bit word

The encoders answer the return code together with what `*out` holds afterwards, `out` being
what it held before.
-/

namespace EduCpu16

open CLib

/-! ## The format encoders -/

/-- `(uint16_t)(((uint16_t)v & mask) << sh)`, one field of a word. -/
def fieldAt (v : Byte) (mask : Word) (sh : Nat) : Word := (v.setWidth 16 &&& mask) <<< sh

def encodeR (op rd rs1 rs2 : Byte) (out : Word) : AsmError × Word :=
  if 0x1F < op then (.internal, out)
  else if numRegs ≤ rd.toNat ∨ numRegs ≤ rs1.toNat ∨ numRegs ≤ rs2.toNat then
    (.invalidRegister, out)
  else
    (.ok, fieldAt op 0x1F 11 ||| fieldAt rd 0x07 8 ||| fieldAt rs1 0x07 5 ||| fieldAt rs2 0x07 2)

def encodeI (op rd rs1 : Byte) (imm : I32) (out : Word) : AsmError × Word :=
  if 0x1F < op then (.internal, out)
  else if numRegs ≤ rd.toNat ∨ numRegs ≤ rs1.toNat then (.invalidRegister, out)
  else if imm.toInt < imm5Min ∨ imm5Max < imm.toInt then (.immOverflow, out)
  else
    (.ok, fieldAt op 0x1F 11 ||| fieldAt rd 0x07 8 ||| fieldAt rs1 0x07 5 |||
      (imm.setWidth 16 &&& 0x1F))

def encodeJ (op : Byte) (offset : I32) (out : Word) : AsmError × Word :=
  if 0x1F < op then (.internal, out)
  else if offset.toInt < jumpMin ∨ jumpMax < offset.toInt then (.jumpOverflow, out)
  else (.ok, fieldAt op 0x1F 11 ||| (offset.setWidth 16 &&& 0x7FF))

/-! ## The mnemonic table -/

/-- The operand shapes. -/
inductive Fmt
  | r3 | r2 | rCmp | i3 | iMov | j | none
  deriving DecidableEq, Repr

structure OpDef where
  name : Bytes
  opcode : Byte
  fmt : Fmt
  deriving DecidableEq, Repr

def opDefs : List OpDef :=
  [⟨ascii "ADD", Opcode.add.code, .r3⟩,
   ⟨ascii "SUB", Opcode.sub.code, .r3⟩,
   ⟨ascii "AND", Opcode.and.code, .r3⟩,
   ⟨ascii "OR", Opcode.or.code, .r3⟩,
   ⟨ascii "XOR", Opcode.xor.code, .r3⟩,
   ⟨ascii "NOT", Opcode.not.code, .r2⟩,
   ⟨ascii "SHL", Opcode.shl.code, .r3⟩,
   ⟨ascii "SHR", Opcode.shr.code, .r3⟩,
   ⟨ascii "ADDI", Opcode.addi.code, .i3⟩,
   ⟨ascii "LW", Opcode.lw.code, .i3⟩,
   ⟨ascii "SW", Opcode.sw.code, .i3⟩,
   ⟨ascii "MOV", Opcode.mov.code, .iMov⟩,
   ⟨ascii "CMP", Opcode.cmp.code, .rCmp⟩,
   ⟨ascii "JMP", Opcode.jmp.code, .j⟩,
   ⟨ascii "JEQ", Opcode.jeq.code, .j⟩,
   ⟨ascii "JNE", Opcode.jne.code, .j⟩,
   ⟨ascii "JLT", Opcode.jlt.code, .j⟩,
   ⟨ascii "JGT", Opcode.jgt.code, .j⟩,
   ⟨ascii "CALL", Opcode.call.code, .j⟩,
   ⟨ascii "RET", Opcode.ret.code, .none⟩,
   ⟨ascii "HALT", Opcode.halt.code, .none⟩]

def findOp (mnemonic : Bytes) : Option OpDef :=
  opDefs.find? fun d => strcasecmp d.name mnemonic = 0

/-! ## Operand accessors and the high-level encoder -/

def wantReg (o : Operand) : Except AsmError Byte :=
  if o.kind = .reg then .ok o.reg else .error .invalidRegister

def wantImm (o : Operand) : Except AsmError I32 :=
  if o.kind = .imm then .ok o.imm else .error .invalidNumber

/-- `if ((rc = want_X(...)) != ERR_OK) return rc;` before the rest of the case. -/
def orReturn {α : Type} (rc : Except AsmError α) (out : Word) (k : α → AsmError × Word) :
    AsmError × Word :=
  match rc with
  | .ok v => k v
  | .error e => (e, out)

/-- `target - (int32_t)(pc + 1)`. The subtraction of two `int32_t` is undefined in C where the
exact difference leaves the type; it is taken as the 32-bit machine subtraction, which lies
outside the jump range there just as the exact difference does. -/
def jumpOffset (target : I32) (pc : Word) : I32 := target - (pc.setWidth 32 + 1)

def encodeInstr (i : Instr) (pc : Word) (out : Word) : AsmError × Word :=
  match findOp i.mnemonic with
  | none => (.unknownMnemonic, out)
  | some d =>
      match d.fmt with
      | .r3 =>
          if i.nops ≠ 3 then (.wrongOperandCount, out)
          else
            orReturn (wantReg (i.ops 0)) out fun rd =>
            orReturn (wantReg (i.ops 1)) out fun rs1 =>
            orReturn (wantReg (i.ops 2)) out fun rs2 =>
            encodeR d.opcode rd rs1 rs2 out
      | .r2 =>
          if i.nops ≠ 2 then (.wrongOperandCount, out)
          else
            orReturn (wantReg (i.ops 0)) out fun rd =>
            orReturn (wantReg (i.ops 1)) out fun rs1 =>
            encodeR d.opcode rd rs1 0 out
      | .rCmp =>
          -- CMP has no destination, and its field is zero.
          if i.nops ≠ 2 then (.wrongOperandCount, out)
          else
            orReturn (wantReg (i.ops 0)) out fun rs1 =>
            orReturn (wantReg (i.ops 1)) out fun rs2 =>
            encodeR d.opcode 0 rs1 rs2 out
      | .i3 =>
          -- For SW the `rd` field holds the register that is stored.
          if i.nops ≠ 3 then (.wrongOperandCount, out)
          else
            orReturn (wantReg (i.ops 0)) out fun rd =>
            orReturn (wantReg (i.ops 1)) out fun rs1 =>
            orReturn (wantImm (i.ops 2)) out fun imm =>
            encodeI d.opcode rd rs1 imm out
      | .iMov =>
          if i.nops ≠ 2 then (.wrongOperandCount, out)
          else
            orReturn (wantReg (i.ops 0)) out fun rd =>
            orReturn (wantImm (i.ops 1)) out fun imm =>
            encodeI d.opcode rd 0 imm out
      | .j =>
          if i.nops ≠ 1 then (.wrongOperandCount, out)
          else if (i.ops 0).kind = .imm then encodeJ d.opcode (jumpOffset (i.ops 0).imm pc) out
          -- Pass 2 has resolved labels, or not come here.
          else if (i.ops 0).kind = .label then (.undefinedLabel, out)
          else (.wrongOperandCount, out)
      | .none =>
          if i.nops ≠ 0 then (.wrongOperandCount, out)
          else encodeR d.opcode 0 0 0 out

end EduCpu16
