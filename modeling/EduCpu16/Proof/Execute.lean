import EduCpu16.Proof.Encoder
import EduCpu16.Proof.Step
import EduCpu16.Source.Machine

/-!
# An encoded instruction does what it says

The `switch` of `cpu_step`, on the fields decoded from a word that `encode_instr` built, changes the
machine as the source machine's `exec` does on the operands as written (`execute_decoded`). It is
the step of the simulation in `Simulation.lean`, one case for each opcode, and nothing in it knows
how the word came into memory.

The two machines have another word in `ir`: the source machine has no use for one. As no instruction
looks at it (`execute_withIr`), the difference can be carried along.
-/

namespace EduCpu16
namespace Proof

open CLib Source

/-! ## The mnemonic table

The table is searched without regard to case and lists each opcode once, so it is a function from
the opcodes to their formats. -/

/-- The operand shape of each operation. -/
def fmtOf : Opcode → Fmt
  | .add | .sub | .and | .or | .xor | .shl | .shr => .r3
  | .not => .r2
  | .cmp => .rCmp
  | .addi | .lw | .sw => .i3
  | .mov => .iMov
  | .jmp | .jeq | .jne | .jlt | .jgt | .call => .j
  | .ret | .halt => .none

def defOf (o : Opcode) : OpDef := ⟨o.mnemonic, o.code, fmtOf o⟩

theorem opDefs_eq : opDefs = Opcode.all.map defOf := rfl

/-- The assembler and the source machine read mnemonics alike. -/
theorem findOp_eq (text : Bytes) : findOp text = (readMnemonic text).map defOf := by
  rw [findOp, opDefs_eq, List.find?_map]
  rfl

/-! ## The instruction register

`ir` is written by the fetch and read by the decoding only, which come before. -/

/-- The machine with another word in `ir`. -/
def withIr (w : Word) (m : Machine) : Machine := { m with cpu := { m.cpu with ir := w } }

section WithIr

variable (w : Word)

theorem setFlag_withIr (cpu : CPU) (mask : Byte) (v : Bool) :
    setFlag { cpu with ir := w } mask v = { setFlag cpu mask v with ir := w } := by
  cases v with
  | true => rfl
  | false => rfl

theorem aluNoCarry_withIr (cpu : CPU) (result : Word) :
    aluNoCarry { cpu with ir := w } result =
      ((aluNoCarry cpu result).1, { (aluNoCarry cpu result).2 with ir := w }) := by
  simp only [aluNoCarry, updateZnFlags, setFlag_withIr]

theorem aluCarry_withIr (cpu : CPU) (a b : Word) (result32 : BitVec 32) (isAddLike : Bool) :
    aluCarry { cpu with ir := w } a b result32 isAddLike =
      ((aluCarry cpu a b result32 isAddLike).1,
        { (aluCarry cpu a b result32 isAddLike).2 with ir := w }) := by
  simp only [aluCarry, setFlag_withIr, aluNoCarry_withIr]

/-- The ALU does not look at `ir`. -/
theorem aluExecute_withIr (cpu : CPU) (op : Byte) (a b : Word) :
    aluExecute { cpu with ir := w } op a b =
      ((aluExecute cpu op a b).1, { (aluExecute cpu op a b).2 with ir := w }) := by
  cases hop : Opcode.ofCode? op with
  | none => simp only [aluExecute, hop]
  | some o =>
    cases o <;> simp only [aluExecute, hop, aluCarry_withIr, aluNoCarry_withIr]

theorem jump_withIr (m : Machine) (taken : Bool) (off : Word) :
    (withIr w m).jump taken off = withIr w (m.jump taken off) := by
  cases taken with
  | true => rfl
  | false => rfl

/-- Nor does any instruction. -/
theorem execute_withIr (op : Byte) (rd rs1 rs2 : Fin 8) (imm off : Word) (m : Machine) :
    execute op rd rs1 rs2 imm off (withIr w m) =
      withIr w (execute op rd rs1 rs2 imm off m) := by
  cases hop : Opcode.ofCode? op with
  | none => simp only [execute, hop, withIr]
  | some o =>
    cases o
    case jmp | jeq | jne | jlt | jgt =>
      simp only [execute, hop]
      exact jump_withIr w m _ off
    all_goals simp only [execute, hop, withIr, aluExecute_withIr, CPU.setReg]

end WithIr

/-! ## Operands

An operand of the source may be a name, and the encoder has seen its value. A jump's operand is an
absolute address in the source and an offset in the word; the two are related by `Decodes`. -/

/-- `i'` is `i` with its names replaced by their values. The values are compared as words: an
operand of `i'` may be a number of 32 bits, of which the machine sees the low 16. -/
structure Resolved (env : Env) (i i' : Instr) : Prop where
  mnemonic : i'.mnemonic = i.mnemonic
  reg : ∀ k, (i'.ops k).reg = (i.ops k).reg
  kind : ∀ k, (i'.ops k).kind = .reg → (i.ops k).kind = .reg
  word : ∀ k : Fin 3, k.val < i'.nops → (i'.ops k).kind = .imm →
    (i'.ops k).imm.setWidth 16 = operandWord env (i.ops k)

/-- A 16-bit value equal to a 32-bit one is its low half. -/
theorem eq_setWidth_of_toInt_eq {x : Word} {y : I32} (h : x.toInt = y.toInt) :
    x = y.setWidth 16 := by
  have hx := BitVec.toInt_eq_toNat_cond x
  have hy := BitVec.toInt_eq_toNat_cond y
  have hlt := x.isLt
  apply BitVec.eq_of_toNat_eq
  rw [BitVec.toNat_setWidth]
  split at hx <;> split at hy <;> omega

/-! ## Execution

Opcode by opcode, with the operands that the format of each has. -/

/-- A relative jump goes to the address it lands on. -/
theorem jump_eq_goto {m : Machine} {off target : Word} (h : m.cpu.pc + off = target)
    (taken : Bool) : m.jump taken off = goto m taken target := by
  cases taken with
  | true => simp only [Machine.jump, goto, h]
  | false => rfl

/-- **An encoded instruction does what it says.** -/
theorem execute_decoded {env : Env} {o : Opcode} {i i' : Instr} {w : Word} {m : Machine}
    (hres : Resolved env i i') (hfit : Fits i' m.cpu.pc (fmtOf o))
    (hdec : Decodes (defOf o) i' m.cpu.pc w) :
    execute ((instrOpcode w).setWidth 8) (regIx ((instrRd w).setWidth 8))
      (regIx ((instrRs1 w).setWidth 8)) (regIx ((instrRs2 w).setWidth 8)) (instrImm5 w)
      (instrOffset w) (advance m) = exec env o i (advance m) := by
  obtain ⟨hop, hdec⟩ := hdec
  have hop : (instrOpcode w).setWidth 8 = o.code := hop
  have hcode := Opcode.ofCode?_code o
  rw [hop]
  -- One case for each operand shape: registers, then immediates, then jump targets.
  cases o
  case add | sub | and | or | xor | shl | shr =>
    obtain ⟨hrd, hrs1, hrs2⟩ := hdec
    simp only [execute, hcode, exec, reg, hrd, hrs1, hrs2, hres.reg]
  case not =>
    obtain ⟨hrd, hrs1⟩ := hdec
    simp only [execute, hcode, exec, reg, hrd, hrs1, hres.reg]
  case cmp =>
    obtain ⟨-, hrs1, hrs2⟩ := hdec
    simp only [execute, hcode, exec, reg, hrs1, hrs2, hres.reg]
  case addi | lw | sw =>
    obtain ⟨hrd, hrs1, himm⟩ := hdec
    obtain ⟨hn, -, -, hk, -⟩ := hfit
    have hword := (eq_setWidth_of_toInt_eq himm).trans (hres.word 2 (by rw [hn]; decide) hk)
    simp only [execute, hcode, exec, reg, storeAddr, hrd, hrs1, hword, hres.reg]
  case mov =>
    obtain ⟨hrd, -, himm⟩ := hdec
    obtain ⟨hn, -, hk, -⟩ := hfit
    have hword := (eq_setWidth_of_toInt_eq himm).trans (hres.word 1 (by rw [hn]; decide) hk)
    simp only [execute, hcode, exec, reg, hrd, hword, hres.reg]
  case jmp | jeq | jne | jlt | jgt =>
    obtain ⟨-, hland⟩ := hdec
    obtain ⟨hn, hk, -⟩ := hfit
    have hword := hland.trans (hres.word 0 (by rw [hn]; decide) hk)
    simp only [execute, hcode, exec]
    exact jump_eq_goto hword _
  case call =>
    obtain ⟨-, hland⟩ := hdec
    obtain ⟨hn, hk, -⟩ := hfit
    have hword := hland.trans (hres.word 0 (by rw [hn]; decide) hk)
    simp only [execute, hcode, exec, advance, CPU.setReg, hword]
  case ret | halt => simp only [execute, hcode, exec]

/-- Memory changes where a SW or the push of a CALL goes. -/
theorem exec_mem (env : Env) (o : Opcode) (i : Instr) (m : Machine) :
    (exec env o i m).bus.mem =
      match o with
      | .sw => (memWrite m.bus (storeAddr env i m) (m.cpu.regs (reg i 0))).mem
      | .call => (memWrite m.bus (m.cpu.regs 7) m.cpu.pc).mem
      | _ => m.bus.mem := by
  cases o <;> simp [exec, goto] <;> split <;> rfl

end Proof
end EduCpu16
