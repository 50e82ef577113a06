import EduCpu16.Assembler.Parser
import EduCpu16.Emulator.Control

/-!
# The meaning of a source program

A machine that executes parsed instructions as they are written. It looks at mnemonics and
operands only, never at an instruction word: an operand that is a name stands for the value the
environment gives it, a jump continues at the address its operand stands for. The state is the
emulator's, whose `ir` this machine neither reads nor writes.

This is what the assembler and the emulator are together compared with.
-/

namespace EduCpu16

open CLib

/-- How a mnemonic is written. -/
def Opcode.mnemonic : Opcode → Bytes
  | add => ascii "ADD" | sub => ascii "SUB" | and => ascii "AND" | or => ascii "OR"
  | xor => ascii "XOR" | not => ascii "NOT" | shl => ascii "SHL" | shr => ascii "SHR"
  | addi => ascii "ADDI" | lw => ascii "LW" | sw => ascii "SW" | mov => ascii "MOV"
  | cmp => ascii "CMP" | jmp => ascii "JMP" | jeq => ascii "JEQ" | jne => ascii "JNE"
  | jlt => ascii "JLT" | jgt => ascii "JGT" | call => ascii "CALL" | ret => ascii "RET"
  | halt => ascii "HALT"

/-- The operation a mnemonic names, in either case. -/
def readMnemonic (text : Bytes) : Option Opcode :=
  Opcode.all.find? fun o => strcasecmp o.mnemonic text = 0

/-- The value of a name. -/
abbrev Env := Bytes → Option Word

/-- The value an operand stands for, as a 16-bit word. -/
def operandWord (env : Env) (o : Operand) : Word :=
  match o.kind with
  | .imm => o.imm.setWidth 16
  | .label => (env o.label).getD 0
  | .none | .reg => 0

/-- The instruction at each address. -/
abbrev Program := Word → Option Instr

namespace Source

/-- Past the instruction at `pc`. -/
def advance (m : Machine) : Machine :=
  { m with cpu := { m.cpu with pc := m.cpu.pc + 1, cycleCount := m.cpu.cycleCount + 1 } }

/-- A register operand. -/
def reg (i : Instr) (k : Fin 3) : Fin 8 := regIx (i.ops k).reg

/-- A jump to an address. -/
def goto (m : Machine) (taken : Bool) (target : Word) : Machine :=
  if taken then { m with cpu := { m.cpu with pc := target } } else m

/-- The address a SW goes to. -/
def storeAddr (env : Env) (i : Instr) (m : Machine) : Word :=
  m.cpu.regs (reg i 1) + operandWord env (i.ops 2)

/-- Execute one instruction, past which `m` has been advanced. -/
def exec (env : Env) (o : Opcode) (i : Instr) (m : Machine) : Machine :=
  let cpu := m.cpu
  match o with
  | .add | .sub | .and | .or | .xor | .shl | .shr =>
      let (r, cpu) := aluExecute cpu o.code (cpu.regs (reg i 1)) (cpu.regs (reg i 2))
      { m with cpu := cpu.setReg (reg i 0) r }
  | .not =>
      let (r, cpu) := aluExecute cpu o.code (cpu.regs (reg i 1)) 0
      { m with cpu := cpu.setReg (reg i 0) r }
  | .addi =>
      let (r, cpu) := aluExecute cpu o.code (cpu.regs (reg i 1)) (operandWord env (i.ops 2))
      { m with cpu := cpu.setReg (reg i 0) r }
  | .lw =>
      let (v, bus) := memRead m.bus (cpu.regs (reg i 1) + operandWord env (i.ops 2))
      { cpu := cpu.setReg (reg i 0) v, bus := bus }
  | .sw => { m with bus := memWrite m.bus (storeAddr env i m) (cpu.regs (reg i 0)) }
  | .mov =>
      let (r, cpu) := aluExecute cpu Opcode.add.code 0 (operandWord env (i.ops 1))
      { m with cpu := cpu.setReg (reg i 0) r }
  | .cmp =>
      { m with cpu := (aluExecute cpu o.code (cpu.regs (reg i 0)) (cpu.regs (reg i 1))).2 }
  | .jmp => goto m true (operandWord env (i.ops 0))
  | .jeq => goto m (cpu.flag flagZf) (operandWord env (i.ops 0))
  | .jne => goto m (!cpu.flag flagZf) (operandWord env (i.ops 0))
  | .jlt => goto m (cpu.flag flagNf) (operandWord env (i.ops 0))
  | .jgt => goto m (!cpu.flag flagZf && !cpu.flag flagNf) (operandWord env (i.ops 0))
  | .call =>
      let bus := memWrite m.bus (cpu.regs 7) cpu.pc
      let cpu := cpu.setReg 7 (cpu.regs 7 - 1)
      { cpu := { cpu with pc := operandWord env (i.ops 0) }, bus := bus }
  | .ret =>
      let cpu := cpu.setReg 7 (cpu.regs 7 + 1)
      let (pc, bus) := memRead m.bus (cpu.regs 7)
      { cpu := { cpu with pc := pc }, bus := bus }
  | .halt => { m with cpu := { cpu with halted := true } }

/-- One step. Where there is no instruction the machine is stuck. -/
def step (prog : Program) (env : Env) (m : Machine) : Machine :=
  if m.cpu.halted then m
  else
    match prog m.cpu.pc with
    | none => m
    | some i =>
        match readMnemonic i.mnemonic with
        | none => m
        | some o => exec env o i (advance m)

/-- The next step executes an instruction line, and stores to no instruction line. It is the
condition under which a step can be told from the source: the emulator executes words of memory, and
these are the words of the source until one is overwritten, or until the program comes to an address
at which no instruction line stands. The stores are those of a SW and of the push of a CALL; on a
halted machine nothing is asked. -/
def Allowed (prog : Program) (env : Env) (m : Machine) : Prop :=
  m.cpu.halted = true ∨
  ∃ i, prog m.cpu.pc = some i ∧
    (readMnemonic i.mnemonic = some .sw → prog (storeAddr env i m) = none) ∧
    (readMnemonic i.mnemonic = some .call → prog (m.cpu.regs 7) = none)

instance (prog : Program) (env : Env) (m : Machine) : Decidable (Allowed prog env m) :=
  match h : prog m.cpu.pc with
  | none => decidable_of_iff (m.cpu.halted = true) (by simp [Allowed, h])
  | some i =>
      decidable_of_iff
        (m.cpu.halted = true ∨
          (readMnemonic i.mnemonic = some .sw → prog (storeAddr env i m) = none) ∧
          (readMnemonic i.mnemonic = some .call → prog (m.cpu.regs 7) = none))
        (by simp [Allowed, h])

end Source

end EduCpu16
