import EduCpu16.Emulator.Alu
import EduCpu16.Emulator.Memory

/-!
# `control.c` — one step of the CPU

`cpuStep` is `cpu_step`: fetch, decode by the `INSTR_*` macros, and `execute`, the `switch` over
the opcode. A run of `n` steps is the iterate `cpuStep^[n]`; a step of a halted CPU does nothing,
so the loop of `cpu_run` is the same iterate up to the step that halts.
-/

namespace EduCpu16

open CLib

structure Machine where
  cpu : CPU
  bus : Bus

/-- The register a three-bit field names. -/
def regIx (r : Byte) : Fin 8 := Fin.ofNat 8 r.toNat

/-- `cpu->pc = (uint16_t)(cpu->pc + off)`, when `taken`. -/
def Machine.jump (m : Machine) (taken : Bool) (off : Word) : Machine :=
  if taken then { m with cpu := { m.cpu with pc := m.cpu.pc + off } } else m

def CPU.flag (cpu : CPU) (mask : Byte) : Bool := cpu.flags &&& mask ≠ 0

/-- The `switch` of `cpu_step`. -/
def execute (op : Byte) (rd rs1 rs2 : Fin 8) (imm off : Word) (m : Machine) : Machine :=
  let cpu := m.cpu
  match Opcode.ofCode? op with
  | some .add | some .sub | some .and | some .or | some .xor | some .shl | some .shr =>
      let (r, cpu) := aluExecute cpu op (cpu.regs rs1) (cpu.regs rs2)
      { m with cpu := cpu.setReg rd r }
  | some .not =>
      let (r, cpu) := aluExecute cpu op (cpu.regs rs1) 0
      { m with cpu := cpu.setReg rd r }
  | some .addi =>
      let (r, cpu) := aluExecute cpu op (cpu.regs rs1) imm
      { m with cpu := cpu.setReg rd r }
  | some .lw =>
      let (v, bus) := memRead m.bus (cpu.regs rs1 + imm)
      { cpu := cpu.setReg rd v, bus := bus }
  | some .sw => { m with bus := memWrite m.bus (cpu.regs rs1 + imm) (cpu.regs rd) }
  | some .mov =>
      -- An addition to zero, so MOV sets the flags.
      let (r, cpu) := aluExecute cpu Opcode.add.code 0 imm
      { m with cpu := cpu.setReg rd r }
  | some .cmp => { m with cpu := (aluExecute cpu op (cpu.regs rs1) (cpu.regs rs2)).2 }
  | some .jmp => m.jump true off
  | some .jeq => m.jump (cpu.flag flagZf) off
  | some .jne => m.jump (!cpu.flag flagZf) off
  | some .jlt => m.jump (cpu.flag flagNf) off
  | some .jgt => m.jump (!cpu.flag flagZf && !cpu.flag flagNf) off
  | some .call =>
      -- The stack grows down, and `regs 7` points at the next free word.
      let bus := memWrite m.bus (cpu.regs 7) cpu.pc
      let cpu := cpu.setReg 7 (cpu.regs 7 - 1)
      { cpu := { cpu with pc := cpu.pc + off }, bus := bus }
  | some .ret =>
      let cpu := cpu.setReg 7 (cpu.regs 7 + 1)
      let (pc, bus) := memRead m.bus (cpu.regs 7)
      { cpu := { cpu with pc := pc }, bus := bus }
  | some .halt => { m with cpu := { cpu with halted := true } }
  | none =>
      -- An unassigned opcode; `pc` has moved past it already.
      { cpu := { cpu with halted := true }
        bus := { m.bus with stderr := m.bus.stderr ++ [(op, cpu.pc - 1)] } }

/-- The FETCH part of `cpu_step`. -/
def fetch (m : Machine) : Machine :=
  -- A fetch from the MMIO page reads the device.
  let (ir, bus) := memRead m.bus m.cpu.pc
  { cpu := { m.cpu with ir := ir, pc := m.cpu.pc + 1, cycleCount := m.cpu.cycleCount + 1 }
    bus := bus }

/-- The DECODE and EXECUTE parts, on the word in `ir`. -/
def decodeExecute (m : Machine) : Machine :=
  let ir := m.cpu.ir
  execute ((instrOpcode ir).setWidth 8)
    (regIx ((instrRd ir).setWidth 8)) (regIx ((instrRs1 ir).setWidth 8))
    (regIx ((instrRs2 ir).setWidth 8)) (instrImm5 ir) (instrOffset ir) m

def cpuStep (m : Machine) : Machine :=
  if m.cpu.halted then m else decodeExecute (fetch m)

theorem cpuStep_halted {m : Machine} (h : m.cpu.halted = true) : cpuStep m = m := by
  simp [cpuStep, h]

theorem cpuStep_running {m : Machine} (h : m.cpu.halted = false) :
    cpuStep m = decodeExecute (fetch m) := by
  simp [cpuStep, h]

end EduCpu16
