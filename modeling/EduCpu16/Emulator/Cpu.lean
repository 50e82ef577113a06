import EduCpu16.Isa
import Mathlib.Logic.Function.Basic

/-!
# `cpu.h`, `cpu.c` — the CPU state
-/

namespace EduCpu16

open CLib

/-! ## Flag masks -/

def flagZf : Byte := 0x01
def flagNf : Byte := 0x02
def flagCf : Byte := 0x04
def flagOf : Byte := 0x08

/-- The registers are numbered by literals of `Fin 8`. -/
instance neZero_regs : NeZero 8 := ⟨by decide⟩

/-- `regs 7` is the stack pointer. -/
structure CPU where
  regs : Fin 8 → Word
  pc : Word
  ir : Word
  flags : Byte
  cycleCount : BitVec 64
  halted : Bool

/-- `cpu->regs[r] = v`. -/
def CPU.setReg (cpu : CPU) (r : Fin 8) (v : Word) : CPU :=
  { cpu with regs := Function.update cpu.regs r v }

/-- Whatever `*cpu` held, all of it is overwritten. -/
def cpuInit (_cpu : CPU) : CPU where
  regs := Function.update (fun _ => 0) 7 stackBase
  pc := 0
  ir := 0
  flags := 0
  cycleCount := 0
  halted := false

def cpuReset (cpu : CPU) : CPU :=
  { cpu with
    regs := Function.update (fun _ => 0) 7 stackBase
    pc := 0
    ir := 0
    flags := 0
    cycleCount := 0
    halted := false }

/-! ## What a register write leaves alone -/

section SetReg

variable (cpu : CPU) (r : Fin 8) (v : Word)

@[simp] theorem CPU.setReg_pc : (cpu.setReg r v).pc = cpu.pc := rfl
@[simp] theorem CPU.setReg_ir : (cpu.setReg r v).ir = cpu.ir := rfl
@[simp] theorem CPU.setReg_flags : (cpu.setReg r v).flags = cpu.flags := rfl
@[simp] theorem CPU.setReg_cycleCount : (cpu.setReg r v).cycleCount = cpu.cycleCount := rfl
@[simp] theorem CPU.setReg_halted : (cpu.setReg r v).halted = cpu.halted := rfl
@[simp] theorem CPU.setReg_regs :
    (cpu.setReg r v).regs = Function.update cpu.regs r v := rfl

end SetReg

end EduCpu16
