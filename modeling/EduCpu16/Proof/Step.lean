import EduCpu16.Emulator.Control
import Mathlib.Logic.Function.Iterate

/-!
# What one step of the CPU can change

The invariants of a run are all about single fields: the flags, the memory above the program, the
cycle counter, `halted`. This module says once, field by field, what the `switch` of `cpu_step` does
to each of them, so that no later proof goes through the opcodes again.

The ALU comes first: it writes flags and nothing else (`aluExecute_cpu`), and the flags it leaves
keep `FlagsOk`. Then comes the `switch`, for any operands, and last the step, where the operands are
decoded from the word that was fetched.
-/

namespace EduCpu16
namespace Proof

open CLib

/-! ## Flags

ZF and NF are set together and from the same result, which is why they are never both set. -/

/-- Bits 4 to 7 are zero, and a result is never both zero and negative. -/
def FlagsOk (cpu : CPU) : Prop :=
  cpu.flags &&& 0xF0 = 0 ∧ ¬ (cpu.flag flagZf = true ∧ cpu.flag flagNf = true)

section SetFlag

variable (cpu : CPU) (mask : Byte) (v : Bool)

theorem setFlag_cpu : setFlag cpu mask v = { cpu with flags := (setFlag cpu mask v).flags } := by
  cases v with
  | true => rfl
  | false => rfl

/-- The bits outside the mask stay. -/
theorem setFlag_and {keep : Byte} (h : mask &&& keep = 0) :
    (setFlag cpu mask v).flags &&& keep = cpu.flags &&& keep := by
  have hnot : ~~~mask &&& keep = keep :=
    calc ~~~mask &&& keep = (mask &&& keep) ||| (~~~mask &&& keep) := by simp [h]
      _ = (mask ||| ~~~mask) &&& keep := BitVec.and_or_distrib_right.symm
      _ = keep := by rw [BitVec.or_not_self, BitVec.allOnes_and]
  cases v with
  | true =>
    show (cpu.flags ||| mask) &&& keep = cpu.flags &&& keep
    simp [BitVec.and_or_distrib_right, h]
  | false =>
    show (cpu.flags &&& ~~~mask) &&& keep = cpu.flags &&& keep
    rw [BitVec.and_assoc, hnot]

theorem setFlag_flag_of_disjoint {mask' : Byte} (h : mask &&& mask' = 0) :
    (setFlag cpu mask v).flag mask' = cpu.flag mask' := by
  simp only [CPU.flag, setFlag_and cpu mask v h]

theorem setFlag_flag_self (h : mask ≠ 0) : (setFlag cpu mask v).flag mask = v := by
  cases v with
  | true =>
    have hand : (cpu.flags ||| mask) &&& mask = mask := by
      ext i hi
      simpa using fun hbit => Or.inr hbit
    show decide ((cpu.flags ||| mask) &&& mask ≠ 0) = true
    rw [hand]
    exact decide_eq_true h
  | false =>
    have hand : (cpu.flags &&& ~~~mask) &&& mask = 0 := by simp [BitVec.and_assoc]
    show decide ((cpu.flags &&& ~~~mask) &&& mask ≠ 0) = false
    rw [hand]
    rfl

end SetFlag

theorem updateZnFlags_flagsOk {cpu : CPU} (h : cpu.flags &&& 0xF0 = 0) (result : Word) :
    FlagsOk (updateZnFlags cpu result) := by
  refine ⟨?_, ?_⟩
  · rw [updateZnFlags, setFlag_and _ _ _ (by decide), setFlag_and _ _ _ (by decide), h]
  · rintro ⟨hz, hn⟩
    -- ZF is read through the later write of NF.
    rw [updateZnFlags, setFlag_flag_of_disjoint _ _ _ (by decide),
      setFlag_flag_self _ _ _ (by decide)] at hz
    rw [updateZnFlags, setFlag_flag_self _ _ _ (by decide)] at hn
    have hzero : result = 0 := of_decide_eq_true hz
    exact of_decide_eq_true hn (by rw [hzero]; rfl)

/-! ## The ALU

Its operations end in one of three places, and what is said of the flags is said of those. -/

section Alu

variable (cpu : CPU) (op : Byte) (a b : Word)

theorem aluNoCarry_cpu (result : Word) :
    (aluNoCarry cpu result).2 = { cpu with flags := (aluNoCarry cpu result).2.flags } := by
  rw [aluNoCarry, updateZnFlags, setFlag_cpu, setFlag_cpu cpu]

theorem aluCarry_cpu (result32 : BitVec 32) (isAddLike : Bool) :
    (aluCarry cpu a b result32 isAddLike).2 =
      { cpu with flags := (aluCarry cpu a b result32 isAddLike).2.flags } := by
  rw [aluCarry, aluNoCarry_cpu, setFlag_cpu, setFlag_cpu cpu]

/-- The three ways through the `switch`: past `no_carry`, to it, and out at `default:`. -/
theorem aluExecute_cases :
    (∃ result32 isAddLike, aluExecute cpu op a b = aluCarry cpu a b result32 isAddLike) ∨
    (∃ result, aluExecute cpu op a b = aluNoCarry cpu result) ∨
    aluExecute cpu op a b = (a, cpu) := by
  unfold aluExecute
  split
  case h_1 | h_2 | h_3 | h_4 | h_9 => exact .inl ⟨_, _, rfl⟩
  case h_5 | h_6 | h_7 | h_8 | h_10 => exact .inr (.inl ⟨_, rfl⟩)
  case h_11 => exact .inr (.inr rfl)

/-- **`alu_execute` changes nothing of the CPU but the flags.** -/
theorem aluExecute_cpu :
    (aluExecute cpu op a b).2 = { cpu with flags := (aluExecute cpu op a b).2.flags } := by
  rcases aluExecute_cases cpu op a b with ⟨_, _, h⟩ | ⟨_, h⟩ | h
  · rw [h, ← aluCarry_cpu]
  · rw [h, ← aluNoCarry_cpu]
  · rw [h]

@[simp] theorem aluExecute_regs : (aluExecute cpu op a b).2.regs = cpu.regs := by
  rw [aluExecute_cpu]

@[simp] theorem aluExecute_pc : (aluExecute cpu op a b).2.pc = cpu.pc := by
  rw [aluExecute_cpu]

@[simp] theorem aluExecute_ir : (aluExecute cpu op a b).2.ir = cpu.ir := by
  rw [aluExecute_cpu]

@[simp] theorem aluExecute_cycleCount :
    (aluExecute cpu op a b).2.cycleCount = cpu.cycleCount := by
  rw [aluExecute_cpu]

@[simp] theorem aluExecute_halted : (aluExecute cpu op a b).2.halted = cpu.halted := by
  rw [aluExecute_cpu]

variable {cpu}

theorem aluCarry_flagsOk (h : cpu.flags &&& 0xF0 = 0) (result32 : BitVec 32)
    (isAddLike : Bool) : FlagsOk (aluCarry cpu a b result32 isAddLike).2 := by
  refine updateZnFlags_flagsOk ?_ _
  rw [setFlag_and _ _ _ (by decide), setFlag_and _ _ _ (by decide), h]

theorem aluNoCarry_flagsOk (h : cpu.flags &&& 0xF0 = 0) (result : Word) :
    FlagsOk (aluNoCarry cpu result).2 :=
  updateZnFlags_flagsOk h result

/-- Whatever the operation, the flags it leaves are in order. -/
theorem aluExecute_flagsOk (h : FlagsOk cpu) : FlagsOk (aluExecute cpu op a b).2 := by
  rcases aluExecute_cases cpu op a b with ⟨_, _, heq⟩ | ⟨_, heq⟩ | heq
  · rw [heq]
    exact aluCarry_flagsOk _ _ h.1 _ _
  · rw [heq]
    exact aluNoCarry_flagsOk h.1 _
  · rw [heq]
    exact h

end Alu

/-! ## The `switch` of `cpu_step`

For each part of the state the opcodes that write it, with all others as one case. -/

section Execute

variable (op : Byte) (rd rs1 rs2 : Fin 8) (imm off : Word) (m : Machine)

/-- The `switch` writes registers, `pc`, flags and `halted`, and nothing else of the CPU. -/
theorem execute_cpu : ∃ regs pc flags halted, (execute op rd rs1 rs2 imm off m).cpu =
    { m.cpu with regs := regs, pc := pc, flags := flags, halted := halted } := by
  cases hop : Opcode.ofCode? op with
  | none =>
    simp only [execute, hop]
    exact ⟨_, _, _, _, rfl⟩
  | some o =>
    cases o
    case add | sub | and | or | xor | shl | shr | not | addi | mov | cmp =>
      simp only [execute, hop]
      rw [aluExecute_cpu]
      exact ⟨_, _, _, _, rfl⟩
    case lw | sw | call | ret | halt =>
      simp only [execute, hop]
      exact ⟨_, _, _, _, rfl⟩
    case jmp | jeq | jne | jlt | jgt =>
      simp only [execute, hop, Machine.jump]
      split
      · exact ⟨_, _, _, _, rfl⟩
      · exact ⟨_, _, _, _, rfl⟩

theorem execute_ir : (execute op rd rs1 rs2 imm off m).cpu.ir = m.cpu.ir := by
  obtain ⟨regs, pc, flags, halted, h⟩ := execute_cpu op rd rs1 rs2 imm off m
  rw [h]

theorem execute_cycleCount :
    (execute op rd rs1 rs2 imm off m).cpu.cycleCount = m.cpu.cycleCount := by
  obtain ⟨regs, pc, flags, halted, h⟩ := execute_cpu op rd rs1 rs2 imm off m
  rw [h]

/-- An opcode that stops the CPU: `OP_HALT`, or one that is not assigned. -/
def Stops (o : Option Opcode) : Prop := o = some .halt ∨ o = none

/-- An instruction that stops the CPU does nothing else to it, and nothing to memory. -/
theorem execute_of_stops (h : Stops (Opcode.ofCode? op)) :
    (execute op rd rs1 rs2 imm off m).cpu = { m.cpu with halted := true } ∧
    (execute op rd rs1 rs2 imm off m).bus.mem = m.bus.mem := by
  rcases h with h | h
  · simp [execute, h]
  · simp [execute, h]

/-- Any other instruction leaves `halted` as it is. -/
theorem execute_halted_of_not_stops (h : ¬ Stops (Opcode.ofCode? op)) :
    (execute op rd rs1 rs2 imm off m).cpu.halted = m.cpu.halted := by
  cases hop : Opcode.ofCode? op with
  | none => exact absurd (.inr hop) h
  | some o =>
    cases o with
    | halt => exact absurd (.inl hop) h
    | _ => simp [execute, hop, Machine.jump] <;> split <;> rfl

/-- Memory is written by SW and by the push of CALL. -/
theorem execute_mem : (execute op rd rs1 rs2 imm off m).bus.mem =
    match Opcode.ofCode? op with
    | some .sw => (memWrite m.bus (m.cpu.regs rs1 + imm) (m.cpu.regs rd)).mem
    | some .call => (memWrite m.bus (m.cpu.regs 7) m.cpu.pc).mem
    | _ => m.bus.mem := by
  cases hop : Opcode.ofCode? op with
  | none => simp [execute, hop]
  | some o => cases o <;> simp [execute, hop, Machine.jump] <;> split <;> rfl

/-- The words behind the MMIO page never change. -/
theorem execute_mem_io {a : Word} (ha : ioBase ≤ a) :
    (execute op rd rs1 rs2 imm off m).bus.mem a = m.bus.mem a := by
  have hwrite : ∀ addr val, (memWrite m.bus addr val).mem a = m.bus.mem a := by
    intro addr val
    rw [memWrite_mem, if_neg fun h => BitVec.not_lt.mpr ha h.2]
  rw [execute_mem]
  split
  · exact hwrite _ _
  · exact hwrite _ _
  · rfl

theorem execute_flagsOk (h : FlagsOk m.cpu) :
    FlagsOk (execute op rd rs1 rs2 imm off m).cpu := by
  cases hop : Opcode.ofCode? op with
  | none =>
    simp only [execute, hop]
    exact h
  | some o =>
    cases o
    case add | sub | and | or | xor | shl | shr | not | addi | mov | cmp =>
      simp only [execute, hop]
      exact aluExecute_flagsOk _ _ _ h
    case lw | sw | call | ret | halt =>
      simp only [execute, hop]
      exact h
    case jmp | jeq | jne | jlt | jgt =>
      simp only [execute, hop, Machine.jump]
      split
      · exact h
      · exact h

end Execute

/-! ## The step

A step is FETCH, DECODE and EXECUTE. The names for what it decodes (`opcodeOf`, `rdOf` and so on)
are functions of the word, so that a statement about a step can speak of the word alone. -/

/-- The opcode of an instruction word, as `cpu_step` decodes it. -/
def opcodeOf (w : Word) : Option Opcode := Opcode.ofCode? ((instrOpcode w).setWidth 8)

/-- The register fields of an instruction word, as `cpu_step` decodes them. -/
def rdOf (w : Word) : Fin 8 := regIx ((instrRd w).setWidth 8)
def rs1Of (w : Word) : Fin 8 := regIx ((instrRs1 w).setWidth 8)
def rs2Of (w : Word) : Fin 8 := regIx ((instrRs2 w).setWidth 8)

/-- The word the next step fetches. -/
def fetched (m : Machine) : Word := (memRead m.bus m.cpu.pc).1

theorem fetch_cpu (m : Machine) : (fetch m).cpu =
    { m.cpu with ir := fetched m, pc := m.cpu.pc + 1, cycleCount := m.cpu.cycleCount + 1 } := rfl

theorem fetch_mem (m : Machine) : (fetch m).bus.mem = m.bus.mem := memRead_mem _ _

/-- A step that fetches an assigned opcode runs its `case` of the `switch`. -/
theorem cpuStep_of_opcode {m : Machine} {o : Opcode} (hrun : m.cpu.halted = false)
    (hop : opcodeOf (fetched m) = some o) :
    cpuStep m = execute o.code (rdOf (fetched m)) (rs1Of (fetched m)) (rs2Of (fetched m))
      (instrImm5 (fetched m)) (instrOffset (fetched m)) (fetch m) := by
  rw [cpuStep_running hrun, decodeExecute, Opcode.code_of_ofCode? hop]
  rfl

theorem cpuStep_flagsOk {m : Machine} (h : FlagsOk m.cpu) : FlagsOk (cpuStep m).cpu := by
  cases hh : m.cpu.halted with
  | true => rwa [cpuStep_halted hh]
  | false =>
    rw [cpuStep_running hh]
    exact execute_flagsOk _ _ _ _ _ _ _ h

theorem cpuStep_mem_io (m : Machine) {a : Word} (ha : ioBase ≤ a) :
    (cpuStep m).bus.mem a = m.bus.mem a := by
  cases hh : m.cpu.halted with
  | true => rw [cpuStep_halted hh]
  | false => rw [cpuStep_running hh, decodeExecute, execute_mem_io _ _ _ _ _ _ _ ha, fetch_mem]

theorem cpuStep_cycleCount (m : Machine) :
    (cpuStep m).cpu.cycleCount = m.cpu.cycleCount + if m.cpu.halted then 0 else 1 := by
  cases hh : m.cpu.halted with
  | true => simp [cpuStep_halted hh]
  | false => rw [cpuStep_running hh, decodeExecute, execute_cycleCount]; rfl

/-- What the step that halts leaves: the instruction in `ir`, and `pc` just after it. A word that is
no instruction halts as well, with a message. -/
structure HaltedBy (m m' : Machine) : Prop where
  running : m.cpu.halted = false
  ir : m'.cpu.ir = fetched m
  stops : Stops (opcodeOf (fetched m))
  pc : m'.cpu.pc = m.cpu.pc + 1

/-- A CPU becomes halted by an instruction that stops it. -/
theorem haltedBy_of_cpuStep {m : Machine} (hh : m.cpu.halted = false)
    (h : (cpuStep m).cpu.halted = true) : HaltedBy m (cpuStep m) := by
  rw [cpuStep_running hh] at h ⊢
  by_cases hs : Stops (opcodeOf (fetched m))
  · have hcpu := (execute_of_stops _ (regIx ((instrRd (fetched m)).setWidth 8))
      (regIx ((instrRs1 (fetched m)).setWidth 8)) (regIx ((instrRs2 (fetched m)).setWidth 8))
      (instrImm5 (fetched m)) (instrOffset (fetched m)) (fetch m) hs).1
    have hir : (decodeExecute (fetch m)).cpu.ir = fetched m := execute_ir _ _ _ _ _ _ _
    have hpc : (decodeExecute (fetch m)).cpu.pc = m.cpu.pc + 1 := congrArg CPU.pc hcpu
    exact ⟨hh, hir, hs, hpc⟩
  · have hkeep : (decodeExecute (fetch m)).cpu.halted = (fetch m).cpu.halted :=
      execute_halted_of_not_stops _ _ _ _ _ _ _ hs
    rw [hkeep, fetch_cpu] at h
    exact absurd (h.symm.trans hh) (by decide)

end Proof
end EduCpu16
