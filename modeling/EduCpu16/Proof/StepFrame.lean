import EduCpu16.Proof.Alu
import EduCpu16.Proof.Branch

/-!
# The frame of one step

Which register, which word of memory, which flags and which output a step can touch, read off the
fetched word before the step (`destOf`, `storeOf`, `StepFrame`). `Proof/Step.lean` says what an
invariant needs of a step; this module says everything, over all opcodes.

The frame has a field for each part of the state, with the exact condition under which it changes.
What it changes to is said for memory and output, where two instructions store; for the registers it
is the business of the ALU and of the loads.
-/

namespace EduCpu16
namespace Proof

open CLib

/-- The register an instruction word writes. -/
def destOf (w : Word) : Option (Fin 8) :=
  match opcodeOf w with
  | some .add | some .sub | some .and | some .or | some .xor | some .not | some .shl
  | some .shr | some .addi | some .mov | some .lw => some (rdOf w)
  | some .call | some .ret => some 7
  | _ => none

/-- The address the next step of `m` stores to, and the value. -/
def storeOf (m : Machine) : Option (Word × Word) :=
  match opcodeOf (fetched m) with
  | some .sw => some (m.cpu.regs (rs1Of (fetched m)) + instrImm5 (fetched m),
      m.cpu.regs (rdOf (fetched m)))
  | some .call => some (m.cpu.regs 7, m.cpu.pc + 1)
  | _ => none

/-- The next step of `m` sets `pc` itself: CALL, RET and the jumps that are taken. The flag test of
an opcode that is no conditional jump is false, so all others fall through. -/
def SetsPc (m : Machine) : Prop :=
  match opcodeOf (fetched m) with
  | some .call | some .ret | some .jmp => True
  | some o => flagTest o m.cpu = true
  | none => False

/-- What the next step of `m` leaves alone, and what it does to the rest. -/
structure StepFrame (m : Machine) : Prop where
  regs : ∀ r, destOf (fetched m) ≠ some r → (cpuStep m).cpu.regs r = m.cpu.regs r
  mem : ∀ a, (cpuStep m).bus.mem a =
    match storeOf m with
    | some (addr, val) => if a = addr ∧ a < ioBase then val else m.bus.mem a
    | none => m.bus.mem a
  stdout : (cpuStep m).bus.stdout = m.bus.stdout ++
    match storeOf m with
    | some (addr, val) => if addr = ioStdout then [val.setWidth 8] else []
    | none => []
  flags : (∀ o ∈ Opcode.mov :: aluOps, opcodeOf (fetched m) ≠ some o) →
    (cpuStep m).cpu.flags = m.cpu.flags
  pc : ¬ SetsPc m → (cpuStep m).cpu.pc = m.cpu.pc + 1
  unassigned : opcodeOf (fetched m) = none → (cpuStep m).cpu =
    { m.cpu with
      ir := fetched m, pc := m.cpu.pc + 1, cycleCount := m.cpu.cycleCount + 1, halted := true }

/-! ## Bus writes

A write prints, or stores, or is dropped, by its address alone. -/

/-- The low byte of a stored value, as it is printed. -/
theorem lowByte (val : Word) : (val &&& 0x00FF).setWidth 8 = val.setWidth 8 := by
  apply BitVec.eq_of_toNat_eq
  rw [BitVec.toNat_setWidth, BitVec.toNat_setWidth,
    BitFields.toNat_and_mask (k := 8) val (by decide), Nat.mod_mod]

theorem memWrite_stdout (bus : Bus) (addr val : Word) :
    (memWrite bus addr val).stdout =
      bus.stdout ++ if addr = ioStdout then [val.setWidth 8] else [] := by
  unfold memWrite
  split
  · rw [lowByte]
  · split
    · rw [List.append_nil]
    · rw [List.append_nil]

/-! ## Field by field

For each field one lemma over the opcodes; the theorem is their conjunction. -/

theorem setReg_regs_of_ne {cpu : CPU} {d r : Fin 8} {v : Word} (h : some d ≠ some r) :
    (cpu.setReg d v).regs r = cpu.regs r :=
  Function.update_of_ne (fun hr => h (congrArg some hr.symm)) _ _

theorem jump_regs (m : Machine) (taken : Bool) (off : Word) :
    (m.jump taken off).cpu.regs = m.cpu.regs := by
  cases taken with
  | true => rfl
  | false => rfl

theorem jump_flags (m : Machine) (taken : Bool) (off : Word) :
    (m.jump taken off).cpu.flags = m.cpu.flags := by
  cases taken with
  | true => rfl
  | false => rfl

theorem jump_bus (m : Machine) (taken : Bool) (off : Word) : (m.jump taken off).bus = m.bus := by
  cases taken with
  | true => rfl
  | false => rfl

section Fields

variable {m : Machine}

/-- An unassigned opcode stops the CPU with a message, and that is all. -/
theorem cpuStep_of_unassigned (hrun : m.cpu.halted = false)
    (hop : opcodeOf (fetched m) = none) :
    (cpuStep m).cpu = { (fetch m).cpu with halted := true } ∧
    (cpuStep m).bus.mem = m.bus.mem ∧ (cpuStep m).bus.stdout = m.bus.stdout := by
  have hop' : Opcode.ofCode? ((instrOpcode (fetch m).cpu.ir).setWidth 8) = none := hop
  rw [cpuStep_running hrun, decodeExecute]
  simp only [execute, hop']
  exact ⟨trivial, fetch_mem m, memRead_stdout _ _⟩

theorem cpuStep_regs (hrun : m.cpu.halted = false) {r : Fin 8}
    (hr : destOf (fetched m) ≠ some r) : (cpuStep m).cpu.regs r = m.cpu.regs r := by
  cases hop : opcodeOf (fetched m) with
  | none =>
    rw [(cpuStep_of_unassigned hrun hop).1]
    rfl
  | some o =>
    rw [cpuStep_of_opcode hrun hop]
    simp only [destOf, hop] at hr
    cases o
    case add | sub | and | or | xor | not | shl | shr | addi | mov =>
      simp only [execute, Opcode.ofCode?_code]
      rw [setReg_regs_of_ne hr, aluExecute_regs]
      rfl
    case lw | call | ret =>
      simp only [execute, Opcode.ofCode?_code]
      exact setReg_regs_of_ne hr
    case cmp =>
      simp only [execute, Opcode.ofCode?_code]
      rw [aluExecute_regs]
      rfl
    case jmp | jeq | jne | jlt | jgt =>
      simp only [execute, Opcode.ofCode?_code]
      rw [jump_regs]
      rfl
    case sw | halt =>
      simp only [execute, Opcode.ofCode?_code]
      rfl

theorem cpuStep_flags (hrun : m.cpu.halted = false)
    (hop : ∀ o ∈ Opcode.mov :: aluOps, opcodeOf (fetched m) ≠ some o) :
    (cpuStep m).cpu.flags = m.cpu.flags := by
  cases ho : opcodeOf (fetched m) with
  | none =>
    rw [(cpuStep_of_unassigned hrun ho).1]
    rfl
  | some o =>
    rw [cpuStep_of_opcode hrun ho]
    cases o
    case add | sub | and | or | xor | not | shl | shr | addi | mov | cmp =>
      exact absurd ho (hop _ (by decide))
    case jmp | jeq | jne | jlt | jgt =>
      simp only [execute, Opcode.ofCode?_code]
      rw [jump_flags]
      rfl
    case lw | sw | call | ret | halt =>
      simp only [execute, Opcode.ofCode?_code]
      rfl

theorem cpuStep_mem (hrun : m.cpu.halted = false) (a : Word) : (cpuStep m).bus.mem a =
    match storeOf m with
    | some (addr, val) => if a = addr ∧ a < ioBase then val else m.bus.mem a
    | none => m.bus.mem a := by
  cases hop : opcodeOf (fetched m) with
  | none =>
    simp only [storeOf, hop]
    rw [(cpuStep_of_unassigned hrun hop).2.1]
  | some o =>
    rw [cpuStep_of_opcode hrun hop, execute_mem, Opcode.ofCode?_code]
    simp only [storeOf, hop]
    cases o
    case sw | call =>
      simp only
      rw [memWrite_mem, fetch_mem]
      rfl
    all_goals
      simp only
      rw [fetch_mem]

theorem cpuStep_stdout (hrun : m.cpu.halted = false) :
    (cpuStep m).bus.stdout = m.bus.stdout ++
      match storeOf m with
      | some (addr, val) => if addr = ioStdout then [val.setWidth 8] else []
      | none => [] := by
  have hfetch : (fetch m).bus.stdout = m.bus.stdout := memRead_stdout _ _
  cases hop : opcodeOf (fetched m) with
  | none =>
    simp only [storeOf, hop]
    rw [(cpuStep_of_unassigned hrun hop).2.2, List.append_nil]
  | some o =>
    rw [cpuStep_of_opcode hrun hop]
    simp only [storeOf, hop]
    cases o
    case sw | call =>
      simp only [execute, Opcode.ofCode?_code]
      rw [memWrite_stdout, hfetch]
      rfl
    case lw | ret =>
      simp only [execute, Opcode.ofCode?_code, List.append_nil]
      rw [memRead_stdout, hfetch]
    case jmp | jeq | jne | jlt | jgt =>
      simp only [execute, Opcode.ofCode?_code, List.append_nil]
      rw [jump_bus, hfetch]
    all_goals
      simp only [execute, Opcode.ofCode?_code, List.append_nil]
      exact hfetch

theorem cpuStep_pc (hrun : m.cpu.halted = false) (hpc : ¬ SetsPc m) :
    (cpuStep m).cpu.pc = m.cpu.pc + 1 := by
  cases hop : opcodeOf (fetched m) with
  | none =>
    rw [(cpuStep_of_unassigned hrun hop).1]
    rfl
  | some o =>
    simp only [SetsPc, hop] at hpc
    cases o
    case call | ret | jmp => exact absurd trivial hpc
    case jeq | jne | jlt | jgt =>
      simp only [Bool.not_eq_true] at hpc
      rw [cpuStep_condJump (by decide) hrun hop, hpc]
      rfl
    case add | sub | and | or | xor | not | shl | shr | addi | mov | cmp =>
      rw [cpuStep_of_opcode hrun hop]
      simp only [execute, Opcode.ofCode?_code, CPU.setReg_pc, aluExecute_pc]
      rfl
    case lw | sw | halt =>
      rw [cpuStep_of_opcode hrun hop]
      simp only [execute, Opcode.ofCode?_code]
      rfl

end Fields

/-- **The frame of one step**, of any running machine in any state. Each field is proved by one pass
over the opcodes, and the pass uses what the buses and the ALU are known to leave alone. -/
theorem cpuStep_frame (m : Machine) (hrun : m.cpu.halted = false) : StepFrame m where
  regs := fun _ hr => cpuStep_regs hrun hr
  mem := cpuStep_mem hrun
  stdout := cpuStep_stdout hrun
  flags := cpuStep_flags hrun
  pc := cpuStep_pc hrun
  unassigned := fun hop => (cpuStep_of_unassigned hrun hop).1

/-- The CALL of a machine whose R7 is the output port prints its return address. -/
theorem cpuStep_frame_call :
    StepFrame
      { cpu := ⟨fun _ => ioStdout, 0, 0, 0, 0, false⟩
        bus := ⟨fun _ => 0x9801, [], fun _ => 0, 0, [], []⟩ } :=
  cpuStep_frame _ rfl

end Proof
end EduCpu16
