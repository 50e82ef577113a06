import EduCpu16.Proof.Alu

/-!
# A comparison and the jump after it

CMP sets ZF and NF from the wrapped 16-bit difference and clears OF, and the conditional jumps read
no flag but ZF and NF. So JEQ and JNE decide equality, while JLT and JGT follow the signed order as
far as the difference of the two values is itself a 16-bit number; past that its sign bit is the
wrong one and the two jumps change places.

This is how the machine is built and not a slip in it: nothing in the sources promises the signed
order for differences out of range, and no instruction would tell. `decidedOrder` states what is
decided for all pairs of values, and `cmp_then_jump` is about any state before the CMP.
-/

namespace EduCpu16
namespace Proof

open CLib

/-- The conditional jumps. -/
def condJumps : List Opcode := [.jeq, .jne, .jlt, .jgt]

/-- The comparison each conditional jump is named after, on signed values. -/
def signedOrder (o : Opcode) (a b : Word) : Prop :=
  match o with
  | .jeq => a = b
  | .jne => a ≠ b
  | .jlt => a.toInt < b.toInt
  | .jgt => b.toInt < a.toInt
  | _ => False

/-- The difference of the signed values is a signed 16-bit value. It is where the sign of the
wrapped difference is the sign of the difference. -/
def DiffFits (a b : Word) : Prop := -32768 ≤ a.toInt - b.toInt ∧ a.toInt - b.toInt ≤ 32767

/-- What the jumps decide: JLT and JGT the other way round when the difference does not fit. -/
def decidedOrder (o : Opcode) (a b : Word) : Prop :=
  match o with
  | .jlt => (DiffFits a b ∧ a.toInt < b.toInt) ∨ (¬ DiffFits a b ∧ b.toInt < a.toInt)
  | .jgt => (DiffFits a b ∧ b.toInt < a.toInt) ∨ (¬ DiffFits a b ∧ a.toInt < b.toInt)
  | o => signedOrder o a b

/-- The next step of `m` goes to the target of its jump if `cond`, and otherwise on to the next
instruction. Both halves determine the whole state after the step, so nothing else happens in it. -/
def JumpsIff (m : Machine) (cond : Prop) : Prop :=
  (cond → cpuStep m = (fetch m).jump true (instrOffset (fetched m))) ∧
  (¬ cond → cpuStep m = fetch m)

/-! ## The flags after CMP

From the ALU's specification, of which only ZF and NF are used. -/

/-- CMP leaves the sign and the vanishing of the wrapped difference in NF and ZF. -/
theorem cmp_flags {m : Machine} (hrun : m.cpu.halted = false)
    (hop : opcodeOf (fetched m) = some .cmp) :
    let a := m.cpu.regs (rs1Of (fetched m))
    let b := m.cpu.regs (rs2Of (fetched m))
    ((cpuStep m).cpu.flag flagZf = true ↔ a = b) ∧
    ((cpuStep m).cpu.flag flagNf = true ↔ (a - b).toInt < 0) ∧
    (cpuStep m).cpu.halted = false := by
  intro a b
  have hspec := aluExecute_spec (o := .cmp) (by decide) (fetch m).cpu a b
  have hres : (aluExecute (fetch m).cpu Opcode.cmp.code a b).1 = a - b := setWidth_sub_wide a b
  have hcpu : (cpuStep m).cpu = (aluExecute (fetch m).cpu Opcode.cmp.code a b).2 := by
    rw [cpuStep_of_opcode hrun hop]
    simp only [execute, Opcode.ofCode?_code]
    rfl
  rw [hcpu]
  refine ⟨?_, ?_, ?_⟩
  · rw [hspec.zf, hres, BitVec.sub_eq_iff_eq_add]
    show a = 0#16 + b ↔ a = b
    rw [BitVec.zero_add]
  · rw [hspec.nf, hres]
  · rw [aluExecute_halted]
    exact hrun

/-! ## The jump

A jump tests its flags and does nothing else, so the rest is arithmetic on two signed words. -/

/-- The flag test of a conditional jump. -/
def flagTest (o : Opcode) (cpu : CPU) : Bool :=
  match o with
  | .jeq => cpu.flag flagZf
  | .jne => !cpu.flag flagZf
  | .jlt => cpu.flag flagNf
  | .jgt => !cpu.flag flagZf && !cpu.flag flagNf
  | _ => false

theorem cpuStep_condJump {m : Machine} {o : Opcode} (ho : o ∈ condJumps)
    (hrun : m.cpu.halted = false) (hop : opcodeOf (fetched m) = some o) :
    cpuStep m = (fetch m).jump (flagTest o m.cpu) (instrOffset (fetched m)) := by
  rw [cpuStep_of_opcode hrun hop]
  simp only [condJumps, List.mem_cons, List.not_mem_nil, or_false] at ho
  rcases ho with rfl | rfl | rfl | rfl
  all_goals
    simp only [execute, Opcode.ofCode?_code]
    rfl

theorem jumpsIff_of_flagTest {m : Machine} {o : Opcode} {cond : Prop} (ho : o ∈ condJumps)
    (hrun : m.cpu.halted = false) (hop : opcodeOf (fetched m) = some o)
    (htest : flagTest o m.cpu = true ↔ cond) : JumpsIff m cond := by
  constructor
  · intro hc
    rw [cpuStep_condJump ho hrun hop, htest.mpr hc]
  · intro hc
    have hfalse : flagTest o m.cpu = false := Bool.eq_false_iff.mpr fun h => hc (htest.mp h)
    rw [cpuStep_condJump ho hrun hop, hfalse]
    rfl

/-- The sign of the wrapped difference decides the order, or its reverse. -/
theorem decidedOrder_iff (a b : Word) :
    (decidedOrder .jlt a b ↔ (a - b).toInt < 0) ∧
    (decidedOrder .jgt a b ↔ ¬ (a = b ∨ (a - b).toInt < 0)) := by
  have heq : a = b ↔ a.toInt - b.toInt = 0 := by
    rw [← BitVec.toInt_inj]
    omega
  have ha := BitVec.le_two_mul_toInt (x := a)
  have ha' := BitVec.two_mul_toInt_lt (x := a)
  have hb := BitVec.le_two_mul_toInt (x := b)
  have hb' := BitVec.two_mul_toInt_lt (x := b)
  rw [heq, decidedOrder, decidedOrder, DiffFits]
  rcases WideWord.toInt_sub_cases (k := 15) a b with ⟨hsub, hfit⟩ | ⟨hsub, hlow⟩ | ⟨hsub, hhigh⟩
  all_goals
    rw [hsub]
    omega

/-- **Compare and branch.** JEQ and JNE after a CMP decide equality. JLT and JGT decide the
signed order if the difference fits in 16 bits, and the opposite order if it does not. -/
theorem cmp_then_jump {m : Machine} {o : Opcode} (hrun : m.cpu.halted = false)
    (hcmp : opcodeOf (fetched m) = some .cmp) (ho : o ∈ condJumps)
    (hnext : opcodeOf (fetched (cpuStep m)) = some o) :
    JumpsIff (cpuStep m) (decidedOrder o (m.cpu.regs (rs1Of (fetched m)))
      (m.cpu.regs (rs2Of (fetched m)))) := by
  obtain ⟨hz, hn, hrun'⟩ := cmp_flags hrun hcmp
  obtain ⟨hlt, hgt⟩ := decidedOrder_iff (m.cpu.regs (rs1Of (fetched m)))
    (m.cpu.regs (rs2Of (fetched m)))
  apply jumpsIff_of_flagTest ho hrun' hnext
  simp only [condJumps, List.mem_cons, List.not_mem_nil, or_false] at ho
  rcases ho with rfl | rfl | rfl | rfl
  · exact hz
  · rw [flagTest, Bool.not_eq_true', ← Bool.not_eq_true, hz]
    exact Iff.rfl
  · rw [flagTest, hn, hlt]
  · rw [flagTest, Bool.and_eq_true, Bool.not_eq_true', Bool.not_eq_true', ← Bool.not_eq_true,
      ← Bool.not_eq_true, hz, hn, hgt, not_or]

/-- R1 holds -32768 and R2 holds 1; the program is `CMP R1, R2` and a JLT of five words. -/
def leastBeforeOne : Machine where
  cpu := ⟨fun r => if r = 1 then 0x8000 else if r = 2 then 1 else 0, 0, 0, 0, 0, false⟩
  bus := ⟨fun a => if a = 0 then 0x6828 else if a = 1 then 0x8805 else 0, [], fun _ => 0, 0, [],
    []⟩

theorem cmp_then_jump_leastBeforeOne :
    JumpsIff (cpuStep leastBeforeOne) (decidedOrder .jlt 0x8000 1) :=
  cmp_then_jump (m := leastBeforeOne) (o := .jlt) rfl (by decide) (by decide) (by decide)

/-- The signed order itself is not what JLT decides: -32768 is less than 1, and the JLT is not
taken. -/
theorem cmp_then_jump_not_signedOrder :
    ¬ ∀ (m : Machine) (o : Opcode), m.cpu.halted = false → opcodeOf (fetched m) = some .cmp →
      o ∈ condJumps → opcodeOf (fetched (cpuStep m)) = some o →
      JumpsIff (cpuStep m) (signedOrder o (m.cpu.regs (rs1Of (fetched m)))
        (m.cpu.regs (rs2Of (fetched m)))) := by
  intro h
  have hless : signedOrder .jlt (leastBeforeOne.cpu.regs (rs1Of (fetched leastBeforeOne)))
      (leastBeforeOne.cpu.regs (rs2Of (fetched leastBeforeOne))) := by
    show (0x8000 : Word).toInt < (1 : Word).toInt
    decide
  have hjump := (h leastBeforeOne .jlt rfl (by decide) (by decide) (by decide)).1 hless
  have hpc : (cpuStep (cpuStep leastBeforeOne)).cpu.pc = 7 := by
    rw [hjump]
    decide
  exact absurd hpc (by decide)

end Proof
end EduCpu16
