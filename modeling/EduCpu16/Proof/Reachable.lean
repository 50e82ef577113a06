import EduCpu16.Emulator.Main
import EduCpu16.Proof.Step

/-!
# What holds in every state the emulator reaches

A run is the iterate `cpuStep^[n]` of a machine that `cpu_init` and `cpu_reset` have started.
`RunInv` is the invariant of the run, kept by every step (`RunInv.step`); its last field is about
the run's past, so the invariant takes the whole run and the number of steps made.

The step itself is described once, in `Step.lean`: what it does to the flags, the MMIO page and the
cycle counter, and what has happened when it halts. Here these facts are only put together along the
run.
-/

namespace EduCpu16
namespace Proof

open CLib

/-- The number of the first `n` steps that began with `halted` false. -/
def liveSteps (m : Machine) (n : Nat) : Nat :=
  (List.range n).countP fun k => !(cpuStep^[k] m).cpu.halted

theorem liveSteps_succ (m : Machine) (n : Nat) :
    liveSteps m (n + 1) = liveSteps m n + if (cpuStep^[n] m).cpu.halted then 0 else 1 := by
  rw [liveSteps, List.range_succ, List.countP_append, ← liveSteps]
  cases h : (cpuStep^[n] m).cpu.halted with
  | true => simp [h]
  | false => simp [h]

theorem iterate_halted {m : Machine} (h : m.cpu.halted = true) (j : Nat) : cpuStep^[j] m = m :=
  Function.iterate_fixed (cpuStep_halted h) j

/-- The invariant of a run from `m₀`, after `n` steps. Each field is kept on its own, but for the
halted one: a CPU that is halted stays so with nothing changed, and was running before the step that
halted it. -/
structure RunInv (m₀ : Machine) (n : Nat) : Prop where
  flags : FlagsOk (cpuStep^[n] m₀).cpu
  io : ∀ a, ioBase ≤ a → (cpuStep^[n] m₀).bus.mem a = m₀.bus.mem a
  cycles : (cpuStep^[n] m₀).cpu.cycleCount = BitVec.ofNat 64 (liveSteps m₀ n)
  halted : (cpuStep^[n] m₀).cpu.halted = true →
    ∃ k < n, HaltedBy (cpuStep^[k] m₀) (cpuStep^[n] m₀)

theorem RunInv.zero {m₀ : Machine} (hf : FlagsOk m₀.cpu) (hc : m₀.cpu.cycleCount = 0)
    (hh : m₀.cpu.halted = false) : RunInv m₀ 0 where
  flags := hf
  io := fun _ _ => rfl
  cycles := hc
  halted := fun h => absurd (h.symm.trans hh) (by decide)

/-- Every step keeps the invariant. -/
theorem RunInv.step {m₀ : Machine} {n : Nat} (hi : RunInv m₀ n) : RunInv m₀ (n + 1) := by
  have hsucc : cpuStep^[n + 1] m₀ = cpuStep (cpuStep^[n] m₀) := Function.iterate_succ_apply' _ _ _
  refine ⟨?_, ?_, ?_, ?_⟩
  · rw [hsucc]
    exact cpuStep_flagsOk hi.flags
  · intro a ha
    rw [hsucc, cpuStep_mem_io _ ha]
    exact hi.io a ha
  · rw [hsucc, cpuStep_cycleCount, hi.cycles, liveSteps_succ, BitVec.ofNat_add]
    split
    · rfl
    · rfl
  · intro h
    rw [hsucc] at h ⊢
    -- Halted before this step, or by it.
    cases hh : (cpuStep^[n] m₀).cpu.halted with
    | true =>
      obtain ⟨k, hk, hby⟩ := hi.halted hh
      rw [cpuStep_halted hh]
      exact ⟨k, Nat.lt_succ_of_lt hk, hby⟩
    | false => exact ⟨n, Nat.lt_succ_self n, haltedBy_of_cpuStep hh h⟩

theorem runInv {m₀ : Machine} (hf : FlagsOk m₀.cpu) (hc : m₀.cpu.cycleCount = 0)
    (hh : m₀.cpu.halted = false) (n : Nat) : RunInv m₀ n := by
  induction n with
  | zero => exact RunInv.zero hf hc hh
  | succ n ih => exact ih.step

/-! ## Conditional jumps

`Takes` and `Skips` are about the `switch` with any operands, so that the three jumps are compared
in one and the same state. That exactly one of them is taken needs that ZF and NF are not both set,
which is part of `FlagsOk`. -/

/-- The jump `o`, executed in `m`, is taken. -/
def Takes (o : Opcode) (m : Machine) : Prop :=
  ∀ rd rs1 rs2 imm off, execute o.code rd rs1 rs2 imm off m = m.jump true off

/-- The jump `o`, executed in `m`, is not taken. -/
def Skips (o : Opcode) (m : Machine) : Prop :=
  ∀ rd rs1 rs2 imm off, execute o.code rd rs1 rs2 imm off m = m

theorem takes_or_skips_jeq (m : Machine) :
    if m.cpu.flag flagZf then Takes .jeq m ∧ Skips .jne m else Skips .jeq m ∧ Takes .jne m := by
  cases hz : m.cpu.flag flagZf with
  | true => constructor <;> intro _ _ _ _ _ <;> simp [execute, hz, Machine.jump]
  | false => constructor <;> intro _ _ _ _ _ <;> simp [execute, hz, Machine.jump]

theorem takes_or_skips_jlt (m : Machine) :
    if m.cpu.flag flagNf then Takes .jlt m else Skips .jlt m := by
  cases hn : m.cpu.flag flagNf with
  | true => intro _ _ _ _ _; simp [execute, hn, Machine.jump]
  | false => intro _ _ _ _ _; simp [execute, hn, Machine.jump]

theorem takes_or_skips_jgt (m : Machine) :
    if m.cpu.flag flagZf || m.cpu.flag flagNf then Skips .jgt m else Takes .jgt m := by
  cases hz : m.cpu.flag flagZf with
  | true => intro _ _ _ _ _; simp [execute, hz, Machine.jump]
  | false =>
    cases hn : m.cpu.flag flagNf with
    | true => intro _ _ _ _ _; simp [execute, hz, hn, Machine.jump]
    | false => intro _ _ _ _ _; simp [execute, hz, hn, Machine.jump]

/-- Exactly one of JEQ, JLT and JGT is taken, and JNE is the negation of JEQ. -/
def JumpsOk (m : Machine) : Prop :=
  ((Takes .jeq m ∧ Skips .jlt m ∧ Skips .jgt m) ∨
    (Skips .jeq m ∧ Takes .jlt m ∧ Skips .jgt m) ∨
    (Skips .jeq m ∧ Skips .jlt m ∧ Takes .jgt m)) ∧
  ((Takes .jeq m ∧ Skips .jne m) ∨ (Skips .jeq m ∧ Takes .jne m))

theorem jumpsOk_of_flagsOk {m : Machine} (h : FlagsOk m.cpu) : JumpsOk m := by
  have heq := takes_or_skips_jeq m
  have hlt := takes_or_skips_jlt m
  have hgt := takes_or_skips_jgt m
  cases hz : m.cpu.flag flagZf with
  | true =>
    have hn : m.cpu.flag flagNf = false := Bool.eq_false_iff.mpr fun hn => h.2 ⟨hz, hn⟩
    simp only [hz, hn, if_true, Bool.true_or, Bool.false_eq_true, if_false] at heq hlt hgt
    exact ⟨.inl ⟨heq.1, hlt, hgt⟩, .inl heq⟩
  | false =>
    cases hn : m.cpu.flag flagNf with
    | true =>
      simp only [hz, hn, if_true, Bool.or_true, Bool.false_eq_true, if_false] at heq hlt hgt
      exact ⟨.inr (.inl ⟨heq.1, hlt, hgt⟩), .inr heq⟩
    | false =>
      simp only [hz, hn, Bool.or_false, Bool.false_eq_true, if_false] at heq hlt hgt
      exact ⟨.inr (.inr ⟨heq.1, hlt, hgt⟩), .inr heq⟩

/-! ## The emulator's run

The machine that `main` starts meets the invariant, and so does whatever it comes to. -/

theorem bootMachine_flagsOk (cpu : CPU) (mem : Word → Word) (stdin : Bytes)
    (clock : Nat → BitVec 64) : FlagsOk (bootMachine cpu mem stdin clock).cpu := by
  constructor
  · show (0 : Byte) &&& 0xF0 = 0
    decide
  · rintro ⟨hz, -⟩
    exact absurd (show decide ((0 : Byte) &&& flagZf ≠ 0) = true from hz) (by decide)

/-- **The invariant of the emulator.** After any number of steps on any memory: the flags are in
order, so exactly one of the signed comparisons' jumps is taken; the words behind the MMIO page
are those that were loaded; the cycle counter counts the steps that ran; and a halted CPU was
halted by an instruction that stops it, has `pc` just after it, and never changes again. -/
theorem reachable_invariant (cpu : CPU) (mem : Word → Word) (stdin : Bytes)
    (clock : Nat → BitVec 64) (n : Nat) :
    let m₀ := bootMachine cpu mem stdin clock
    let m := cpuStep^[n] m₀
    (m.cpu.flags &&& 0xF0 = 0 ∧ ¬ (m.cpu.flag flagZf = true ∧ m.cpu.flag flagNf = true)) ∧
    JumpsOk m ∧
    (∀ a, ioBase ≤ a → m.bus.mem a = mem a) ∧
    m.cpu.cycleCount = BitVec.ofNat 64 (liveSteps m₀ n) ∧
    (m.cpu.halted = true →
      (∃ k < n, HaltedBy (cpuStep^[k] m₀) m) ∧ ∀ j, cpuStep^[j] m = m) := by
  intro m₀ m
  have hi : RunInv m₀ n := runInv (bootMachine_flagsOk cpu mem stdin clock) rfl rfl n
  refine ⟨hi.flags, jumpsOk_of_flagsOk hi.flags, hi.io, hi.cycles, fun h => ⟨hi.halted h, ?_⟩⟩
  intro j
  exact iterate_halted h j

end Proof
end EduCpu16
