import EduCpu16.Proof.EmulatorRun
import EduCpu16.Proof.StepFrame

/-!
# How a run ends

A run ends at the first word that is HALT or no instruction at all, and in the second case, and only
then, there is a message (`emulator_message`). The step says the rest: `cpuStep_stderr` has what one
step adds to the messages, and a step that goes on adds nothing.

The theorem holds in all modes and for any memory, input and clock, because none of these has a part
in it: what the loop prints goes to the standard output, and the prompt of `--step` takes input,
which a step may read but which is no reason to stop. The last section has the plain runs, for the
programs that are followed on cores.
-/

namespace EduCpu16
namespace Proof

open CLib

/-! ## One step

The bus writes nothing to the standard error, and EXECUTE only in the default case of its `switch`.
-/

theorem memRead_stderr (bus : Bus) (addr : Word) : (memRead bus addr).2.stderr = bus.stderr := by
  unfold memRead
  split
  · split
    · rfl
    · rfl
  · split
    · rfl
    · rfl

theorem memWrite_stderr (bus : Bus) (addr val : Word) :
    (memWrite bus addr val).stderr = bus.stderr := by
  unfold memWrite
  split
  · rfl
  · split
    · rfl
    · rfl

/-- The opcode that has no operation, and where it stands. The `switch` reports `pc - 1`, and `pc`
has been moved on by then, so this is the address of the word. -/
def stepMessage (m : Machine) : List (Byte × Word) :=
  if opcodeOf (fetched m) = none then [((instrOpcode (fetched m)).setWidth 8, m.cpu.pc)] else []

theorem execute_stderr (op : Byte) (rd rs1 rs2 : Fin 8) (imm off : Word) (m : Machine) :
    (execute op rd rs1 rs2 imm off m).bus.stderr = m.bus.stderr ++
      if Opcode.ofCode? op = none then [(op, m.cpu.pc - 1)] else [] := by
  cases hop : Opcode.ofCode? op with
  | none => simp only [execute, hop, if_true]
  | some o =>
    rw [if_neg (Option.some_ne_none o), List.append_nil]
    cases o
    case jmp | jeq | jne | jlt | jgt =>
      simp only [execute, hop]
      exact congrArg Bus.stderr (jump_bus _ _ _)
    case sw | call =>
      simp only [execute, hop]
      exact memWrite_stderr _ _ _
    case lw | ret =>
      simp only [execute, hop]
      exact memRead_stderr _ _
    all_goals simp only [execute, hop]

/-- **What a step adds to the messages.** -/
theorem cpuStep_stderr {m : Machine} (hrun : m.cpu.halted = false) :
    (cpuStep m).bus.stderr = m.bus.stderr ++ stepMessage m := by
  have hback : m.cpu.pc + 1 - 1 = m.cpu.pc := by
    rw [BitVec.add_sub_cancel]
  have hpc : (fetch m).cpu.pc - 1 = m.cpu.pc := hback
  have hbus : (fetch m).bus.stderr = m.bus.stderr := memRead_stderr _ _
  rw [cpuStep_running hrun, decodeExecute, execute_stderr, hpc, hbus]
  rfl

/-- A step that goes on adds nothing. -/
theorem cpuStep_stderr_of_running {m : Machine} (hrun : m.cpu.halted = false)
    (hnext : (cpuStep m).cpu.halted = false) :
    ¬ Stops (opcodeOf (fetched m)) ∧ (cpuStep m).bus.stderr = m.bus.stderr := by
  have hgoes : ¬ Stops (opcodeOf (fetched m)) := by
    intro hs
    have hcpu := (execute_of_stops _ (regIx ((instrRd (fetched m)).setWidth 8))
      (regIx ((instrRs1 (fetched m)).setWidth 8)) (regIx ((instrRs2 (fetched m)).setWidth 8))
      (instrImm5 (fetched m)) (instrOffset (fetched m)) (fetch m) hs).1
    have hhalted : (decodeExecute (fetch m)).cpu.halted = true := congrArg CPU.halted hcpu
    rw [cpuStep_running hrun, hhalted] at hnext
    cases hnext
  refine ⟨hgoes, ?_⟩
  rw [cpuStep_stderr hrun, stepMessage, if_neg fun hnone => hgoes (.inr hnone), List.append_nil]

/-! ## The run

From the step, by induction on the turns, with no case for the modes. -/

section Run

variable {mode : RunMode} {m₀ : Machine}

/-- A turn of the loop is a step, up to the standard streams. -/
theorem machineAt_turn (mode : RunMode) (m₀ : Machine) (n : Nat) :
    (machineAt mode m₀ (n + 1)).cpu = (cpuStep (machineAt mode m₀ n)).cpu ∧
    (machineAt mode m₀ (n + 1)).bus.stderr = (cpuStep (machineAt mode m₀ n)).bus.stderr := by
  simp only [machineAt]
  rw [Function.iterate_succ_apply']
  cases mode with
  | plain | trace | step => exact ⟨rfl, rfl⟩

/-- **As long as a run goes on**, it meets instructions only, and none of them stops it. -/
theorem quiet_while_running {n : Nat} (h : ∀ t ≤ n, (machineAt mode m₀ t).cpu.halted = false) :
    (∀ t < n, ¬ Stops (opcodeOf (fetched (machineAt mode m₀ t)))) ∧
      (machineAt mode m₀ n).bus.stderr = m₀.bus.stderr := by
  induction n with
  | zero => exact ⟨fun t ht => absurd ht (Nat.not_lt_zero t), rfl⟩
  | succ n ih =>
    obtain ⟨hgoes, hquiet⟩ := ih fun t ht => h t (Nat.le_succ_of_le ht)
    obtain ⟨hcpu, hstderr⟩ := machineAt_turn mode m₀ n
    obtain ⟨hnot, hsame⟩ := cpuStep_stderr_of_running (h n (Nat.le_succ n))
      (hcpu ▸ h (n + 1) (Nat.le_refl _))
    refine ⟨?_, by rw [hstderr, hsame, hquiet]⟩
    intro t ht
    rcases Nat.lt_succ_iff_lt_or_eq.mp ht with ht | rfl
    · exact hgoes t ht
    · exact hnot

/-- **Where a run ends**, there is the first word that stops it. -/
theorem endsAfter_succ {n : Nat} (h : EndsAfter mode m₀ (n + 1)) :
    (∀ t < n, ¬ Stops (opcodeOf (fetched (machineAt mode m₀ t)))) ∧
    Stops (opcodeOf (fetched (machineAt mode m₀ n))) ∧
    (machineAt mode m₀ (n + 1)).bus.stderr =
      m₀.bus.stderr ++ stepMessage (machineAt mode m₀ n) := by
  obtain ⟨hrun, hend⟩ := h
  obtain ⟨hgoes, hquiet⟩ := quiet_while_running fun t ht => hrun t (Nat.lt_succ_of_le ht)
  obtain ⟨hcpu, hstderr⟩ := machineAt_turn mode m₀ n
  have hlast := hrun n (Nat.lt_succ_self n)
  rw [hcpu] at hend
  exact ⟨hgoes, (haltedBy_of_cpuStep hlast hend).stops, by
    rw [hstderr, cpuStep_stderr hlast, hquiet]⟩

end Run

/-- The messages of a command are those of its run. -/
theorem emulatorRun_stderr {fuel : Nat} {host : EmuHost} {args : EmuArgs} {mem : Word → Word}
    {p : EmuProcess} (hrun : emulatorRun fuel host args mem = some p) :
    ∃ n, EndsAfter args.mode (bootOf host mem) n ∧
      p.stderr = (machineAt args.mode (bootOf host mem) n).bus.stderr.flatMap
        fun e => illegalText e.1 e.2 := by
  unfold emulatorRun at hrun
  split at hrun
  · cases hrun
  · rename_i m hloop
    obtain ⟨n, -, rfl, hbusy, hhalted⟩ := runLoop_eq_some.mp hloop
    have hsame : ∀ t, ((consoleBody args.mode)^[t] (bootOf host mem)).cpu =
        (machineAt args.mode (bootOf host mem) t).cpu := by
      intro t
      obtain ⟨text, h⟩ := console_iterate args.mode (bootOf host mem) t
      rw [h]
      rfl
    refine ⟨n, ⟨fun t ht => ?_, ?_⟩, ?_⟩
    · rw [← hsame]
      exact hbusy t ht
    · rw [← hsame]
      exact hhalted
    · have hstderr : ((consoleBody args.mode)^[n] (bootOf host mem)).bus.stderr =
          (machineAt args.mode (bootOf host mem) n).bus.stderr := by
        obtain ⟨text, h⟩ := console_iterate args.mode (bootOf host mem) n
        rw [h]
        rfl
      rw [← hstderr]
      dsimp only at hrun
      split at hrun
      · cases hrun
      · obtain rfl := Option.some.inj hrun
        simp only [bootOf]

/-- **How the emulator ends, in any mode.** A run that ends does so at the first word that is HALT
or no instruction. After a HALT there is nothing on the standard error; after anything else there is
one message, with the opcode of that word and its address. -/
theorem emulator_message {fuel : Nat} {host : EmuHost} {args : EmuArgs} {mem : Word → Word}
    {p : EmuProcess} (hrun : emulatorRun fuel host args mem = some p) :
    ∃ n, EndsAfter args.mode (bootOf host mem) (n + 1) ∧
      (∀ t < n, ¬ Stops (opcodeOf (fetched (machineAt args.mode (bootOf host mem) t)))) ∧
      let m := machineAt args.mode (bootOf host mem) n
      (opcodeOf (fetched m) = some .halt ∧ p.stderr = [] ∨
        opcodeOf (fetched m) = none ∧
          p.stderr = illegalText ((instrOpcode (fetched m)).setWidth 8) m.cpu.pc) := by
  obtain ⟨n, hends, hstderr⟩ := emulatorRun_stderr hrun
  cases n with
  | zero => cases hends.2
  | succ n =>
    obtain ⟨hgoes, hstops, hmessage⟩ := endsAfter_succ hends
    have hempty : (bootOf host mem).bus.stderr = [] := rfl
    rw [hmessage, hempty, List.nil_append, stepMessage] at hstderr
    refine ⟨n, hends, hgoes, ?_⟩
    rcases hstops with hhalt | hnone
    · rw [hhalt, if_neg nofun] at hstderr
      exact .inl ⟨hhalt, hstderr⟩
    · rw [if_pos hnone, List.flatMap_singleton] at hstderr
      exact .inr ⟨hnone, hstderr⟩

/-! ## Plain runs

Without options the loop is `cpuStep` repeated, so what a core does is what the command does. -/

/-- A command without options does a plain run. -/
theorem emulatorRun_plain {fuel : Nat} {host : EmuHost} {args : EmuArgs} {mem : Word → Word}
    {m : Machine} (hmode : args.mode = .plain) (hdump : args.doDump = false)
    (hloop : runLoop .plain fuel (bootOf host mem) = some m) : emulatorRun fuel host args mem =
      some ⟨0, m.bus.stdout, m.bus.stderr.flatMap fun e => illegalText e.1 e.2⟩ := by
  simp only [bootOf] at hloop
  simp only [emulatorRun, hmode, hdump, hloop, Bool.false_eq_true, if_false, List.append_nil]

/-- **A plain run up to a HALT** prints what it has printed, and nothing else. -/
theorem emulatorRun_halts {host : EmuHost} {args : EmuArgs} {mem : Word → Word}
    (hmode : args.mode = .plain) (hdump : args.doDump = false) {n : Nat}
    (hbusy : ∀ k ≤ n, (cpuStep^[k] (bootOf host mem)).cpu.halted = false)
    (hhalt : opcodeOf (fetched (cpuStep^[n] (bootOf host mem))) = some .halt) :
    ∃ fuel, emulatorRun fuel host args mem =
      some ⟨0, (cpuStep^[n] (bootOf host mem)).bus.stdout, []⟩ := by
  have hlast := hbusy n (Nat.le_refl n)
  have hstep := cpuStep_of_opcode hlast hhalt
  have hend : (cpuStep^[n + 1] (bootOf host mem)).cpu.halted = true := by
    rw [Function.iterate_succ_apply', hstep]
    rfl
  have hends : EndsAfter .plain (bootOf host mem) (n + 1) := by
    simp only [EndsAfter, machineAt_plain]
    exact ⟨fun t ht => hbusy t (Nat.le_of_lt_succ ht), hend⟩
  have hquiet := (endsAfter_succ hends).2.2
  rw [machineAt_plain, machineAt_plain, stepMessage, hhalt, if_neg nofun, List.append_nil] at hquiet
  have hstdout : (cpuStep^[n + 1] (bootOf host mem)).bus.stdout =
      (cpuStep^[n] (bootOf host mem)).bus.stdout := by
    rw [Function.iterate_succ_apply', hstep]
    exact memRead_stdout _ _
  have hloop : runLoop .plain (n + 1) (bootOf host mem) =
      some (cpuStep^[n + 1] (bootOf host mem)) :=
    runLoop_eq_some.mpr
      ⟨n + 1, Nat.le_refl _, rfl, fun t ht => hbusy t (Nat.le_of_lt_succ ht), hend⟩
  refine ⟨n + 1, ?_⟩
  rw [emulatorRun_plain hmode hdump hloop, hquiet, hstdout]
  rfl

/-- A memory full of zeroes. -/
theorem emulator_message_zero : ∃ n,
    opcodeOf (fetched (machineAt .plain (bootOf (haltHost []) fun _ => 0) n)) = none := by
  have hrun : emulatorRun 1 (haltHost []) {} (fun _ => 0) = some ⟨0, [], illegalText 0 0⟩ := rfl
  obtain ⟨n, -, -, hlast⟩ := emulator_message hrun
  rcases hlast with ⟨-, hnil⟩ | ⟨hnone, -⟩
  · exact absurd hnil (by decide)
  · exact ⟨n, hnone⟩

end Proof
end EduCpu16
