import EduCpu16.Proof.Observe

/-!
# What has not been read

A run is causal in its devices: input that it has not read yet, and clock values that it has not
asked for, have no influence on it, in any mode (`unread_input`). Of one read this is `memRead_fed`,
which needs to know that the input is not read to its end; that it is not, for all reads of a run,
follows from what is left when it ends, since nothing gives input back (`Later`).

The condition that something is left is not for convenience. A read at the end of the input answers
differently from one before it, so a run that has read everything may well have seen that there is
no more.
-/

namespace EduCpu16
namespace Proof

open CLib

/-! ## Nothing gives input back

The input gets shorter and the clock goes on. So what is unread at the end of a run was unread all
the time, and the condition need only be stated there. -/

/-- A state of the devices that may come after another. -/
structure Later (b b' : Bus) : Prop where
  stdin : b'.stdin <:+ b.stdin
  ticks : b.ticks ≤ b'.ticks
  clock : b'.clock = b.clock

theorem Later.refl (b : Bus) : Later b b := ⟨List.suffix_refl _, Nat.le_refl _, rfl⟩

/-- Where the devices are not asked. -/
theorem Later.of_eq {b b' : Bus} (hstdin : b'.stdin = b.stdin) (hticks : b'.ticks = b.ticks)
    (hclock : b'.clock = b.clock) : Later b b' :=
  ⟨hstdin ▸ List.suffix_refl _, Nat.le_of_eq hticks.symm, hclock⟩

theorem Later.trans {b b' b'' : Bus} (h : Later b b') (h' : Later b' b'') : Later b b'' :=
  ⟨h'.stdin.trans h.stdin, Nat.le_trans h.ticks h'.ticks, h'.clock.trans h.clock⟩

theorem memRead_later (b : Bus) (addr : Word) : Later b (memRead b addr).2 := by
  by_cases hin : addr = ioStdin
  · cases hstdin : b.stdin with
    | nil =>
      simp only [memRead, hin, hstdin, if_true]
      exact Later.refl b
    | cons c rest =>
      simp only [memRead, hin, hstdin, if_true]
      exact ⟨hstdin ▸ List.suffix_cons c rest, Nat.le_refl _, rfl⟩
  · by_cases htimer : addr = ioTimer
    · simp only [memRead, if_neg hin, if_pos htimer]
      exact ⟨List.suffix_refl _, Nat.le_succ _, rfl⟩
    · simp only [memRead, if_neg hin, if_neg htimer]
      exact Later.refl b

theorem memWrite_later (b : Bus) (addr val : Word) : Later b (memWrite b addr val) := by
  unfold memWrite
  split
  · exact .of_eq rfl rfl rfl
  · split
    · exact Later.refl b
    · exact .of_eq rfl rfl rfl

theorem execute_later (op : Byte) (rd rs1 rs2 : Fin 8) (imm off : Word) (m : Machine) :
    Later m.bus (execute op rd rs1 rs2 imm off m).bus := by
  cases hop : Opcode.ofCode? op with
  | none =>
    simp only [execute, hop]
    exact .of_eq rfl rfl rfl
  | some o =>
    cases o
    case jmp | jeq | jne | jlt | jgt =>
      simp only [execute, hop, jump_bus]
      exact Later.refl m.bus
    case sw | call =>
      simp only [execute, hop]
      exact memWrite_later _ _ _
    case lw | ret =>
      simp only [execute, hop]
      exact memRead_later _ _
    all_goals
      simp only [execute, hop]
      exact Later.refl m.bus

theorem decodeExecute_later (m : Machine) : Later m.bus (decodeExecute m).bus :=
  execute_later _ _ _ _ _ _ m

theorem fetch_later (m : Machine) : Later m.bus (fetch m).bus := memRead_later m.bus m.cpu.pc

theorem cpuStep_later (m : Machine) : Later m.bus (cpuStep m).bus := by
  cases hrun : m.cpu.halted with
  | true =>
    rw [cpuStep_halted hrun]
    exact Later.refl m.bus
  | false =>
    rw [cpuStep_running hrun]
    exact (fetch_later m).trans (decodeExecute_later _)

theorem getchar_later (b : Bus) : Later b b.getchar :=
  ⟨List.tail_suffix b.stdin, Nat.le_refl _, rfl⟩

/-- What a turn of the loop does to the machine. -/
def loopTurn (mode : RunMode) (m : Machine) : Machine := (loopBody mode ⟨m, []⟩).machine

theorem loopTurn_plain (m : Machine) : loopTurn .plain m = cpuStep m := rfl

theorem loopTurn_trace (m : Machine) : loopTurn .trace m = cpuStep m := rfl

theorem loopTurn_step (m : Machine) :
    loopTurn .step m = { cpuStep m with bus := (cpuStep m).bus.getchar } := rfl

theorem machineAt_loopTurn (mode : RunMode) (m₀ : Machine) (n : Nat) :
    machineAt mode m₀ (n + 1) = loopTurn mode (machineAt mode m₀ n) := by
  simp only [machineAt]
  rw [Function.iterate_succ_apply']
  cases mode with
  | plain | trace | step => rfl

theorem loopTurn_later (mode : RunMode) (m : Machine) : Later m.bus (loopTurn mode m).bus := by
  cases mode with
  | plain | trace => exact cpuStep_later m
  | step => exact (cpuStep_later m).trans (getchar_later _)

theorem machineAt_later (mode : RunMode) (m₀ : Machine) (n : Nat) :
    Later m₀.bus (machineAt mode m₀ n).bus := by
  induction n with
  | zero => exact Later.refl _
  | succ n ih =>
    rw [machineAt_loopTurn]
    exact ih.trans (loopTurn_later mode _)

/-! ## Other input

The lemmas go through the step as it is built: a bus read, an instruction, a fetch, a turn of the
loop with the key that `--step` waits for. Each says that the new machine is the old one with the
devices exchanged, and that what is left of the old input still ends in `rest`. -/

section Fed

variable {rest : Bytes} (hne : rest ≠ []) (rest' : Bytes) (clock' : Nat → BitVec 64)

/-- The devices with other input and another clock. -/
def fedBus (input : Bytes) (clock : Nat → BitVec 64) (b : Bus) : Bus :=
  { b with stdin := input, clock := clock }

def fed (input : Bytes) (clock : Nat → BitVec 64) (m : Machine) : Machine :=
  { m with bus := fedBus input clock m.bus }

/-- From `b` to `b'` all of `rest` stays unread, and the clocks agree on what is asked. It is a
condition on the end of a stretch of the run, and holds of every part of it (`Unread.mono`,
`Unread.from`). -/
structure Unread (rest : Bytes) (clock' : Nat → BitVec 64) (b b' : Bus) : Prop where
  left : rest <:+ b'.stdin
  clock : ∀ i < b'.ticks, clock' i = b.clock i

variable {clock'}

theorem Unread.mono {b b₁ b' : Bus} (h : Unread rest clock' b b') (hlater : Later b₁ b') :
    Unread rest clock' b b₁ :=
  ⟨h.left.trans hlater.stdin, fun i hi => h.clock i (Nat.lt_of_lt_of_le hi hlater.ticks)⟩

theorem Unread.from {b b₁ b' : Bus} (h : Unread rest clock' b b') (hlater : Later b b₁) :
    Unread rest clock' b₁ b' :=
  ⟨h.left, fun i hi => by rw [hlater.clock, h.clock i hi]⟩

include hne

theorem not_suffix_tail : ¬ rest <:+ rest.tail := by
  intro h
  have hlen := h.length_le
  have hpos := List.length_pos_iff.mpr hne
  rw [List.length_tail] at hlen
  omega

/-- **A read** that leaves all of `rest` unread does not look at it. -/
theorem memRead_fed {b : Bus} {addr : Word} {used : Bytes} (hin : b.stdin = used ++ rest)
    (h : Unread rest clock' b (memRead b addr).2) : ∃ used',
      (memRead b addr).2.stdin = used' ++ rest ∧
      memRead (fedBus (used ++ rest') clock' b) addr =
        ((memRead b addr).1, fedBus (used' ++ rest') clock' (memRead b addr).2) := by
  obtain ⟨hleft, hclock⟩ := h
  by_cases hport : addr = ioStdin
  · subst hport
    cases used with
    | nil =>
      have hread : (memRead b ioStdin).2.stdin = rest.tail := by
        cases rest with
        | nil => exact absurd rfl hne
        | cons c cs => simp only [memRead, hin, if_true, List.nil_append, List.tail_cons]
      exact absurd (hread ▸ hleft) (not_suffix_tail hne)
    | cons c used =>
      refine ⟨used, ?_, ?_⟩
      · simp only [memRead, hin, if_true, List.cons_append]
      · simp only [memRead, hin, fedBus, if_true, List.cons_append]
  · refine ⟨used, ?_, ?_⟩
    · by_cases htimer : addr = ioTimer
      · simp only [memRead, if_neg hport, if_pos htimer, hin]
      · simp only [memRead, if_neg hport, if_neg htimer, hin]
    · by_cases htimer : addr = ioTimer
      · subst htimer
        simp only [memRead, if_neg hport, if_true] at hclock ⊢
        simp only [fedBus, hclock _ (Nat.lt_succ_self _)]
      · simp only [memRead, if_neg hport, if_neg htimer, fedBus]

omit hne in
theorem memWrite_fedBus (input : Bytes) (clock : Nat → BitVec 64) (b : Bus) (addr val : Word) :
    memWrite (fedBus input clock b) addr val = fedBus input clock (memWrite b addr val) := by
  unfold memWrite
  split
  · rfl
  · split
    · rfl
    · rfl

omit hne in
theorem jump_fed (input : Bytes) (clock : Nat → BitVec 64) (m : Machine) (taken : Bool)
    (off : Word) : (fed input clock m).jump taken off = fed input clock (m.jump taken off) := by
  cases taken with
  | true => rfl
  | false => rfl

theorem execute_fed {op : Byte} {rd rs1 rs2 : Fin 8} {imm off : Word} {m : Machine} {used : Bytes}
    (hin : m.bus.stdin = used ++ rest)
    (h : Unread rest clock' m.bus (execute op rd rs1 rs2 imm off m).bus) : ∃ used',
      (execute op rd rs1 rs2 imm off m).bus.stdin = used' ++ rest ∧
      execute op rd rs1 rs2 imm off (fed (used ++ rest') clock' m) =
        fed (used' ++ rest') clock' (execute op rd rs1 rs2 imm off m) := by
  cases hop : Opcode.ofCode? op with
  | none =>
    refine ⟨used, ?_, ?_⟩
    · simp only [execute, hop, hin]
    · simp only [execute, hop, fed, fedBus]
  | some o =>
    cases o
    case jmp | jeq | jne | jlt | jgt =>
      refine ⟨used, ?_, ?_⟩
      · simp only [execute, hop, jump_bus, hin]
      · simp only [execute, hop]
        exact jump_fed _ _ m _ off
    case sw | call =>
      refine ⟨used, ?_, ?_⟩
      · simp only [execute, hop, memWrite_stdin, hin]
      · simp only [execute, hop, fed, memWrite_fedBus]
    case lw =>
      simp only [execute, hop] at h ⊢
      obtain ⟨used', hused, hread⟩ := memRead_fed hne rest' hin h
      refine ⟨used', hused, ?_⟩
      simp only [fed, hread]
    case ret =>
      simp only [execute, hop] at h ⊢
      obtain ⟨used', hused, hread⟩ := memRead_fed hne rest' hin h
      refine ⟨used', hused, ?_⟩
      simp only [fed, hread]
    all_goals
      refine ⟨used, ?_, ?_⟩
      · simp only [execute, hop, hin]
      · simp only [execute, hop, fed]

theorem decodeExecute_fed {m : Machine} {used : Bytes} (hin : m.bus.stdin = used ++ rest)
    (h : Unread rest clock' m.bus (decodeExecute m).bus) : ∃ used',
      (decodeExecute m).bus.stdin = used' ++ rest ∧
      decodeExecute (fed (used ++ rest') clock' m) =
        fed (used' ++ rest') clock' (decodeExecute m) := by
  rw [decodeExecute] at h
  obtain ⟨used', hused, hexec⟩ := execute_fed hne rest' hin h
  exact ⟨used', hused, hexec⟩

theorem cpuStep_fed {m : Machine} {used : Bytes} (hin : m.bus.stdin = used ++ rest)
    (h : Unread rest clock' m.bus (cpuStep m).bus) : ∃ used',
      (cpuStep m).bus.stdin = used' ++ rest ∧
      cpuStep (fed (used ++ rest') clock' m) = fed (used' ++ rest') clock' (cpuStep m) := by
  cases hrun : m.cpu.halted with
  | true =>
    have hrun' : (fed (used ++ rest') clock' m).cpu.halted = true := hrun
    rw [cpuStep_halted hrun, cpuStep_halted hrun']
    exact ⟨used, hin, rfl⟩
  | false =>
    have hrun' : (fed (used ++ rest') clock' m).cpu.halted = false := hrun
    rw [cpuStep_running hrun] at h ⊢
    rw [cpuStep_running hrun']
    -- The fetch is a read, and EXECUTE comes after it.
    obtain ⟨used₁, hin₁, hread⟩ := memRead_fed hne rest' hin
      (h.mono (decodeExecute_later (fetch m)))
    have hfetch : fetch (fed (used ++ rest') clock' m) = fed (used₁ ++ rest') clock' (fetch m) := by
      simp only [fetch, fed, hread]
    rw [hfetch]
    exact decodeExecute_fed hne rest' hin₁ (h.from (fetch_later m))

theorem loopTurn_fed {mode : RunMode} {m : Machine} {used : Bytes}
    (hin : m.bus.stdin = used ++ rest) (h : Unread rest clock' m.bus (loopTurn mode m).bus) :
    ∃ used', (loopTurn mode m).bus.stdin = used' ++ rest ∧
      loopTurn mode (fed (used ++ rest') clock' m) =
        fed (used' ++ rest') clock' (loopTurn mode m) := by
  cases mode with
  | plain =>
    rw [loopTurn_plain] at h ⊢
    rw [loopTurn_plain]
    exact cpuStep_fed hne rest' hin h
  | trace =>
    rw [loopTurn_trace] at h ⊢
    rw [loopTurn_trace]
    exact cpuStep_fed hne rest' hin h
  | step =>
    rw [loopTurn_step] at h
    obtain ⟨used₁, hin₁, hstep⟩ := cpuStep_fed hne rest' hin (h.mono (getchar_later _))
    have hleft : rest <:+ (cpuStep m).bus.stdin.tail := h.left
    rw [loopTurn_step, loopTurn_step, hstep]
    -- The prompt takes a byte too.
    cases used₁ with
    | nil =>
      rw [hin₁] at hleft
      exact absurd hleft (not_suffix_tail hne)
    | cons c used₂ => exact ⟨used₂, congrArg List.tail hin₁, rfl⟩

/-- **A run** that leaves all of `rest` unread. -/
theorem machineAt_fed {mode : RunMode} {m₀ : Machine} {used : Bytes}
    (hin : m₀.bus.stdin = used ++ rest) {n : Nat}
    (h : Unread rest clock' m₀.bus (machineAt mode m₀ n).bus) : ∃ used',
      (machineAt mode m₀ n).bus.stdin = used' ++ rest ∧
      machineAt mode (fed (used ++ rest') clock' m₀) n =
        fed (used' ++ rest') clock' (machineAt mode m₀ n) := by
  induction n with
  | zero => exact ⟨used, hin, rfl⟩
  | succ n ih =>
    rw [machineAt_loopTurn] at h ⊢
    obtain ⟨used₁, hin₁, hrun⟩ := ih (h.mono (loopTurn_later mode _))
    rw [machineAt_loopTurn, hrun]
    exact loopTurn_fed hne rest' hin₁ (h.from (machineAt_later mode m₀ n))

end Fed

/-- **What has not been read has no influence.** As long as there are bytes left that a run has not
read, any others may stand in their place, and the clock may go on in any way after the last value
that was asked for: the run is the same, in every mode. -/
theorem unread_input {mode : RunMode} {m₀ : Machine} {n : Nat} {used rest : Bytes}
    (hin : m₀.bus.stdin = used ++ rest) (hleft : (machineAt mode m₀ n).bus.stdin = rest)
    (hne : rest ≠ []) (rest' : Bytes) {clock' : Nat → BitVec 64}
    (hclock : ∀ i < (machineAt mode m₀ n).bus.ticks, clock' i = m₀.bus.clock i) :
    machineAt mode (fed (used ++ rest') clock' m₀) n =
      fed rest' clock' (machineAt mode m₀ n) := by
  have hunread : Unread rest clock' m₀.bus (machineAt mode m₀ n).bus :=
    ⟨hleft ▸ List.suffix_refl _, hclock⟩
  obtain ⟨used', hused, hrun⟩ := machineAt_fed hne rest' hin hunread
  have hnil : used' = [] := List.append_left_eq_self.mp (hused.symm.trans hleft)
  rw [hrun, hnil]
  rfl

/-- A program that reads one byte of three. -/
def reader : Machine where
  cpu := ⟨fun r => if r = 1 then ioStdin else 0, 0, 0, 0, 0, false⟩
  bus := ⟨fun a => if a = 0 then 0x5020 else 0xF800, [1, 2, 3], fun _ => 0, 0, [], []⟩

theorem unread_input_reader : machineAt .plain (fed [1, 7] (fun _ => 5) reader) 2 =
    fed [7] (fun _ => 5) (machineAt .plain reader 2) := by
  have hin : reader.bus.stdin = [1] ++ [2, 3] := rfl
  have hticks : (machineAt .plain reader 2).bus.ticks = 0 := by decide
  exact unread_input hin (by decide) (by decide) [7]
    fun i hi => absurd (hticks ▸ hi) (Nat.not_lt_zero i)

end Proof
end EduCpu16
