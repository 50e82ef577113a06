import EduCpu16.Emulator.Main
import EduCpu16.Proof.StepFrame
import Mathlib.Data.List.Basic

/-!
# The three modes of the emulator, compared

What a program does in one mode is set beside what it does in another: the final CPU and memory, the
values it read from `IO_STDIN` and the bytes it wrote to `IO_STDOUT` (`Observation`). The prompt of
`--step` takes a byte of the program's input after every instruction, so after `t` instructions that
run is `t` bytes ahead (`Ahead`), and a read shows the difference unless the two bytes are equal.

This gives an equivalence: the run with prompts is observed to end like the plain one just when no
read shows a difference (`observation_modes`). The first direction is a simulation, step by step,
between machines that are alike but for their devices. For the second the first read that differs is
looked at: up to there the runs are side by side, so the values that are read tell them apart.
-/

namespace EduCpu16
namespace Proof

open CLib

/-! ## What one step reads

A step reads memory at most twice, for the word at `pc` and for the operand of a load. Which
addresses these are is known before the step is taken. -/

/-- The address EXECUTE loads from in the next step of `m`. -/
def loadOf (m : Machine) : Option Word :=
  match opcodeOf (fetched m) with
  | some .lw => some (m.cpu.regs (rs1Of (fetched m)) + instrImm5 (fetched m))
  | some .ret => some (m.cpu.regs 7 + 1)
  | _ => none

/-- The addresses the next step of `m` reads, in order. -/
def readAddrs (m : Machine) : List Word :=
  if m.cpu.halted then [] else m.cpu.pc :: (loadOf m).toList

/-- The value of a read, when it is from `IO_STDIN`. -/
def portRead (bus : Bus) (addr : Word) : List Word :=
  if addr = ioStdin then [(memRead bus addr).1] else []

/-- The values the next step of `m` reads from `IO_STDIN`. -/
def stdinReads (m : Machine) : List Word :=
  if m.cpu.halted then []
  else portRead m.bus m.cpu.pc ++ (loadOf m).toList.flatMap (portRead (fetch m).bus)

/-- What a read of `IO_STDIN` returns. -/
def nextValue (input : Bytes) : Word :=
  match input with
  | [] => 0
  | c :: _ => c.setWidth 16

/-! ## Runs and what is observed of them

A machine after `n` turns is defined whether or not the program has halted, which keeps the
inductions free of side conditions; `EndsAfter` picks the turn at which the loop stops. -/

/-- The machine after `n` turns of the loop. -/
def machineAt (mode : RunMode) (m₀ : Machine) (n : Nat) : Machine :=
  ((loopBody mode)^[n] ⟨m₀, []⟩).machine

/-- The loop ends after `n` turns. There is at most one such `n`, the first turn after which the CPU
is halted. -/
def EndsAfter (mode : RunMode) (m₀ : Machine) (n : Nat) : Prop :=
  (∀ t < n, (machineAt mode m₀ t).cpu.halted = false) ∧
  (machineAt mode m₀ n).cpu.halted = true

/-- What can be told of a run from outside, and from the memory it leaves. The input that is left
over is not part of it, since the prompts take some of it in any case. -/
structure Observation where
  cpu : CPU
  mem : Word → Word
  reads : List Word
  writes : Bytes

/-- What is observed of the first `n` turns. -/
def observed (mode : RunMode) (m₀ : Machine) (n : Nat) : Observation where
  cpu := (machineAt mode m₀ n).cpu
  mem := (machineAt mode m₀ n).bus.mem
  reads := (List.range n).flatMap fun t => stdinReads (machineAt mode m₀ t)
  writes := (machineAt mode m₀ n).bus.stdout

/-- The run ends, and this is what was observed of it. -/
def EndsWith (mode : RunMode) (m₀ : Machine) (o : Observation) : Prop :=
  ∃ n, EndsAfter mode m₀ n ∧ observed mode m₀ n = o

/-! ## The input port

A fetch from the port is a byte and so has opcode 0, which loads nothing. That is why a step reads
the port at most once, whatever the program does. -/

theorem memRead_stdin_fst (bus : Bus) : (memRead bus ioStdin).1 = nextValue bus.stdin := by
  rw [memRead, if_pos rfl]
  cases bus.stdin with
  | nil => rfl
  | cons c rest => rfl

theorem memRead_stdin (bus : Bus) (addr : Word) : (memRead bus addr).2.stdin =
    if addr = ioStdin then bus.stdin.tail else bus.stdin := by
  unfold memRead
  split
  · split
    · rename_i h
      rw [h]
      rfl
    · rename_i h
      rw [h]
      rfl
  · split
    · rfl
    · rfl

theorem memWrite_stdin (bus : Bus) (addr val : Word) :
    (memWrite bus addr val).stdin = bus.stdin := by
  unfold memWrite
  split
  · rfl
  · split
    · rfl
    · rfl

/-- A value read from the port is a byte; as an instruction it has the unassigned opcode 0. -/
theorem opcodeOf_nextValue (input : Bytes) : opcodeOf (nextValue input) = none := by
  have hbyte : ∀ c : Byte, opcodeOf (c.setWidth 16) = none := by decide
  cases input with
  | nil => exact hbyte 0
  | cons c rest => exact hbyte c

/-- So an instruction fetched from the port loads nothing. -/
theorem loadOf_of_pc {m : Machine} (h : m.cpu.pc = ioStdin) : loadOf m = none := by
  have hop : opcodeOf (fetched m) = none := by
    rw [fetched, h, memRead_stdin_fst]
    exact opcodeOf_nextValue _
  simp only [loadOf, hop]

theorem fetch_stdin_of_ne {m : Machine} (h : m.cpu.pc ≠ ioStdin) :
    (fetch m).bus.stdin = m.bus.stdin := by
  rw [show (fetch m).bus = (memRead m.bus m.cpu.pc).2 from rfl, memRead_stdin, if_neg h]

/-- **A step reads the port at most once.** -/
theorem stdinReads_eq (m : Machine) :
    stdinReads m = if ioStdin ∈ readAddrs m then [nextValue m.bus.stdin] else [] := by
  cases hh : m.cpu.halted with
  | true => simp [stdinReads, readAddrs, hh]
  | false =>
    by_cases hpc : m.cpu.pc = ioStdin
    · simp [stdinReads, readAddrs, hh, hpc, loadOf_of_pc hpc, portRead, memRead_stdin_fst]
    · have hfetch := fetch_stdin_of_ne hpc
      cases hload : loadOf m with
      | none => simp [stdinReads, readAddrs, hh, hload, portRead, hpc, Ne.symm hpc]
      | some a =>
        by_cases ha : a = ioStdin
        · simp [stdinReads, readAddrs, hh, hload, portRead, hpc, ha, memRead_stdin_fst, hfetch]
        · simp [stdinReads, readAddrs, hh, hload, portRead, hpc, ha, Ne.symm hpc, Ne.symm ha]

theorem loadOf_lw {m : Machine} (hop : opcodeOf (fetched m) = some .lw) :
    loadOf m = some (m.cpu.regs (rs1Of (fetched m)) + instrImm5 (fetched m)) := by
  simp only [loadOf, hop]

theorem loadOf_ret {m : Machine} (hop : opcodeOf (fetched m) = some .ret) :
    loadOf m = some (m.cpu.regs 7 + 1) := by
  simp only [loadOf, hop]

theorem fetch_regs (m : Machine) : (fetch m).cpu.regs = m.cpu.regs := rfl

/-- What is left of the input after one step, by its load. -/
theorem cpuStep_stdin_load {m : Machine} (hrun : m.cpu.halted = false) :
    (cpuStep m).bus.stdin =
      (loadOf m).elim (fetch m).bus.stdin fun a => (memRead (fetch m).bus a).2.stdin := by
  cases hop : opcodeOf (fetched m) with
  | none =>
    have hop' : Opcode.ofCode? ((instrOpcode (fetch m).cpu.ir).setWidth 8) = none := hop
    rw [cpuStep_running hrun, decodeExecute]
    simp only [execute, hop', loadOf, hop, Option.elim_none]
  | some o =>
    rw [cpuStep_of_opcode hrun hop]
    cases o
    case lw =>
      simp only [execute, Opcode.ofCode?_code, loadOf_lw hop, Option.elim_some, fetch_regs]
    case ret =>
      simp only [execute, Opcode.ofCode?_code, loadOf_ret hop, Option.elim_some, fetch_regs,
        CPU.setReg_regs, Function.update_self]
    case sw | call =>
      simp only [execute, Opcode.ofCode?_code, loadOf, hop, Option.elim_none, memWrite_stdin]
    case jmp | jeq | jne | jlt | jgt =>
      simp only [execute, Opcode.ofCode?_code, loadOf, hop, Option.elim_none, jump_bus]
    all_goals
      simp only [execute, Opcode.ofCode?_code, loadOf, hop, Option.elim_none]

/-- A step that reads the port takes one byte of the input, any other step none. -/
theorem cpuStep_stdin (m : Machine) : (cpuStep m).bus.stdin =
    if ioStdin ∈ readAddrs m then m.bus.stdin.tail else m.bus.stdin := by
  cases hh : m.cpu.halted with
  | true => simp [cpuStep_halted hh, readAddrs, hh]
  | false =>
    rw [cpuStep_stdin_load hh]
    by_cases hpc : m.cpu.pc = ioStdin
    · have hfetch : (fetch m).bus.stdin = m.bus.stdin.tail := by
        rw [show (fetch m).bus = (memRead m.bus m.cpu.pc).2 from rfl, memRead_stdin, if_pos hpc]
      simp [loadOf_of_pc hpc, hfetch, readAddrs, hh, hpc]
    · have hfetch := fetch_stdin_of_ne hpc
      cases hload : loadOf m with
      | none => simp [hfetch, readAddrs, hh, hload, Ne.symm hpc]
      | some a => simp [memRead_stdin, hfetch, readAddrs, hh, hload, Ne.symm hpc, eq_comm]

/-! ## Machines alike but for their devices

A step reads at most two words through the bus, the instruction and what it loads. If the devices
give the same values there, the step is the same. The timer is left out by hypothesis: its values
are the time, and no two runs agree on it. -/

/-- The same CPU, memory and output. -/
structure Alike (p q : Machine) : Prop where
  cpu : q.cpu = p.cpu
  mem : q.bus.mem = p.bus.mem
  stdout : q.bus.stdout = p.bus.stdout

theorem memRead_alike {p q : Bus} {a : Word} (hmem : q.mem = p.mem) (htimer : a ≠ ioTimer)
    (hin : a = ioStdin → nextValue q.stdin = nextValue p.stdin) :
    (memRead q a).1 = (memRead p a).1 := by
  by_cases ha : a = ioStdin
  · rw [ha, memRead_stdin_fst, memRead_stdin_fst, hin ha]
  · simp only [memRead, if_neg ha, if_neg htimer, hmem]

theorem memWrite_alike {p q : Bus} (hmem : q.mem = p.mem) (hout : q.stdout = p.stdout)
    (addr val : Word) :
    (memWrite q addr val).mem = (memWrite p addr val).mem ∧
    (memWrite q addr val).stdout = (memWrite p addr val).stdout := by
  refine ⟨?_, ?_⟩
  · funext a
    rw [memWrite_mem, memWrite_mem, hmem]
  · rw [memWrite_stdout, memWrite_stdout, hout]

section Alike

variable {p q : Machine}

/-- The two next steps return the same values from the devices. -/
structure SameInput (p q : Machine) : Prop where
  timer : ioTimer ∉ readAddrs p
  stdin : ioStdin ∈ readAddrs p → nextValue q.bus.stdin = nextValue p.bus.stdin

theorem pc_mem_readAddrs {m : Machine} (hrun : m.cpu.halted = false) :
    m.cpu.pc ∈ readAddrs m := by
  simp [readAddrs, hrun]

theorem loadOf_mem_readAddrs {m : Machine} {a : Word} (hrun : m.cpu.halted = false)
    (ha : loadOf m = some a) : a ∈ readAddrs m := by
  simp [readAddrs, hrun, ha]

/-- The fetches agree, unless they read different values from a device. -/
theorem Alike.fetched (h : Alike p q) (htimer : p.cpu.pc ≠ ioTimer)
    (hin : p.cpu.pc = ioStdin → nextValue q.bus.stdin = nextValue p.bus.stdin) :
    fetched q = fetched p := by
  simp only [Proof.fetched, h.cpu]
  exact memRead_alike h.mem htimer hin

theorem Alike.fetch (h : Alike p q) (hf : Proof.fetched q = Proof.fetched p) :
    Alike (fetch p) (fetch q) where
  cpu := by rw [fetch_cpu, fetch_cpu, hf, h.cpu]
  mem := by rw [fetch_mem, fetch_mem, h.mem]
  stdout := by
    have hout : ∀ m : Machine, (EduCpu16.fetch m).bus.stdout = m.bus.stdout :=
      fun _ => memRead_stdout _ _
    rw [hout, hout, h.stdout]

/-- The loads agree. -/
theorem Alike.load (h : Alike p q) (hrun : p.cpu.halted = false) (hin : SameInput p q)
    {a : Word} (ha : loadOf p = some a) :
    (memRead (EduCpu16.fetch q).bus a).1 = (memRead (EduCpu16.fetch p).bus a).1 := by
  have hmem := loadOf_mem_readAddrs hrun ha
  refine memRead_alike ?_ (fun ht => hin.timer (ht ▸ hmem)) fun hs => ?_
  · rw [fetch_mem, fetch_mem, h.mem]
  · have hp : p.cpu.pc ≠ ioStdin := by
      intro hpc
      rw [loadOf_of_pc hpc] at ha
      cases ha
    have hq : q.cpu.pc ≠ ioStdin := by rwa [h.cpu]
    rw [fetch_stdin_of_ne hp, fetch_stdin_of_ne hq]
    exact hin.stdin (hs ▸ hmem)

/-- **One step of machines alike**, when the devices give both the same values. -/
theorem Alike.step (h : Alike p q) (hin : SameInput p q) : Alike (cpuStep p) (cpuStep q) := by
  cases hh : p.cpu.halted with
  | true =>
    have hq : q.cpu.halted = true := by rw [h.cpu, hh]
    rwa [cpuStep_halted hh, cpuStep_halted hq]
  | false =>
    have hq : q.cpu.halted = false := by rw [h.cpu, hh]
    have hpc := pc_mem_readAddrs hh
    -- The fetch itself may read a device, if the program runs into the I/O page.
    have hf := h.fetched (fun ht => hin.timer (ht ▸ hpc)) fun hs => hin.stdin (hs ▸ hpc)
    obtain ⟨hcpu, hmem, hout⟩ := h.fetch hf
    cases hop : opcodeOf (Proof.fetched p) with
    | none =>
      have hop' : opcodeOf (Proof.fetched q) = none := by rw [hf, hop]
      obtain ⟨pcpu, pmem, pout⟩ := cpuStep_of_unassigned hh hop
      obtain ⟨qcpu, qmem, qout⟩ := cpuStep_of_unassigned hq hop'
      exact ⟨by rw [pcpu, qcpu, hcpu], by rw [pmem, qmem, h.mem], by rw [pout, qout, h.stdout]⟩
    | some o =>
      have hop' : opcodeOf (Proof.fetched q) = some o := by rw [hf, hop]
      rw [cpuStep_of_opcode hh hop, cpuStep_of_opcode hq hop', hf]
      cases o
      case add | sub | and | or | xor | not | shl | shr | addi | mov | cmp | halt =>
        simp only [execute, Opcode.ofCode?_code, hcpu]
        exact ⟨rfl, hmem, hout⟩
      case jmp | jeq | jne | jlt | jgt =>
        simp only [execute, Opcode.ofCode?_code, hcpu, Machine.jump]
        split
        · exact ⟨rfl, hmem, hout⟩
        · exact ⟨hcpu, hmem, hout⟩
      -- The values stored come from registers, which are the same on both sides.
      case sw | call =>
        have hwrite := memWrite_alike hmem hout
        simp only [execute, Opcode.ofCode?_code, hcpu]
        refine ⟨?_, ?_, ?_⟩
        · simp only
        · rw [(hwrite _ _).1]
        · rw [(hwrite _ _).2]
      -- The value loaded may come from a device, and `SameInput` is what makes it the same.
      case lw =>
        have hval := h.load hh hin (loadOf_lw hop)
        simp only [execute, Opcode.ofCode?_code, hcpu, fetch_regs, hval]
        refine ⟨rfl, ?_, ?_⟩
        · rw [memRead_mem, memRead_mem, hmem]
        · rw [memRead_stdout, memRead_stdout, hout]
      case ret =>
        have hval := h.load hh hin (loadOf_ret hop)
        simp only [execute, Opcode.ofCode?_code, hcpu, fetch_regs, CPU.setReg_regs,
          Function.update_self, hval]
        refine ⟨rfl, ?_, ?_⟩
        · rw [memRead_mem, memRead_mem, hmem]
        · rw [memRead_stdout, memRead_stdout, hout]

/-- Whether a step reads the port does not depend on what the port holds. -/
theorem Alike.mem_readAddrs (h : Alike p q) (htimer : ioTimer ∉ readAddrs p) :
    ioStdin ∈ readAddrs q ↔ ioStdin ∈ readAddrs p := by
  cases hh : p.cpu.halted with
  | true => simp [readAddrs, h.cpu, hh]
  | false =>
    have hq : q.cpu.halted = false := by rw [h.cpu, hh]
    by_cases hpc : p.cpu.pc = ioStdin
    · have hpcq : q.cpu.pc = ioStdin := by rw [h.cpu, hpc]
      exact iff_of_true (hpcq ▸ pc_mem_readAddrs hq) (hpc ▸ pc_mem_readAddrs hh)
    · have hf := h.fetched (fun ht => htimer (ht ▸ pc_mem_readAddrs hh)) fun hs => absurd hs hpc
      have hload : loadOf q = loadOf p := by simp only [loadOf, hf, h.cpu]
      simp only [readAddrs, hload, h.cpu]

end Alike

/-! ## Two runs side by side

`Ahead k` is the simulation relation. A step keeps it, a prompt adds one to `k`, and what a step
reads is compared by `Unaffected`. -/

/-- The bytes of the input one prompt takes. -/
def promptSize : RunMode → Nat
  | .plain | .trace => 0
  | .step => 1

/-- `q` has done what `p` has, and has read `k` bytes more of the input. -/
structure Ahead (k : Nat) (p q : Machine) : Prop where
  alike : Alike p q
  stdin : q.bus.stdin = p.bus.stdin.drop k

/-- The next step of `m` shows no difference to a run `k` bytes ahead. Past the end of the input
every read gives zero, so two reads there agree, and a NUL byte agrees with both. -/
def Unaffected (k : Nat) (m : Machine) : Prop :=
  ioStdin ∈ readAddrs m → nextValue (m.bus.stdin.drop k) = nextValue m.bus.stdin

/-- What a turn leaves of the machine. -/
theorem machineAt_succ (mode : RunMode) (m₀ : Machine) (n : Nat) :
    Ahead (promptSize mode) (cpuStep (machineAt mode m₀ n)) (machineAt mode m₀ (n + 1)) := by
  simp only [machineAt]
  rw [Function.iterate_succ_apply']
  cases mode with
  | plain | trace => exact ⟨⟨rfl, rfl, rfl⟩, rfl⟩
  | step =>
    refine ⟨⟨rfl, rfl, rfl⟩, ?_⟩
    rw [show promptSize .step = 1 from rfl, List.drop_one]
    rfl

theorem machineAt_plain_succ (m₀ : Machine) (n : Nat) :
    machineAt .plain m₀ (n + 1) = cpuStep (machineAt .plain m₀ n) := by
  simp only [machineAt]
  rw [Function.iterate_succ_apply']
  rfl

theorem Ahead.sameInput {k : Nat} {p q : Machine} (h : Ahead k p q)
    (htimer : ioTimer ∉ readAddrs p) (hun : Unaffected k p) : SameInput p q :=
  ⟨htimer, fun hport => by rw [h.stdin, hun hport]⟩

/-- One step of each. -/
theorem Ahead.step {k : Nat} {p q : Machine} (h : Ahead k p q)
    (htimer : ioTimer ∉ readAddrs p) (hun : Unaffected k p) :
    Ahead k (cpuStep p) (cpuStep q) where
  alike := h.alike.step (h.sameInput htimer hun)
  stdin := by
    have hport := h.alike.mem_readAddrs htimer
    rw [cpuStep_stdin, cpuStep_stdin, h.stdin]
    simp only [hport]
    split
    · rw [List.tail_drop, List.drop_tail]
    · rfl

theorem Ahead.trans {j k : Nat} {p q r : Machine} (h : Ahead j p q) (h' : Ahead k q r) :
    Ahead (j + k) p r where
  alike :=
    ⟨h'.alike.cpu.trans h.alike.cpu, h'.alike.mem.trans h.alike.mem,
      h'.alike.stdout.trans h.alike.stdout⟩
  stdin := by rw [h'.stdin, h.stdin, List.drop_drop]

/-- The values read agree as long as no difference shows. -/
theorem Ahead.stdinReads {k : Nat} {p q : Machine} (h : Ahead k p q)
    (htimer : ioTimer ∉ readAddrs p) (hun : Unaffected k p) :
    stdinReads q = stdinReads p := by
  rw [stdinReads_eq, stdinReads_eq]
  by_cases hport : ioStdin ∈ readAddrs p
  · rw [if_pos hport, if_pos ((h.alike.mem_readAddrs htimer).mpr hport), h.stdin, hun hport]
  · rw [if_neg hport, if_neg fun hq => hport ((h.alike.mem_readAddrs htimer).mp hq)]

section Runs

variable {mode : RunMode} {m₀ m₀' : Machine} {n : Nat}

/-- **A run with prompts against the plain run**, as long as no difference shows. -/
theorem machineAt_ahead (hstart : Ahead 0 m₀ m₀')
    (htimer : ∀ t < n, ioTimer ∉ readAddrs (machineAt .plain m₀ t))
    (hun : ∀ t < n, Unaffected (promptSize mode * t) (machineAt .plain m₀ t)) :
    ∀ t ≤ n,
      Ahead (promptSize mode * t) (machineAt .plain m₀ t) (machineAt mode m₀' t) := by
  intro t
  induction t with
  | zero => exact fun _ => hstart
  | succ t ih =>
    intro ht
    have hstep := (ih (Nat.le_of_lt ht)).step (htimer t ht) (hun t ht)
    rw [machineAt_plain_succ]
    exact hstep.trans (machineAt_succ mode m₀' t)

/-- The reads of the first turns come first. -/
theorem reads_prefix (m : Nat → List Word) {i n : Nat} (h : i ≤ n) :
    (List.range i).flatMap m <+: (List.range n).flatMap m := by
  induction n, h using Nat.le_induction with
  | base => exact List.prefix_rfl
  | succ n _ ih =>
    rw [List.range_succ, List.flatMap_append]
    exact ih.trans (List.prefix_append _ _)

/-- A run in which no difference shows ends like the plain one. -/
theorem endsWith_of_unaffected (hstart : Ahead 0 m₀ m₀') (hend : EndsAfter .plain m₀ n)
    (htimer : ∀ t < n, ioTimer ∉ readAddrs (machineAt .plain m₀ t))
    (hun : ∀ t < n, Unaffected (promptSize mode * t) (machineAt .plain m₀ t)) :
    EndsWith mode m₀' (observed .plain m₀ n) := by
  have hahead : ∀ t ≤ n,
      Ahead (promptSize mode * t) (machineAt .plain m₀ t) (machineAt mode m₀' t) :=
    machineAt_ahead hstart htimer hun
  have hcpu := fun t ht => (hahead t ht).alike.cpu
  refine ⟨n, ⟨fun t ht => ?_, ?_⟩, ?_⟩
  · rw [hcpu t (Nat.le_of_lt ht)]
    exact hend.1 t ht
  · rw [hcpu n (Nat.le_refl n)]
    exact hend.2
  · have hreads : ∀ t ∈ List.range n,
        Proof.stdinReads (machineAt mode m₀' t) = Proof.stdinReads (machineAt .plain m₀ t) := by
      intro t ht
      have hlt := List.mem_range.mp ht
      exact (hahead t (Nat.le_of_lt hlt)).stdinReads (htimer t hlt) (hun t hlt)
    have hn := (hahead n (Nat.le_refl n)).alike
    simp only [observed, hn.cpu, hn.mem, hn.stdout, List.flatMap_congr hreads]

/-- A run that is observed to end like the plain one shows no difference at any read. -/
theorem unaffected_of_endsWith (hstart : Ahead 0 m₀ m₀') (hend : EndsAfter .plain m₀ n)
    (htimer : ∀ t < n, ioTimer ∉ readAddrs (machineAt .plain m₀ t))
    (hends : EndsWith mode m₀' (observed .plain m₀ n)) :
    ∀ t < n, Unaffected (promptSize mode * t) (machineAt .plain m₀ t) := by
  obtain ⟨n', hend', hobs⟩ := hends
  intro t
  induction t using Nat.strongRecOn with
  | ind t ih =>
    intro ht hport
    have hbefore : ∀ s < t, Unaffected (promptSize mode * s) (machineAt .plain m₀ s) :=
      fun s hs => ih s hs (Nat.lt_trans hs ht)
    have hahead : ∀ s ≤ t,
        Ahead (promptSize mode * s) (machineAt .plain m₀ s) (machineAt mode m₀' s) :=
      machineAt_ahead hstart (fun s hs => htimer s (Nat.lt_trans hs ht)) hbefore
    -- The other run is still going, because its CPU is the plain run's.
    have hn' : t < n' := by
      apply Nat.lt_of_not_le
      intro hle
      have hstop := hend'.2
      rw [(hahead n' hle).alike.cpu, hend.1 n' (Nat.lt_of_le_of_lt hle ht)] at hstop
      cases hstop
    have hreads : ∀ s ∈ List.range t,
        Proof.stdinReads (machineAt mode m₀' s) = Proof.stdinReads (machineAt .plain m₀ s) := by
      intro s hs
      have hlt := List.mem_range.mp hs
      exact (hahead s (Nat.le_of_lt hlt)).stdinReads (htimer s (Nat.lt_trans hlt ht))
        (hbefore s hlt)
    -- Both lists of reads go on, after the same values, with the value of this step.
    have hp := reads_prefix (fun t => Proof.stdinReads (machineAt .plain m₀ t)) ht
    have hq := reads_prefix (fun t => Proof.stdinReads (machineAt mode m₀' t)) hn'
    have hall := congrArg Observation.reads hobs
    simp only [observed] at hall
    have hthis := hahead t (Nat.le_refl t)
    have hportq := (hthis.alike.mem_readAddrs (htimer t ht)).mpr hport
    rw [hall, List.range_succ, List.flatMap_append, List.flatMap_congr hreads,
      List.flatMap_singleton, stdinReads_eq, if_pos hportq, hthis.stdin] at hq
    rw [List.range_succ, List.flatMap_append, List.flatMap_singleton, stdinReads_eq,
      if_pos hport] at hp
    have hle := List.prefix_of_prefix_length_le hq hp (by simp)
    have heq := List.append_cancel_left (hle.eq_of_length (by simp))
    exact List.singleton_inj.mp heq

end Runs

/-! ## The modes of the emulator

Runs start from the same program and input. The clock may have gone on between them, which is why
the program must not read the timer. -/

section Modes

variable (cpu : CPU) (mem : Word → Word) (stdin : Bytes) (clock clock' : Nat → BitVec 64)

/-- The same program with the same input; the time is another. -/
theorem bootMachine_ahead :
    Ahead 0 (bootMachine cpu mem stdin clock) (bootMachine cpu mem stdin clock') :=
  ⟨⟨rfl, rfl, rfl⟩, rfl⟩

end Modes

/-- **Observation modes.** A program that does not read the timer does under `--trace` what it
does in a plain run. It does so under `--step` just when each value it reads is also the one
found `t` bytes further in the input, where `t` instructions, so `t` prompts, came before. -/
theorem observation_modes (cpu : CPU) (mem : Word → Word) (stdin : Bytes)
    (clock clockTrace clockStep : Nat → BitVec 64) {n : Nat}
    (hend : EndsAfter .plain (bootMachine cpu mem stdin clock) n)
    (htimer : ∀ t < n,
      ioTimer ∉ readAddrs (machineAt .plain (bootMachine cpu mem stdin clock) t)) :
    EndsWith .trace (bootMachine cpu mem stdin clockTrace)
      (observed .plain (bootMachine cpu mem stdin clock) n) ∧
    (EndsWith .step (bootMachine cpu mem stdin clockStep)
        (observed .plain (bootMachine cpu mem stdin clock) n) ↔
      ∀ t < n, Unaffected t (machineAt .plain (bootMachine cpu mem stdin clock) t)) := by
  have hone : ∀ t, promptSize .step * t = t := Nat.one_mul
  have hzero : ∀ t, promptSize .trace * t = 0 := Nat.zero_mul
  refine ⟨?_, ?_, ?_⟩
  · apply endsWith_of_unaffected (bootMachine_ahead _ _ _ _ _) hend htimer
    intro t _ _
    rw [hzero, List.drop_zero]
  · intro hstep t ht
    have hun := unaffected_of_endsWith (bootMachine_ahead _ _ _ _ _) hend htimer hstep t ht
    rwa [hone] at hun
  · intro hun
    apply endsWith_of_unaffected (bootMachine_ahead _ _ _ _ _) hend htimer
    intro t ht
    rw [hone]
    exact hun t ht

/-- `LW R1, R0, 3`, `LW R2, R1, 0`, `HALT`, and the address of `IO_STDIN`: a program that reads
one value. -/
def readOne : Bytes := [0x03, 0x51, 0x20, 0x52, 0x00, 0xF8, 0x01, 0xFF]

def readOneMem : Word → Word := (loadProgram readOne).getD fun _ => 0

def bootReadOne (stdin : Bytes) : Machine :=
  bootMachine ⟨fun _ => 0, 0, 0, 0, 0, false⟩ readOneMem stdin fun _ => 0

/-- On two equal bytes the program cannot tell the modes apart. -/
theorem observation_modes_readOne :
    EndsWith .trace (bootReadOne [97, 97]) (observed .plain (bootReadOne [97, 97]) 3) ∧
    EndsWith .step (bootReadOne [97, 97]) (observed .plain (bootReadOne [97, 97]) 3) := by
  have hend : EndsAfter .plain (bootReadOne [97, 97]) 3 :=
    ⟨by decide +kernel, by decide +kernel⟩
  have hmodes := observation_modes ⟨fun _ => 0, 0, 0, 0, 0, false⟩ readOneMem [97, 97]
    (fun _ => 0) (fun _ => 0) (fun _ => 0) hend (by decide +kernel)
  exact ⟨hmodes.1, hmodes.2.mpr (by unfold Unaffected; decide +kernel)⟩

/-- On different bytes it can: under `--step` the first of them goes to a prompt. -/
theorem step_takes_input :
    ¬ ∀ (file : Bytes) (cpu : CPU) (mem : Word → Word) (stdin : Bytes)
      (clock clockTrace clockStep : Nat → BitVec 64) (n : Nat), loadProgram file = some mem →
      EndsAfter .plain (bootMachine cpu mem stdin clock) n →
      (∀ t < n, ioTimer ∉ readAddrs (machineAt .plain (bootMachine cpu mem stdin clock) t)) →
      EndsWith .trace (bootMachine cpu mem stdin clockTrace)
        (observed .plain (bootMachine cpu mem stdin clock) n) ∧
      EndsWith .step (bootMachine cpu mem stdin clockStep)
        (observed .plain (bootMachine cpu mem stdin clock) n) := by
  intro hall
  have hend : EndsAfter .plain (bootReadOne [97, 98]) 3 :=
    ⟨by decide +kernel, by decide +kernel⟩
  have htimer : ∀ t < 3, ioTimer ∉ readAddrs (machineAt .plain (bootReadOne [97, 98]) t) := by
    decide +kernel
  have hstep := (hall readOne ⟨fun _ => 0, 0, 0, 0, 0, false⟩ readOneMem [97, 98] (fun _ => 0)
    (fun _ => 0) (fun _ => 0) 3 rfl hend htimer).2
  have hun := unaffected_of_endsWith (bootMachine_ahead _ _ _ _ _) hend htimer hstep
  exact absurd (hun 1 (by decide)) (by unfold Unaffected; decide +kernel)

end Proof
end EduCpu16
