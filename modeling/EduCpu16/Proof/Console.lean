import EduCpu16.Emulator.CommandLine
import EduCpu16.Lib.Printed
import EduCpu16.Proof.StepFrame

/-!
# What is on the console

What a run prints and what the loop of `main` prints between its steps come out of one stream, and
the results about printing have to take them apart again. The CPU only adds to the standard output
and never looks at it (`cpuStep_onto`), so a run with the loop's texts in between makes the same
steps as one without (`trace_iterate`).

The other direction is about reading: a dump is a text of fixed parts, from which the CPU state can
be read back, and where it ends (`delimits_cpuDump`). The library's `Delimits` is closed under
putting one text behind another, so the proof follows the `printf` calls of `cpu_dump` one by one.
-/

namespace EduCpu16
namespace Proof

open CLib Printed

/-! ## The standard output is only added to

`onto out m` is the machine with another text printed so far. A step of it is the step of `m` with
the same bytes added, so what has been printed can be set aside. -/

/-- The machine with another text printed so far. -/
def onto (text : Bytes) (m : Machine) : Machine :=
  { m with bus := { m.bus with stdout := text } }

/-- What the next step prints. -/
def stepOutput (m : Machine) : Bytes :=
  if m.cpu.halted then []
  else
    match storeOf m with
    | some (addr, val) => if addr = ioStdout then [val.setWidth 8] else []
    | none => []

section Onto

variable (text : Bytes) (bus : Bus)

theorem memRead_onto (addr : Word) : memRead { bus with stdout := text } addr =
    ((memRead bus addr).1, { (memRead bus addr).2 with stdout := text }) := by
  by_cases hin : addr = ioStdin
  · cases hstdin : bus.stdin with
    | nil => simp only [memRead, hin, hstdin, if_true]
    | cons c rest => simp only [memRead, hin, hstdin, if_true]
  · by_cases htimer : addr = ioTimer
    · simp only [memRead, if_neg hin, if_pos htimer]
    · simp only [memRead, if_neg hin, if_neg htimer]

theorem memWrite_onto (addr val : Word) : ∃ out, memWrite { bus with stdout := text } addr val =
    { memWrite bus addr val with stdout := out } := by
  unfold memWrite
  split
  · exact ⟨_, rfl⟩
  · split
    · exact ⟨_, rfl⟩
    · exact ⟨_, rfl⟩

theorem jump_onto (m : Machine) (taken : Bool) (off : Word) :
    (onto text m).jump taken off = onto text (m.jump taken off) := by
  cases taken with
  | true => rfl
  | false => rfl

/-- No instruction looks at what has been printed. -/
theorem execute_onto (op : Byte) (rd rs1 rs2 : Fin 8) (imm off : Word) (m : Machine) :
    ∃ out, execute op rd rs1 rs2 imm off (onto text m) =
      onto out (execute op rd rs1 rs2 imm off m) := by
  cases hop : Opcode.ofCode? op with
  | none =>
    refine ⟨text, ?_⟩
    simp only [execute, hop, onto]
  | some o =>
    cases o
    case jmp | jeq | jne | jlt | jgt =>
      refine ⟨text, ?_⟩
      simp only [execute, hop]
      exact jump_onto text m _ off
    case sw =>
      obtain ⟨out, hout⟩ := memWrite_onto text m.bus (m.cpu.regs rs1 + imm) (m.cpu.regs rd)
      refine ⟨out, ?_⟩
      simp only [execute, hop, onto, hout]
    case call =>
      obtain ⟨out, hout⟩ := memWrite_onto text m.bus (m.cpu.regs 7) m.cpu.pc
      refine ⟨out, ?_⟩
      simp only [execute, hop, onto, hout]
    case lw | ret =>
      refine ⟨text, ?_⟩
      simp only [execute, hop, onto, memRead_onto]
    all_goals
      refine ⟨text, ?_⟩
      simp only [execute, hop, onto]

end Onto

/-- **A step adds to the standard output, and does not look at it.** -/
theorem cpuStep_onto (text : Bytes) (m : Machine) :
    cpuStep (onto text m) = onto (text ++ stepOutput m) (cpuStep m) := by
  cases hrun : m.cpu.halted with
  | true =>
    have hhalted : (onto text m).cpu.halted = true := hrun
    rw [cpuStep_halted hhalted, cpuStep_halted hrun, stepOutput, if_pos hrun, List.append_nil]
  | false =>
    have hrunning : (onto text m).cpu.halted = false := hrun
    have hsame : ∃ out, cpuStep (onto text m) = onto out (cpuStep m) := by
      have hfetch : fetch (onto text m) = onto text (fetch m) := by
        simp only [fetch, onto, memRead_onto]
      rw [cpuStep_running hrunning, cpuStep_running hrun, hfetch]
      exact execute_onto text _ _ _ _ _ _ (fetch m)
    obtain ⟨out, hout⟩ := hsame
    have hstdout := cpuStep_stdout hrunning
    have hstore : storeOf (onto text m) = storeOf m := by
      simp only [storeOf, fetched, onto, memRead_onto]
    rw [hout, hstore] at hstdout
    rw [hout, stepOutput, if_neg (by rw [hrun]; exact Bool.false_ne_true)]
    exact congrArg (fun t => onto t (cpuStep m)) hstdout

/-! ## A dump tells the state

Numbers are printed in hexadecimal with a fixed number of digits, or in decimal up to the end of
their line. Both can be read back without knowing what follows. -/

theorem hexDigits_length (k n : Nat) : (hexDigits k n).length = k := by
  rw [hexDigits, List.length_map, List.length_range]

/-- Equal digits, equal numbers. -/
theorem mod_pow_eq_of_digits {b m n : Nat} : ∀ {k : Nat},
    (∀ i < k, m / b ^ i % b = n / b ^ i % b) → m % b ^ k = n % b ^ k
  | 0, _ => by rw [Nat.pow_zero, Nat.mod_one, Nat.mod_one]
  | k + 1, h => by
    rw [Nat.mod_pow_succ, Nat.mod_pow_succ, h k (Nat.lt_succ_self k),
      mod_pow_eq_of_digits fun i hi => h i (Nat.lt_succ_of_lt hi)]

theorem hexDigit_injective : ∀ d < 16, ∀ e < 16, hexDigit d = hexDigit e → d = e := by decide

theorem hexDigits_injective {k m n : Nat} (hm : m < 16 ^ k) (hn : n < 16 ^ k)
    (h : hexDigits k m = hexDigits k n) : m = n := by
  rw [← Nat.mod_eq_of_lt hm, ← Nat.mod_eq_of_lt hn]
  refine mod_pow_eq_of_digits fun i hi => ?_
  have hat := List.map_inj_left.mp h (k - 1 - i) (List.mem_range.mpr (by omega))
  have hback : k - 1 - (k - 1 - i) = i := by omega
  rw [hback] at hat
  exact hexDigit_injective _ (Nat.mod_lt _ (by decide)) _ (Nat.mod_lt _ (by decide)) hat

theorem delimits_fmt04X : Delimits fmt04X :=
  delimits_of_length 4 (fun w => hexDigits_length 4 w.toNat) fun v w h =>
    BitVec.eq_of_toNat_eq (hexDigits_injective v.isLt w.isLt h)

theorem delimits_fmt02X : Delimits fmt02X :=
  delimits_of_length 2 (fun b => hexDigits_length 2 b.toNat) fun b c h =>
    BitVec.eq_of_toNat_eq (hexDigits_injective b.isLt c.isLt h)

theorem delimits_bitText : Delimits bitText :=
  delimits_of_length 1 (by decide) fun a b h => by
    revert a b
    decide

theorem delimits_regText (i : Nat) : Delimits (regText i) := by
  have hhex := (delimits_fmt04X.before (ascii "R" ++ decimal i ++ ascii ": 0x")).behind fun v =>
    ascii " (" ++ (padLeft 5 (decimal v.toNat) ++ ascii ")\n")
  intro v w s t h
  simp only [regText, List.append_assoc] at h
  refine hhex ?_
  simp only [List.append_assoc]
  exact h

/-- The end of a number's line. -/
theorem delimits_decimal : Delimits fun n => decimal n ++ ascii "\n" := by
  refine delimits_of_mark (fun m n h => decimal_injective h) fun n hmem => ?_
  have hdigit := (decimal_digits n).2 _ hmem
  exact absurd hdigit (by decide)

theorem delimits_halted :
    Delimits fun h : Bool => if h then ascii "yes" else ascii "no" := by
  intro a b s t h
  cases a <;> cases b
  · exact ⟨rfl, List.append_cancel_left h⟩
  · cases (List.cons.inj h).1
  · cases (List.cons.inj h).1
  · exact ⟨rfl, List.append_cancel_left h⟩

/-- **A dump tells the CPU state**, and where it ends. -/
theorem delimits_cpuDump : Delimits cpuDumpText := by
  intro a b s t h
  unfold cpuDumpText at h
  simp only [List.append_assoc] at h
  obtain ⟨hregs, h⟩ := delimits_table (fun i : Fin 8 => delimits_regText i.val) _
    (List.append_cancel_left h)
  obtain ⟨hpc, h⟩ := delimits_fmt04X (List.append_cancel_left h)
  obtain ⟨hir, h⟩ := delimits_fmt04X (List.append_cancel_left (List.append_cancel_left h))
  obtain ⟨-, h⟩ := delimits_fmt04X (List.append_cancel_left (List.append_cancel_left h))
  obtain ⟨-, h⟩ := delimits_bitText (List.append_cancel_left (List.append_cancel_left h))
  obtain ⟨-, h⟩ := delimits_bitText (List.append_cancel_left h)
  obtain ⟨-, h⟩ := delimits_bitText (List.append_cancel_left h)
  obtain ⟨-, h⟩ := delimits_bitText (List.append_cancel_left h)
  obtain ⟨hflags, h⟩ := delimits_fmt02X (List.append_cancel_left h)
  have h := List.append_cancel_left (List.append_cancel_left h)
  rw [← List.append_assoc (decimal _), ← List.append_assoc (decimal _)] at h
  obtain ⟨hcycles, h⟩ := delimits_decimal h
  obtain ⟨hhalted, h⟩ := delimits_halted (List.append_cancel_left h)
  refine ⟨?_, List.append_cancel_left h⟩
  cases a
  cases b
  simp only [CPU.mk.injEq]
  exact ⟨funext fun i => hregs i (List.mem_finRange i), hpc, hir, hflags,
    BitVec.eq_of_toNat_eq hcycles, hhalted⟩

/-! ## The console of `--trace`

A turn is what the step prints, at most one byte, and then a dump. A byte could be anything, also
one that a dump begins with; it is told from the dump all the same, because where the first blank is
differs by its length (`output_eq`). -/

theorem stepOutput_length (m : Machine) : (stepOutput m).length ≤ 1 := by
  unfold stepOutput
  split
  · exact Nat.zero_le 1
  · split
    · split
      · exact Nat.le_refl 1
      · exact Nat.zero_le 1
    · exact Nat.zero_le 1

/-- A turn of the loop: what the step prints, and the dump. -/
structure TraceTurn where
  output : Bytes
  cpu : CPU
  short : output.length ≤ 1

def TraceTurn.text (turn : TraceTurn) : Bytes := turn.output ++ cpuDumpText turn.cpu

/-- TraceTurn `t` of a run. -/
def traceTurn (m : Machine) (t : Nat) : TraceTurn where
  output := stepOutput (cpuStep^[t] m)
  cpu := (cpuStep^[t + 1] m).cpu
  short := stepOutput_length _

/-- How a dump begins. -/
theorem cpuDumpText_head (cpu : CPU) : ∃ rest, cpuDumpText cpu = ascii "=== C" ++ rest := by
  refine ⟨(cpuDumpText cpu).drop 5, ?_⟩
  have htake : (cpuDumpText cpu).take 5 = ascii "=== C" := by
    unfold cpuDumpText
    simp only [List.append_assoc]
    rfl
  rw [← htake, List.take_append_drop]

/-- A byte before the dump is told from the dump by where the first blank is. -/
theorem output_eq {out out' rest rest' : Bytes} (hout : out.length ≤ 1) (hout' : out'.length ≤ 1)
    (h : out ++ (ascii "=== C" ++ rest) = out' ++ (ascii "=== C" ++ rest')) : out = out' := by
  have hfourth := congrArg (fun l : Bytes => l[3]?) h
  match out, out', hout, hout' with
  | [], [], _, _ => rfl
  | [c], [c'], _, _ => rw [(List.cons.inj h).1]
  | [], [c'], _, _ => exact absurd (Option.some.inj hfourth) (by decide)
  | [c], [], _, _ => exact absurd (Option.some.inj hfourth) (by decide)

/-- **A turn tells what was printed and the CPU state.** -/
theorem delimits_turn : Delimits TraceTurn.text := by
  rintro ⟨out, cpu, hshort⟩ ⟨out', cpu', hshort'⟩ s t h
  rw [TraceTurn.text, TraceTurn.text, List.append_assoc, List.append_assoc] at h
  obtain ⟨rest, hrest⟩ := cpuDumpText_head cpu
  obtain ⟨rest', hrest'⟩ := cpuDumpText_head cpu'
  have hout : out = out' := by
    rw [hrest, hrest', List.append_assoc, List.append_assoc] at h
    exact output_eq hshort hshort' h
  subst hout
  obtain ⟨rfl, hend⟩ := delimits_cpuDump (List.append_cancel_left h)
  exact ⟨rfl, hend⟩

/-- **The loop of `--trace`** makes the steps of a plain run, and prints its turns. -/
theorem trace_iterate (m : Machine) (n : Nat) : (consoleBody .trace)^[n] m =
    onto (m.bus.stdout ++ ((List.range n).map (traceTurn m)).flatMap TraceTurn.text)
      (cpuStep^[n] m) := by
  induction n with
  | zero =>
    show m = onto (m.bus.stdout ++ []) m
    rw [List.append_nil]
    rfl
  | succ n ih =>
    have hlast : ([n].map (traceTurn m)).flatMap TraceTurn.text =
        stepOutput (cpuStep^[n] m) ++ cpuDumpText (cpuStep (cpuStep^[n] m)).cpu := by
      rw [← Function.iterate_succ_apply' cpuStep n m]
      exact List.append_nil _
    have hturn : consoleBody .trace ((consoleBody .trace)^[n] m) =
        (cpuStep ((consoleBody .trace)^[n] m)).print
          (cpuDumpText (cpuStep ((consoleBody .trace)^[n] m)).cpu) := rfl
    rw [Function.iterate_succ_apply', hturn, ih, cpuStep_onto, Function.iterate_succ_apply',
      List.range_succ, List.map_append, List.flatMap_append, hlast, ← List.append_assoc,
      ← List.append_assoc]
    rfl

end Proof
end EduCpu16
