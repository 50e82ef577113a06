import EduCpu16.Lib.Lockstep
import EduCpu16.Proof.Execute
import EduCpu16.Proof.Installed

/-!
# The assembler and the emulator agree

The source machine of `Source/Machine.lean` runs the parsed lines, the emulator the words the
assembler made of them. Side by side they stay in states that differ in `ir` only
(`assembled_runs`), for as long as the source machine stays on instruction lines and does not
overwrite any.

The simulation relation is `Agree` and `CodeIntact`. A step keeps the first because the word at `pc`
is the encoded instruction with its names resolved, which does what the instruction says
(`execute_decoded`), and the second because it stores to no instruction line. The two are lifted to
runs by the lockstep rule of the library.

It is a simulation of the source by the emulator and not the other way round: a program that leaves
its instruction lines still runs on the emulator, on words that no line of the source stands for.
-/

namespace EduCpu16
namespace Proof

open CLib Source

/-! ## The source program

What the assembler should have understood, read off the lines that it accepted: what each name
stands for and which instruction stands where. The symbol table has no part in it, and
`WellPlaced.lookup` connects the two. -/

/-- What names stand for: a label for the address of its line, a `.equ` name for its value. -/
def sourceEnv (lines : List Bytes) : Env := fun name =>
  (((pass1 lines).parsed.flatMap definitions).find? (·.1 = name)).map Prod.snd

/-- The instruction lines, by their addresses. -/
def sourceProgram (lines : List Bytes) : Program := fun a =>
  ((pass1 lines).parsed.find? fun pl => pl.kind = .instr ∧ pl.address = a).map ParsedLine.instr

/-- The sources the agreement is about. They assemble; the names fit the table, which would confuse
longer ones; origins do not go back and the counter does not wrap, so that every word stays where it
was put; and no instruction is on the device page, from which it could not be fetched. -/
structure WellPlaced (opt : AsmOptions) (lines : List Bytes) : Prop where
  assembles : Assembles opt lines
  names : ∀ pl ∈ (pass1 lines).parsed, ∀ d ∈ definitions pl, d.1.length ≤ symNameMax
  forward : Layout.Forward 0 (layoutOf lines)
  within : Layout.Within 0xFFFF 0 (layoutOf lines)
  belowIo : ∀ pl ∈ (pass1 lines).parsed, pl.kind = .instr → pl.address < ioBase

section Source

variable {opt : AsmOptions} {lines : List Bytes}

/-- Where there is an instruction, it is that of a row. -/
theorem sourceProgram_eq_some {a : Word} {i : Instr} (h : sourceProgram lines a = some i) :
    ∃ r ∈ rows lines, r.2.kind = .instr ∧ r.2.address = a ∧ r.2.instr = i := by
  obtain ⟨pl, hfind, rfl⟩ := Option.map_eq_some_iff.mp h
  have hmem := List.mem_of_find?_eq_some hfind
  have hpl : pl.kind = .instr ∧ pl.address = a := by simpa using List.find?_some hfind
  rw [← rows_snd, List.mem_map] at hmem
  obtain ⟨r, hr, rfl⟩ := hmem
  exact ⟨r, hr, hpl.1, hpl.2, rfl⟩

theorem sourceProgram_ne_none {r : Bytes × ParsedLine} (hr : r ∈ rows lines)
    (hk : r.2.kind = .instr) : sourceProgram lines r.2.address ≠ none := by
  intro h
  rw [sourceProgram, Option.map_eq_none_iff, List.find?_eq_none] at h
  exact h r.2 (rows_mem hr) (by simp [hk])

/-- The symbol table answers for a name what the environment says. -/
theorem WellPlaced.lookup (h : WellPlaced opt lines) {name : Bytes}
    (hfound : symtableLookup (pass1 lines).sym name ≠ symNotFound) :
    ∃ a, sourceEnv lines name = some a ∧
      symtableLookup (pass1 lines).sym name = a.setWidth 32 := by
  cases hfind : ((pass1 lines).parsed.flatMap definitions).find? (·.1 = name) with
  | none =>
    have hno : ∀ op ∈ (pass1 lines).parsed.flatMap definitions, op.1 ≠ name := by
      intro op hop
      simpa using List.find?_eq_none.mp hfind op hop
    have hlen : ∀ op ∈ (pass1 lines).parsed.flatMap definitions, op.1.length ≤ symNameMax := by
      intro op hop
      obtain ⟨pl, hpl, hdef⟩ := List.mem_flatMap.mp hop
      exact h.names pl hpl op hdef
    rw [h.assembles.pass1Ok.sym] at hfound
    exact absurd (symtableLookup_insertAll_none hlen hno) hfound
  | some d =>
    have hname : d.1 = name := by simpa using List.find?_some hfind
    obtain ⟨pl, hpl, hdef⟩ := List.mem_flatMap.mp (List.mem_of_find?_eq_some hfind)
    have hlookup := h.assembles.lookup_def hpl hdef (h.names pl hpl d hdef)
    exact ⟨d.2, by rw [sourceEnv, hfind]; rfl, hname ▸ hlookup⟩

/-! ## Names resolved

Pass 2 puts numbers in the place of names. A source instruction with its names and a resolved one
with its numbers are related by `Resolved`, operand by operand. -/

/-- An operand that resolves keeps its register, and stands for what it stood for. -/
theorem WellPlaced.operand_resolved (h : WellPlaced opt lines) {lineNo : Nat} {o o' : Operand}
    (hres : resolveOperand (pass1 lines).sym lineNo o = (o', none)) :
    o'.reg = o.reg ∧ (o'.kind = .reg → o.kind = .reg) ∧
    (o'.kind = .imm → o'.imm.setWidth 16 = operandWord (sourceEnv lines) o) := by
  by_cases hk : o.kind = .label
  · by_cases hfound : symtableLookup (pass1 lines).sym o.label = symNotFound
    · simp [resolveOperand, hk, hfound] at hres
    · obtain ⟨a, henv, hlookup⟩ := h.lookup hfound
      rw [resolveOperand_of_lookup hk hlookup, Prod.mk.injEq] at hres
      obtain ⟨rfl, -⟩ := hres
      refine ⟨rfl, ?_, ?_⟩
      · intro hreg
        cases hreg
      · intro _
        rw [operandWord, hk]
        simp [henv]
  · rw [resolveOperand, if_pos hk, Prod.mk.injEq] at hres
    obtain ⟨rfl, -⟩ := hres
    refine ⟨rfl, id, ?_⟩
    intro himm
    rw [operandWord, himm]

/-- So does an instruction, operand by operand. -/
theorem WellPlaced.resolved (h : WellPlaced opt lines) {lineNo : Nat} {i i' : Instr}
    (hres : resolveOperands (pass1 lines).sym lineNo i = (i', [])) :
    Resolved (sourceEnv lines) i i' := by
  have hop := resolveOperands_nil_iff.mp (congrArg Prod.snd hres)
  rw [resolveOperands, Prod.mk.injEq] at hres
  obtain ⟨rfl, -⟩ := hres
  have hspec := fun k hk => h.operand_resolved (Prod.ext rfl (hop k hk))
  refine ⟨rfl, ?_, ?_, ?_⟩
  · intro k
    by_cases hk : k.val < i.nops
    · simpa [hk] using (hspec k hk).1
    · simp [hk]
  · intro k
    by_cases hk : k.val < i.nops
    · simpa [hk] using (hspec k hk).2.1
    · simp [hk]
  · intro k hk
    simpa [show k.val < i.nops from hk] using (hspec k hk).2.2

/-! ## The word of an instruction line

From the emitted words back to the instruction. The encoder's theorem says what the macros read out
of the word, and that is what EXECUTE goes by. -/

/-- What an instruction line becomes: a word at its address, which is the encoding of the
instruction with its names resolved. -/
theorem WellPlaced.instr_word (h : WellPlaced opt lines) {r : Bytes × ParsedLine}
    (hr : r ∈ rows lines) (hk : r.2.kind = .instr) :
    ∃ o i' w, emit opt lines r = [(r.2.address, w)] ∧ readMnemonic r.2.instr.mnemonic = some o ∧
      Resolved (sourceEnv lines) r.2.instr i' ∧ Fits i' r.2.address (fmtOf o) ∧
      Decodes (defOf o) i' r.2.address w := by
  obtain ⟨i', w, hres, henc, hstores⟩ :=
    pass2Line_instr hk ((assembles_iff.mp h.assembles).2 r hr)
  have hresolved := h.resolved hres
  have hregs : RegsOk i' := by
    intro k hreg
    rw [hresolved.reg]
    exact (h.assembles.lineOk hr).ops k (hresolved.kind k hreg)
  obtain ⟨d, hd, hfit, hdec⟩ := encodeInstr_spec hregs (congrArg Prod.fst henc)
  rw [henc] at hdec
  rw [findOp_eq, hresolved.mnemonic] at hd
  obtain ⟨o, ho, rfl⟩ := Option.map_eq_some_iff.mp hd
  exact ⟨o, i', w, hstores, ho, hresolved, hfit, hdec⟩

end Source

/-! ## The simulation relation

The bus is the same on both sides, devices and all, so every read and write of a step gets the same
answers. `cycleCount` is compared as well; `ir` is what the source machine has no use for. -/

/-- The emulator is where the source machine is. All of the CPU is compared but `ir`, which holds
words and is not part of what a source says. -/
structure Agree (s m : Machine) : Prop where
  regs : m.cpu.regs = s.cpu.regs
  pc : m.cpu.pc = s.cpu.pc
  flags : m.cpu.flags = s.cpu.flags
  cycleCount : m.cpu.cycleCount = s.cpu.cycleCount
  halted : m.cpu.halted = s.cpu.halted
  bus : m.bus = s.bus

theorem agree_withIr (w : Word) (s : Machine) : Agree s (withIr w s) :=
  ⟨rfl, rfl, rfl, rfl, rfl, rfl⟩

theorem Agree.eq_withIr {s m : Machine} (h : Agree s m) : m = withIr m.cpu.ir s := by
  obtain ⟨hregs, hpc, hflags, hcycle, hhalted, hbus⟩ := h
  cases m with
  | mk cpu bus =>
    cases cpu
    simp_all [withIr]

/-- Every instruction line's word is where it was put. A program may store wherever else it likes,
into its data or into words that are never executed. -/
def CodeIntact (opt : AsmOptions) (lines : List Bytes) (m : Machine) : Prop :=
  ∀ r ∈ rows lines, r.2.kind = .instr → ∀ w, (r.2.address, w) ∈ emit opt lines r →
    m.bus.mem r.2.address = w

section Step

variable {opt : AsmOptions} {lines : List Bytes} (h : WellPlaced opt lines)
include h

/-- On an instruction line whose word is intact, the emulator executes the instruction. -/
theorem WellPlaced.cpuStep_eq {s m : Machine} (hagree : Agree s m)
    (hcode : CodeIntact opt lines s) (hrun : s.cpu.halted = false) {r : Bytes × ParsedLine}
    (hr : r ∈ rows lines) (hk : r.2.kind = .instr) (hpc : r.2.address = s.cpu.pc) :
    ∃ o w, readMnemonic r.2.instr.mnemonic = some o ∧
      cpuStep m = withIr w (exec (sourceEnv lines) o r.2.instr (advance s)) := by
  obtain ⟨o, i', w, hemit, ho, hres, hfit, hdec⟩ := h.instr_word hr hk
  rw [hpc] at hfit hdec
  have hword : s.bus.mem s.cpu.pc = w := by
    rw [← hpc]
    exact hcode r hr hk w (by rw [hemit]; exact List.mem_singleton_self _)
  have hio : s.cpu.pc < ioBase := hpc ▸ h.belowIo r.2 (rows_mem hr) hk
  -- What the emulator fetches at `pc` is the line's word.
  have hfetch : fetch m = withIr w (advance s) := by
    rw [hagree.eq_withIr, fetch]
    simp only [withIr, memRead_of_lt hio, hword, advance]
  refine ⟨o, w, ho, ?_⟩
  rw [cpuStep_running (hagree.halted.trans hrun), hfetch, decodeExecute, execute_withIr]
  exact congrArg (withIr w) (execute_decoded hres hfit hdec)

omit h in
/-- A store that misses the instruction lines leaves them intact. -/
theorem CodeIntact.memWrite {s s' : Machine} (hcode : CodeIntact opt lines s) {addr v : Word}
    (hmiss : sourceProgram lines addr = none)
    (hmem : s'.bus.mem = (memWrite s.bus addr v).mem) : CodeIntact opt lines s' := by
  intro r hr hk w hw
  rw [hmem, memWrite_mem, if_neg]
  · exact hcode r hr hk w hw
  · rintro ⟨rfl, -⟩
    exact sourceProgram_ne_none hr hk hmiss

omit h in
/-- Executing an instruction that stores to no instruction line leaves them intact. -/
theorem CodeIntact.exec {s : Machine} (hcode : CodeIntact opt lines s) {o : Opcode} {i : Instr}
    (hsw : o = .sw → sourceProgram lines (storeAddr (sourceEnv lines) i s) = none)
    (hcall : o = .call → sourceProgram lines (s.cpu.regs 7) = none) :
    CodeIntact opt lines (exec (sourceEnv lines) o i (advance s)) := by
  have hmem := exec_mem (sourceEnv lines) o i (advance s)
  cases o
  case sw => exact hcode.memWrite (hsw rfl) hmem
  case call => exact hcode.memWrite (hcall rfl) hmem
  all_goals
    intro r hr hk w hw
    rw [hmem]
    exact hcode r hr hk w hw

/-- **One step of the simulation.** -/
theorem WellPlaced.agree_step (s m : Machine) (hrel : Agree s m ∧ CodeIntact opt lines s)
    (hallowed : Allowed (sourceProgram lines) (sourceEnv lines) s) :
    Agree (step (sourceProgram lines) (sourceEnv lines) s) (cpuStep m) ∧
    CodeIntact opt lines (step (sourceProgram lines) (sourceEnv lines) s) := by
  obtain ⟨hagree, hcode⟩ := hrel
  -- A halted source machine stays where it is, and so does the emulator.
  cases hrun : s.cpu.halted with
  | true =>
    have hstay : step (sourceProgram lines) (sourceEnv lines) s = s := by
      rw [Source.step, if_pos hrun]
    rw [hstay, cpuStep_halted (hagree.halted.trans hrun)]
    exact ⟨hagree, hcode⟩
  | false =>
    rcases hallowed with hhalted | ⟨i, hi, hsw, hcall⟩
    · exact absurd (hhalted.symm.trans hrun) (by decide)
    · obtain ⟨r, hr, hk, hpc, rfl⟩ := sourceProgram_eq_some hi
      obtain ⟨o, w, ho, hemu⟩ := h.cpuStep_eq hagree hcode hrun hr hk hpc
      have hsource : step (sourceProgram lines) (sourceEnv lines) s =
          exec (sourceEnv lines) o r.2.instr (advance s) := by
        simp only [Source.step, hrun, hi, ho]
        rfl
      rw [hsource, hemu]
      refine ⟨agree_withIr w _, hcode.exec ?_ ?_⟩
      · rintro rfl
        exact hsw ho
      · rintro rfl
        exact hcall ho

end Step

/-! ## Runs

The file is written and loaded with every word in its place, so the two machines start in agreement.
`Lockstep` does the rest. -/

/-- **The assembler and the emulator agree over whole runs.** The file is written and loaded, and
from there the two machines go side by side for as long as each step of the source machine is
allowed, whatever the CPU was before the reset, the input and the clock. After every one of these
steps the registers, the flags, `pc`, the cycle counter, memory and devices are the same. -/
theorem assembled_runs {opt : AsmOptions} {lines : List Bytes} (h : WellPlaced opt lines)
    (cpu : CPU) (stdin : Bytes) (clock : Nat → BitVec 64) :
    ∃ bin mem, (assembleLines opt lines).bin = some bin ∧ loadProgram bin = some mem ∧
      ∀ n, (∀ k < n, Allowed (sourceProgram lines) (sourceEnv lines)
          ((step (sourceProgram lines) (sourceEnv lines))^[k] (bootMachine cpu mem stdin clock))) →
        Agree ((step (sourceProgram lines) (sourceEnv lines))^[n]
            (bootMachine cpu mem stdin clock))
          (cpuStep^[n] (bootMachine cpu mem stdin clock)) := by
  obtain ⟨bin, hbin, hload⟩ := h.assembles.loadProgram_bin h.forward h.within
  refine ⟨bin, _, hbin, hload, ?_⟩
  intro n hallowed
  refine (Lockstep.iterate h.agree_step ⟨⟨rfl, rfl, rfl, rfl, rfl, rfl⟩, ?_⟩ n hallowed).1
  intro r hr _ w hw
  exact h.assembles.image_at h.forward h.within (List.mem_flatMap.mpr ⟨r, hr, hw⟩)

/-- A call, a return, a store and the halt. -/
theorem assembled_runs_call :
    let lines := [ascii "MOV R1, 5", ascii "CALL F", ascii "SW R1, R1, 10", ascii "HALT",
      ascii "F: ADDI R1, R1, 1", ascii "RET"]
    let mem := (loadProgram
      [0x05, 0x61, 0x02, 0x98, 0x2A, 0x59, 0x00, 0xF8, 0x21, 0x49, 0x00, 0xA0]).getD fun _ => 0
    let boot := bootMachine ⟨fun _ => 0, 0, 0, 0, 0, false⟩ mem [] fun _ => 0
    Agree ((step (sourceProgram lines) (sourceEnv lines))^[6] boot) (cpuStep^[6] boot) := by
  intro lines mem boot
  have hlayout : layoutOf lines = List.replicate 6 (.words 1) := by decide +kernel
  have hblocks : ∀ b ∈ Layout.blocks 0 0 (layoutOf lines), b.1 + b.2 ≤ 0xFFFF := by
    decide +kernel
  have hplaced : WellPlaced {} lines :=
    { assembles := by decide +kernel
      names := by decide +kernel
      forward := by
        rw [hlayout]
        simp [List.replicate, Layout.Forward, Layout.Item.next]
      within := Layout.within_iff_blocks.mpr hblocks
      belowIo := by decide +kernel }
  obtain ⟨bin, loaded, hbin, hload, hrun⟩ :=
    assembled_runs hplaced ⟨fun _ => 0, 0, 0, 0, 0, false⟩ [] fun _ => 0
  have hfile : (assembleLines {} lines).bin =
      some [0x05, 0x61, 0x02, 0x98, 0x2A, 0x59, 0x00, 0xF8, 0x21, 0x49, 0x00, 0xA0] := by
    decide +kernel
  obtain rfl := Option.some.inj (hfile.symm.trans hbin)
  obtain rfl : mem = loaded := congrArg (Option.getD · fun _ => 0) hload
  exact hrun 6 (by decide +kernel)

end Proof
end EduCpu16
