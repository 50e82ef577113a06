import EduCpu16.Proof.Input
import EduCpu16.Proof.Message
import EduCpu16.Proof.Programs

/-!
# The timer example

`timer_example.asm` on any clock (`timer_stores`). Up to the LW and behind it the program is
straight code, and a run of cores; the LW itself reads the device. How often the clock has been
asked is counted by `cpuStep_ticks`.

The clock is a function of the number of times it was asked, and of its value the low 16 bits are
read. So the word that is stored is the clock's first answer plus 42, modulo `2 ^ 16`.
-/

namespace EduCpu16
namespace Proof

open CLib CountedRun Source Proof.Core

/-! ## The clock

The number of times it was asked is the number of reads of its port. A core reads none, so along a
run of cores the number stays. -/

theorem memRead_ticks (bus : Bus) (addr : Word) :
    (memRead bus addr).2.ticks = bus.ticks + [addr].count ioTimer := by
  by_cases hin : addr = ioStdin
  · subst hin
    unfold memRead
    split
    · split
      · rfl
      · rfl
    · rename_i hne
      exact absurd rfl hne
  · by_cases htimer : addr = ioTimer
    · subst htimer
      simp only [memRead, if_neg hin, if_true, List.count_singleton_self]
    · simp only [memRead, if_neg hin, if_neg htimer]
      rw [List.count_eq_zero.mpr fun h => htimer (List.mem_singleton.mp h).symm]
      rfl

theorem memWrite_ticks (bus : Bus) (addr val : Word) :
    (memWrite bus addr val).ticks = bus.ticks := by
  unfold memWrite
  split
  · rfl
  · split
    · rfl
    · rfl

/-- **A step asks the clock once** for each read of `IO_TIMER`. -/
theorem cpuStep_ticks (m : Machine) :
    (cpuStep m).bus.ticks = m.bus.ticks + (readAddrs m).count ioTimer := by
  cases hrun : m.cpu.halted with
  | true => simp only [cpuStep_halted hrun, readAddrs, hrun, if_true, List.count_nil, Nat.add_zero]
  | false =>
    have hfetch : (fetch m).bus.ticks = m.bus.ticks + [m.cpu.pc].count ioTimer :=
      memRead_ticks m.bus m.cpu.pc
    -- The fetch is counted; of the instructions only a load asks again.
    have hload : (cpuStep m).bus.ticks =
        (fetch m).bus.ticks + (loadOf m).toList.count ioTimer := by
      cases hop : opcodeOf (fetched m) with
      | none =>
        have hop' : Opcode.ofCode? ((instrOpcode (fetch m).cpu.ir).setWidth 8) = none := hop
        rw [cpuStep_running hrun, decodeExecute]
        simp only [execute, hop', loadOf, hop]
        rfl
      | some o =>
        rw [cpuStep_of_opcode hrun hop]
        cases o
        case lw =>
          simp only [execute, Opcode.ofCode?_code, loadOf_lw hop, fetch_regs]
          exact memRead_ticks _ _
        case ret =>
          simp only [execute, Opcode.ofCode?_code, loadOf_ret hop, fetch_regs, CPU.setReg_regs,
            Function.update_self]
          exact memRead_ticks _ _
        case sw | call =>
          simp only [execute, Opcode.ofCode?_code, loadOf, hop]
          exact memWrite_ticks _ _ _
        case jmp | jeq | jne | jlt | jgt =>
          simp only [execute, Opcode.ofCode?_code, loadOf, hop, jump_bus]
          rfl
        all_goals
          simp only [execute, Opcode.ofCode?_code, loadOf, hop]
          rfl
    rw [hload, hfetch, readAddrs, hrun, if_neg Bool.false_ne_true, Nat.add_assoc,
      ← List.count_append]
    rfl

/-- What a core reads is memory. -/
theorem readAddrs_lt {m : Machine} (h : (core m).NoDevice) : ∀ a ∈ readAddrs m, a < ioBase := by
  have hrun : m.cpu.halted = false := h.running
  have hfetched : fetched m = m.bus.mem m.cpu.pc := congrArg Prod.fst (memRead_of_lt h.pc)
  intro a ha
  rw [readAddrs, hrun, if_neg Bool.false_ne_true, List.mem_cons, Option.mem_toList] at ha
  rcases ha with rfl | hload
  · exact h.pc
  · rw [loadOf, hfetched] at hload
    exact h.load a hload

/-- A run of cores asks no clock. -/
theorem ticks_of_leads {n : Nat} {m : Machine} {c : Core}
    (h : Leads Core.step Core.NoDevice n (core m) c) :
    (cpuStep^[n] m).bus.ticks = m.bus.ticks := by
  induction n generalizing c with
  | zero => rfl
  | succ n ih =>
    have hpart : Leads Core.step Core.NoDevice n (core m) (Core.step^[n] (core m)) :=
      ⟨fun k hk => h.allowed k (Nat.lt_succ_of_lt hk), rfl⟩
    have hno := h.allowed n (Nat.lt_succ_self n)
    rw [← (core_of_leads hpart).1] at hno
    rw [Function.iterate_succ_apply', cpuStep_ticks, ih hpart, List.count_eq_zero.mpr]
    · rfl
    · intro hmem
      exact absurd (readAddrs_lt hno _ hmem) (by decide)

/-! ## The program -/

/-- R1 is the base of the ports. -/
def timerSetup : List Word := [
  wordI .mov 1 0 15, wordI .mov 2 0 4, wordR .shl 1 1 2, wordI .mov 2 0 15, wordR .add 1 1 2,
  wordI .mov 2 0 8, wordR .shl 1 1 2]

/-- R0 is the sum, and R3 where it goes. -/
def timerSum : List Word := [
  wordI .addi 0 0 15, wordI .addi 0 0 15, wordI .addi 0 0 12, wordI .mov 3 0 2, wordI .mov 2 0 8,
  wordR .shl 3 3 2]

def timerWords : List Word :=
  timerSetup ++ wordI .lw 0 1 2 :: timerSum ++ [wordI .sw 0 3 0, wordJ .halt 0]

theorem emitted_timerExample : emitted {} timerExample = (wordsFrom 0 16).zip timerWords := by
  decide +kernel

/-- Up to the LW. -/
theorem timer_setup {c : Core} (hcode : CodeAt c.mem 0 timerWords) (hrun : c.halted = false)
    (hpc : c.pc = 0) : ∃ t, Leads step NoDevice 7 c t ∧ t.halted = false ∧ t.pc = 7 ∧
      t.mem = c.mem ∧ t.stdout = c.stdout ∧ t.regs 1 = ioBase := by
  have hstraight : timerSetup.all straight = true := by decide
  have hleads : Leads step NoDevice 7 c (block timerSetup c) :=
    leads_block hstraight hrun hpc (by decide) (hcode.slice 0 7)
  obtain ⟨hmem, hout, hrun', hpc'⟩ := block_frame hstraight c
  refine ⟨_, hleads, hrun'.trans hrun, ?_, hmem, hout, ?_⟩
  · rw [hpc', hpc]
    rfl
  · simp only [block, timerSetup, List.foldl_cons, List.foldl_nil, exec_mov, exec_shl,
      exec_add]
    simp [ioBase]

/-- Behind the LW. -/
theorem timer_sum {c : Core} (hcode : CodeAt c.mem 0 timerWords) (hrun : c.halted = false)
    (hpc : c.pc = 8) : ∃ t, Leads step NoDevice 8 c t ∧ t.halted = true ∧
      t.mem = Function.update c.mem 0x200 (c.regs 0 + 42) ∧ t.stdout = c.stdout := by
  have hstraight : timerSum.all straight = true := by decide
  have hleads : Leads step NoDevice 6 c (block timerSum c) :=
    leads_block hstraight hrun hpc (by decide) (hcode.slice 8 6)
  obtain ⟨hmem, hout, hrun', hpc'⟩ := block_frame hstraight c
  have hpc'' : (block timerSum c).pc = 14 := by
    rw [hpc', hpc]
    rfl
  have hsum : (block timerSum c).regs 0 = c.regs 0 + 42 ∧ (block timerSum c).regs 3 = 0x200 := by
    simp only [block, timerSum, List.foldl_cons, List.foldl_nil, exec_addi, exec_mov,
      exec_shl]
    simp [BitVec.add_assoc]
  have hsw := leads_step (w := wordI .sw 0 3 0) (hrun'.trans hrun) (by rw [hpc'']; decide)
    (by rw [hpc'', hmem]; exact hcode 14 _ rfl) (by decide)
  simp only [exec_sw, next_regs, BitVec.reduceSignExtend, BitVec.add_zero, hsum] at hsw
  rw [store_memory _ _ _ (by decide)] at hsw
  -- The sum is not stored over the HALT.
  have hkept : Function.update (block timerSum c).mem 0x200 (c.regs 0 + 42) 15 =
      wordJ .halt 0 := by
    rw [Function.update_of_ne (by decide), hmem]
    exact hcode 15 _ rfl
  have hhalt := leads_step (w := wordJ .halt 0)
    (c := { (block timerSum c).next with
      mem := Function.update (block timerSum c).mem 0x200 (c.regs 0 + 42) })
    (hrun'.trans hrun) (by rw [next_pc, hpc'']; decide) (by rw [next_pc, hpc'']; exact hkept)
    (by decide)
  rw [exec_halt] at hhalt
  refine ⟨_, (hleads.trans hsw).trans hhalt, rfl, ?_, hout⟩
  rw [← hmem]
  rfl

/-- The LW, which asks the clock. -/
theorem timer_load {m : Machine} (hrun : m.cpu.halted = false) (hpc : m.cpu.pc = 7)
    (hword : m.bus.mem 7 = wordI .lw 0 1 2) (hbase : m.cpu.regs 1 = ioBase) :
    let t := cpuStep m
    t.cpu.halted = false ∧ t.cpu.pc = 8 ∧ t.cpu.regs 0 = (m.bus.clock m.bus.ticks).setWidth 16 ∧
    t.bus = { m.bus with ticks := m.bus.ticks + 1 } := by
  intro t
  have hfetched : fetched m = wordI .lw 0 1 2 := by
    rw [fetched, hpc, memRead_of_lt (by decide), hword]
  have hbus : (fetch m).bus = m.bus := by
    show (memRead m.bus m.cpu.pc).2 = m.bus
    rw [hpc, memRead_of_lt (by decide)]
  have hop : opcodeOf (fetched m) = some .lw := by
    rw [hfetched, opcodeOf_wordI]
  have haddr : (fetch m).cpu.regs (rs1Of (wordI .lw 0 1 2)) + instrImm5 (wordI .lw 0 1 2) =
      ioTimer := by
    rw [rs1Of_wordI, instrImm5_wordI, fetch_regs, hbase]
    decide
  have hstep : t = { cpu := (fetch m).cpu.setReg 0 ((m.bus.clock m.bus.ticks).setWidth 16),
                     bus := { m.bus with ticks := m.bus.ticks + 1 } } := by
    show cpuStep m = _
    rw [cpuStep_of_opcode hrun hop, hfetched]
    simp only [execute, Opcode.ofCode?_code, haddr, hbus]
    rfl
  rw [hstep]
  refine ⟨hrun, ?_, Function.update_self (f := m.cpu.regs) 0 _, rfl⟩
  show m.cpu.pc + 1 = 8
  rw [hpc]
  rfl

/-- **The timer example, on any clock.** Wherever the code is in memory, and whatever else is, the
run halts after 16 instructions. It has asked the clock once, and the word at 0x0200 is what the
clock said plus 42; no other word has changed, nothing is printed and no input is read. -/
theorem timer_stores {mem : Word → Word} (hcode : InMemory timerExample mem) (cpu : CPU)
    (stdin : Bytes) (clock : Nat → BitVec 64) :
    let m := bootMachine cpu mem stdin clock
    EndsAfter .plain m 16 ∧
    let bus := (machineAt .plain m 16).bus
    bus.mem = Function.update mem 0x200 ((clock 0).setWidth 16 + 42) ∧ bus.ticks = 1 ∧
      bus.stdout = [] ∧ bus.stdin = stdin := by
  intro m
  have hwords : CodeAt (core m).mem 0 timerWords := codeAt_of_inMemory emitted_timerExample hcode
  obtain ⟨c, hsetup, hcrun, hcpc, hcmem, hcout, hcbase⟩ := timer_setup hwords rfl rfl
  obtain ⟨rfl, hin⟩ := core_of_leads hsetup
  have hmem : (cpuStep^[7] m).bus.mem = mem := hcmem
  have hticks : (cpuStep^[7] m).bus.ticks = 0 := ticks_of_leads hsetup
  have hclock : (cpuStep^[7] m).bus.clock = clock := by
    rw [← machineAt_plain]
    exact (machineAt_later .plain m 7).clock
  -- The LW.
  obtain ⟨hlrun, hlpc, hlreg, hlbus⟩ := timer_load hcrun hcpc (hmem ▸ hwords 7 _ rfl) hcbase
  rw [hticks, hclock] at hlreg
  have hlmem : (cpuStep (cpuStep^[7] m)).bus.mem = mem := by
    rw [hlbus, hmem]
  have hlwords : CodeAt (core (cpuStep (cpuStep^[7] m))).mem 0 timerWords :=
    (congrArg (CodeAt · 0 timerWords) hlmem).mpr hwords
  -- The rest.
  obtain ⟨t, hrest, hthalted, htmem, htout⟩ := timer_sum hlwords hlrun hlpc
  obtain ⟨rfl, htin⟩ := core_of_leads hrest
  have hrun : ∀ k, cpuStep^[k + 8] m = cpuStep^[k] (cpuStep (cpuStep^[7] m)) := by
    intro k
    rw [Function.iterate_add_apply, Function.iterate_succ_apply']
  simp only [EndsAfter, machineAt_plain]
  refine ⟨⟨?_, ?_⟩, ?_, ?_, ?_, ?_⟩
  · intro k hk
    rcases Nat.lt_trichotomy k 7 with hlt | rfl | hgt
    · exact running_of_leads hsetup k hlt
    · exact hcrun
    · obtain ⟨j, rfl⟩ := Nat.exists_eq_add_of_le' (Nat.succ_le_of_lt hgt)
      rw [hrun]
      exact running_of_leads hrest j (by omega)
  · rw [hrun 8]
    exact hthalted
  · rw [hrun 8]
    have hreg : (core (cpuStep (cpuStep^[7] m))).regs 0 = (clock 0).setWidth 16 := hlreg
    rw [hreg] at htmem
    exact htmem.trans (congrArg (Function.update · 0x200 _) hlmem)
  · rw [hrun 8, ticks_of_leads hrest, hlbus, hticks]
  · rw [hrun 8]
    exact htout.trans ((congrArg Bus.stdout hlbus).trans hcout)
  · rw [hrun 8, htin, hlbus, hin]
    rfl

/-- A clock that wraps the sum around. -/
theorem timer_stores_wrap :
    let m := bootMachine ⟨fun _ => 0, 0, 0, 0, 0, false⟩ (fun a => timerWords.getD a.toNat 0) []
      fun _ => 0xFFFFF
    EndsAfter .plain m 16 ∧
    let bus := (machineAt .plain m 16).bus
    bus.mem = Function.update (fun a => timerWords.getD a.toNat 0) 0x200 41 ∧ bus.ticks = 1 ∧
      bus.stdout = [] ∧ bus.stdin = [] :=
  timer_stores (inMemory_of_all emitted_timerExample (by decide +kernel)) _ _ _

end Proof
end EduCpu16
