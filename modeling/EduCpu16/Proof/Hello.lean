import EduCpu16.Proof.Programs

/-!
# `hello.asm` prints its table

Whatever words are at the table, up to a zero, the program prints the low byte of each and halts
(`hello_prints`). The table is not that of the source file: any words may stand there, and any other
memory around them, as long as the code is in place and the table ends below the device page.

Before the turn `i` of its loop the pointer is at the word `i` and the words before it are printed
(`Printing`). A turn is a test and, unless the word is zero, a store to the output port
(`hello_test`, `hello_print`); the turn that finds the zero goes to the HALT.
-/

namespace EduCpu16
namespace Proof

open CLib BitFields Source CountedRun Proof.Core

/-- The words of a table that ends in a zero, below the MMIO page. That the words before the zero
are not zero makes the table unique: the program cannot know of any behind it. -/
structure TableAt (mem : Word → Word) (ws : List Word) : Prop where
  words : ∀ i w, ws[i]? = some w → mem (BitVec.ofNat 16 (0x100 + i)) = w
  nonzero : ∀ w ∈ ws, w ≠ 0
  zero : mem (BitVec.ofNat 16 (0x100 + ws.length)) = 0
  below : 0x100 + ws.length < 0xFF00

/-- Before the turn `i`. The registers are those the loop reads, the memory is untouched, and the
output is the part of the table that is done. -/
structure Printing (mem : Word → Word) (ws : List Word) (i : Nat) (c : Core) : Prop where
  running : c.halted = false
  pc : c.pc = 11
  zero : c.regs 0 = 0
  port : c.regs 3 = ioStdout
  pointer : c.regs 4 = BitVec.ofNat 16 (0x100 + i)
  mem : c.mem = mem
  stdout : c.stdout = (ws.take i).map (BitVec.setWidth 8)

section Hello

variable {mem : Word → Word} {ws : List Word}

/-- The instructions before the loop. -/
theorem hello_setup (ws : List Word) {c : Core} (hcode : CodeAt c.mem 0 (helloSetup ++ helloLoop))
    (hrun : c.halted = false) (hpc : c.pc = 0) (hout : c.stdout = []) :
    ∃ t, Leads step NoDevice 11 c t ∧ Printing c.mem ws 0 t := by
  have hstraight : helloSetup.all straight = true := by decide
  have hsetup : CodeAt c.mem 0 helloSetup := hcode.slice 0 11
  have hleads : Leads step NoDevice 11 c (block helloSetup c) :=
    leads_block hstraight hrun hpc (by decide) hsetup
  obtain ⟨hmem, hout', hrun', hpc'⟩ := block_frame hstraight c
  refine ⟨_, hleads, hrun'.trans hrun, ?_, ?_, ?_, ?_, hmem, hout'.trans hout⟩
  · rw [hpc', hpc]
    rfl
  all_goals
    simp only [block, helloSetup, List.foldl_cons, List.foldl_nil, exec_mov, exec_shl,
      exec_add]
    simp [ioStdout]

/-- LW, CMP and JEQ: the word at the pointer, and on to the SW unless it is zero. -/
theorem hello_test {c : Core} (hcode : CodeAt c.mem 0 (helloSetup ++ helloLoop))
    (hrun : c.halted = false) (hpc : c.pc = 11) (hzero : c.regs 0 = 0)
    (hpointer : c.regs 4 < ioBase) :
    ∃ t, Leads step NoDevice 3 c t ∧ t.halted = false ∧
      t.pc = (if c.mem (c.regs 4) = 0 then 17 else 14) ∧
      t.regs = Function.update c.regs 1 (c.mem (c.regs 4)) ∧ t.mem = c.mem ∧
      t.stdout = c.stdout := by
  have hlw : Leads step NoDevice 1 c (c.next.exec (wordI .lw 1 4 0)) := by
    apply leads_load hrun (by rw [hpc]; decide) (hpc ▸ hcode 11 _ rfl)
    intro a ha
    have haddr : c.regs 4 = a := by simpa [loadFrom] using ha
    exact haddr ▸ hpointer
  simp only [exec_lw, next_regs, BitVec.reduceSignExtend, BitVec.add_zero] at hlw
  have hcmp := leads_step (w := wordR .cmp 0 1 0) (c := c.next.load 1 (c.regs 4)) hrun
    (by simp [hpc]; decide) (by simpa [hpc] using hcode 12 _ rfl) (by decide)
  have hdiff : (c.next.load 1 (c.regs 4)).next.exec (wordR .cmp 0 1 0) =
      (c.next.load 1 (c.regs 4)).next.test (c.mem (c.regs 4)) := by
    rw [exec_cmp]
    simp [hzero]
  rw [hdiff] at hcmp
  have hjeq := leads_step (w := wordJ .jeq 3)
    (c := (c.next.load 1 (c.regs 4)).next.test (c.mem (c.regs 4))) hrun
    (by simp [hpc]; decide) (by simpa [hpc] using hcode 13 _ rfl) (by decide)
  rw [exec_jeq] at hjeq
  exact ⟨_, (hlw.trans hcmp).trans hjeq, by simp [hrun, hpc]⟩

/-- SW, ADDI and JMP: the word is printed and the pointer moved. -/
theorem hello_print {c : Core} (hcode : CodeAt c.mem 0 (helloSetup ++ helloLoop))
    (hrun : c.halted = false) (hpc : c.pc = 14) (hport : c.regs 3 = ioStdout) :
    ∃ t, Leads step NoDevice 3 c t ∧ t.halted = false ∧ t.pc = 11 ∧
      t.regs = Function.update c.regs 4 (c.regs 4 + 1) ∧ t.mem = c.mem ∧
      t.stdout = c.stdout ++ [(c.regs 1).setWidth 8] := by
  have hsw := leads_step (w := wordI .sw 1 3 0) hrun (by rw [hpc]; decide) (hpc ▸ hcode 14 _ rfl)
    (by decide)
  have hprint : c.next.exec (wordI .sw 1 3 0) =
      { c.next with stdout := c.stdout ++ [(c.regs 1).setWidth 8] } := by
    simp only [exec_sw, next_regs, BitVec.reduceSignExtend, BitVec.add_zero, hport, store_port]
    rfl
  rw [hprint] at hsw
  have haddi := leads_step (w := wordI .addi 4 4 1)
    (c := { c.next with stdout := c.stdout ++ [(c.regs 1).setWidth 8] }) hrun
    (by simp [hpc]; decide) (by simpa [hpc] using hcode 15 _ rfl) (by decide)
  rw [exec_addi] at haddi
  have hjmp := leads_step (w := wordJ .jmp (-6))
    (c := ({ c.next with stdout := c.stdout ++ [(c.regs 1).setWidth 8] } : Core).next.result 4
      (c.regs 4 + 1)) hrun
    (by simp [hpc]; decide) (by simpa [hpc] using hcode 16 _ rfl) (by decide)
  rw [exec_jmp] at hjmp
  exact ⟨_, (hsw.trans haddi).trans hjmp, by simp [hrun, hpc]⟩

/-- The pointer stays below the page. -/
theorem TableAt.pointer_lt (htable : TableAt mem ws) {i : Nat} (hi : i ≤ ws.length) :
    BitVec.ofNat 16 (0x100 + i) < ioBase := by
  have hbelow := htable.below
  rw [BitVec.lt_def, toNat_ofNat_of_lt (by omega)]
  exact Nat.lt_of_le_of_lt (Nat.add_le_add_left hi 0x100) hbelow

/-- A turn. -/
theorem hello_turn (hcode : CodeAt mem 0 (helloSetup ++ helloLoop)) (htable : TableAt mem ws)
    {i : Nat} (hi : i < ws.length) {c : Core} (h : Printing mem ws i c) :
    ∃ t, Leads step NoDevice 6 c t ∧ Printing mem ws (i + 1) t := by
  obtain ⟨hrun, hpc, hzero, hport, hpointer, rfl, hout⟩ := h
  have hlt : c.regs 4 < ioBase := hpointer ▸ htable.pointer_lt (Nat.le_of_lt hi)
  have hword : c.mem (c.regs 4) = ws[i] := by
    rw [hpointer]
    exact htable.words i _ (List.getElem?_eq_getElem hi)
  obtain ⟨t, htest, htrun, htpc, htregs, htmem, htout⟩ := hello_test hcode hrun hpc hzero hlt
  rw [hword, if_neg (htable.nonzero _ (List.getElem_mem hi))] at htpc
  rw [hword] at htregs
  obtain ⟨u, hprint, hurun, hupc, huregs, humem, huout⟩ :=
    hello_print (htmem ▸ hcode) htrun htpc (by rw [htregs]; exact hport)
  rw [htregs] at huregs huout
  refine ⟨u, htest.trans hprint, hurun, hupc, ?_, ?_, ?_, humem.trans htmem, ?_⟩
  · rw [huregs]
    exact hzero
  · rw [huregs]
    exact hport
  · have hnext : c.regs 4 + 1 = BitVec.ofNat 16 (0x100 + (i + 1)) := by
      rw [hpointer, ← Nat.add_assoc, BitVec.ofNat_add _ 1]
      rfl
    rw [huregs, ← hnext]
    rfl
  · rw [huout, htout, hout, List.take_succ_eq_append_getElem hi, List.map_append]
    rfl

/-- Up to the HALT. -/
theorem hello_end {c : Core} (hcode : CodeAt c.mem 0 (helloSetup ++ helloLoop))
    (htable : TableAt c.mem ws) (hrun : c.halted = false) (hpc : c.pc = 0)
    (hout : c.stdout = []) :
    ∃ t, Leads step NoDevice (11 + 6 * ws.length + 3) c t ∧ t.halted = false ∧ t.pc = 17 ∧
      t.mem = c.mem ∧ t.stdout = ws.map (BitVec.setWidth 8) := by
  obtain ⟨s, hsetup, hstart⟩ := hello_setup ws hcode hrun hpc hout
  obtain ⟨t, hloop, hend⟩ := Leads.loop (I := Printing c.mem ws)
    (fun i hi _ h => hello_turn hcode htable hi h) hstart
  obtain ⟨htrun, htpc, htzero, -, htpointer, htmem, htout⟩ := hend
  have hlt : t.regs 4 < ioBase := htpointer ▸ htable.pointer_lt (Nat.le_refl _)
  obtain ⟨u, htest, hurun, hupc, -, humem, huout⟩ :=
    hello_test (htmem ▸ hcode) htrun htpc htzero hlt
  have hzero : t.mem (t.regs 4) = 0 := by
    rw [htmem, htpointer]
    exact htable.zero
  rw [if_pos hzero] at hupc
  refine ⟨u, (hsetup.trans hloop).trans htest, hurun, hupc, humem.trans htmem, ?_⟩
  rw [huout, htout, List.take_length]

/-- The run from the first instruction to the HALT. -/
theorem hello_run {c : Core} (hcode : CodeAt c.mem 0 (helloSetup ++ helloLoop))
    (htable : TableAt c.mem ws) (hrun : c.halted = false) (hpc : c.pc = 0)
    (hout : c.stdout = []) :
    ∃ t, Leads step NoDevice (11 + 6 * ws.length + 3 + 1) c t ∧ t.halted = true ∧
      t.mem = c.mem ∧ t.stdout = ws.map (BitVec.setWidth 8) := by
  obtain ⟨u, hend, hurun, hupc, humem, huout⟩ := hello_end hcode htable hrun hpc hout
  have hhalt := leads_step (w := wordJ .halt 0) hurun (by rw [hupc]; decide)
    (by rw [hupc, humem]; exact hcode 17 _ rfl) (by decide)
  rw [exec_halt] at hhalt
  exact ⟨_, hend.trans hhalt, rfl, humem, huout⟩

end Hello

/-- **The program prints its table**, changes no memory and reads no input. The CPU before the
reset, the input and the clock are arbitrary, and so is the memory but for the code and the table.
-/
theorem hello_prints {mem : Word → Word} {ws : List Word} (hcode : InMemory helloCode mem)
    (htable : TableAt mem ws) (cpu : CPU) (stdin : Bytes) (clock : Nat → BitVec 64) :
    ∃ n, EndsAfter .plain (bootMachine cpu mem stdin clock) n ∧
      let bus := (machineAt .plain (bootMachine cpu mem stdin clock) n).bus
      bus.stdout = ws.map (BitVec.setWidth 8) ∧ bus.mem = mem ∧ bus.stdin = stdin := by
  have hwords : CodeAt (core (bootMachine cpu mem stdin clock)).mem 0 (helloSetup ++ helloLoop) :=
    codeAt_of_inMemory emitted_helloCode hcode
  obtain ⟨t, hrun, hhalted, hmem, hout⟩ := hello_run hwords htable rfl rfl rfl
  obtain ⟨hcore, hin⟩ := core_of_leads hrun
  have hrunning := running_of_leads hrun
  rw [← hcore] at hhalted hmem hout
  simp only [EndsAfter, machineAt_plain]
  exact ⟨_, ⟨hrunning, hhalted⟩, hout, hmem, hin⟩

/-- The table of `hello.asm`. -/
def greeting : List Word :=
  [72, 101, 108, 108, 111, 44, 32, 87, 111, 114, 108, 100, 33, 10]

def greetingMem : Word → Word := fun a =>
  if a < 0x100 then (helloSetup ++ helloLoop).getD a.toNat 0 else greeting.getD (a - 0x100).toNat 0

theorem greeting_tableAt : TableAt greetingMem greeting where
  words := by
    have hall : ∀ i < greeting.length,
        greetingMem (BitVec.ofNat 16 (0x100 + i)) = greeting.getD i 0 := by decide +kernel
    intro i w hw
    obtain ⟨hlt, -⟩ := List.getElem?_eq_some_iff.mp hw
    rw [hall i hlt, List.getD_eq_getElem?_getD, hw]
    rfl
  nonzero := by simp [greeting]
  zero := by decide +kernel
  below := by decide

theorem hello_prints_greeting : ∃ n,
    EndsAfter .plain (bootMachine ⟨fun _ => 0, 0, 0, 0, 0, false⟩ greetingMem [] fun _ => 0) n ∧
    let bus := (machineAt .plain
      (bootMachine ⟨fun _ => 0, 0, 0, 0, 0, false⟩ greetingMem [] fun _ => 0) n).bus
    bus.stdout = ascii "Hello, World!" ++ [10] ∧ bus.mem = greetingMem ∧ bus.stdin = [] := by
  have hmem : InMemory helloCode greetingMem :=
    inMemory_of_all emitted_helloCode (by decide +kernel)
  have htext : greeting.map (BitVec.setWidth 8) = ascii "Hello, World!" ++ [10] := by decide
  rw [← htext]
  exact hello_prints hmem greeting_tableAt _ [] _

end Proof
end EduCpu16
