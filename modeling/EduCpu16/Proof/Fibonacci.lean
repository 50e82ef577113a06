import EduCpu16.Proof.Assembly
import EduCpu16.Proof.Programs

/-!
# The loop of `fibonacci.asm`

From `LOOP` the program stores the terms of the sequence that its two registers begin, as many as
its counter says, and halts after eight steps a term and one (`fibonacci_terms`). Nothing is assumed
of the state but the five registers that the loop uses, that the program is in memory, and that the
terms go to memory behind it and below the device page.

Before the turn `i` the terms below `i` are stored and the two after them are in the registers
(`Emitting`). The terms are natural numbers and the registers hold them modulo `2 ^ 16`, so the loop
stays right when the sequence no longer fits. A turn is a store, six instructions of straight code
and a jump (`fibonacci_body`), and the library's loop rule puts the turns together.
-/

namespace EduCpu16
namespace Proof

open CLib BitFields Source CountedRun Proof.Core

/-- The sequence that begins with `x` and `y`. -/
def term (x y : Nat) : Nat → Nat
  | 0 => x
  | 1 => y
  | i + 2 => term x y i + term x y (i + 1)

/-- The memory with the first `i` terms at `p`. -/
def withTerms (mem : Word → Word) (x y p i : Nat) : Word → Word := fun a =>
  if p ≤ a.toNat ∧ a.toNat < p + i then BitVec.ofNat 16 (term x y (a.toNat - p)) else mem a

section Memory

variable {mem : Word → Word} {x y p i : Nat}

theorem withTerms_zero : withTerms mem x y p 0 = mem := by
  funext a
  exact if_neg fun h => absurd (Nat.lt_of_le_of_lt h.1 h.2) (Nat.lt_irrefl p)

/-- One more term. -/
theorem withTerms_succ (h : p + i < 65536) : Function.update (withTerms mem x y p i)
    (BitVec.ofNat 16 (p + i)) (BitVec.ofNat 16 (term x y i)) = withTerms mem x y p (i + 1) := by
  have htop : (BitVec.ofNat 16 (p + i)).toNat = p + i := toNat_ofNat_of_lt h
  funext a
  by_cases ha : a = BitVec.ofNat 16 (p + i)
  · subst ha
    rw [Function.update_self, withTerms, htop, if_pos ⟨by omega, by omega⟩, Nat.add_sub_cancel_left]
  · have hne : a.toNat ≠ p + i := fun heq => ha (BitVec.eq_of_toNat_eq (heq.trans htop.symm))
    rw [Function.update_of_ne ha, withTerms, withTerms]
    have hiff : (p ≤ a.toNat ∧ a.toNat < p + i) ↔ (p ≤ a.toNat ∧ a.toNat < p + (i + 1)) := by
      omega
    simp only [hiff]

/-- The terms are behind the program. -/
theorem withTerms_code (hp : 16 ≤ p) (h : CodeAt mem 0 fibonacciWords) :
    CodeAt (withTerms mem x y p i) 0 fibonacciWords := by
  intro j w hj
  obtain ⟨hlt, -⟩ := List.getElem?_eq_some_iff.mp hj
  have hlt : j < 16 := hlt
  have haddr : (BitVec.ofNat 16 (0 + j)).toNat < 16 := by
    rw [Nat.zero_add, BitVec.toNat_ofNat]
    exact Nat.lt_of_le_of_lt (Nat.mod_le _ _) hlt
  rw [withTerms, if_neg (by omega)]
  exact h j w hj

end Memory

/-- Before the turn `i` of `n`. After the last turn the JNE is not taken, which is why `pc` depends
on `i`; the registers and the memory do not care. -/
structure Emitting (mem : Word → Word) (x y p n i : Nat) (c : Core) : Prop where
  running : c.halted = false
  pc : c.pc = if i < n then 7 else 15
  zero : c.regs 0 = 0
  this : c.regs 1 = BitVec.ofNat 16 (term x y i)
  after : c.regs 2 = BitVec.ofNat 16 (term x y (i + 1))
  pointer : c.regs 4 = BitVec.ofNat 16 (p + i)
  count : c.regs 5 = BitVec.ofNat 16 (n - i)
  mem : c.mem = withTerms mem x y p i

/-- The six instructions between the SW and the JNE. -/
theorem fibonacci_slide {c : Core} (hcode : CodeAt c.mem 0 fibonacciWords)
    (hrun : c.halted = false) (hpc : c.pc = 8) (hzero : c.regs 0 = 0) :
    ∃ t, Leads step NoDevice 6 c t ∧ t.halted = false ∧ t.pc = 14 ∧ t.mem = c.mem ∧
      t.regs 0 = 0 ∧ t.regs 1 = c.regs 2 ∧ t.regs 2 = c.regs 1 + c.regs 2 ∧
      t.regs 4 = c.regs 4 + 1 ∧ t.regs 5 = c.regs 5 + 0xFFFF ∧
      t.zf = decide (c.regs 5 + 0xFFFF = 0) := by
  have hstraight : fibonacciTurn.all straight = true := by decide
  have hturn : CodeAt c.mem 8 fibonacciTurn := hcode.slice 8 6
  obtain ⟨hmem, -, hhalted, hend⟩ := block_frame hstraight c
  refine ⟨_, leads_block hstraight hrun hpc (by decide) hturn, hhalted.trans hrun, ?_, hmem, ?_⟩
  · rw [hend, hpc]
    rfl
  · simp only [block, fibonacciTurn, List.foldl_cons, List.foldl_nil, exec_addi, exec_add,
      exec_cmp]
    simp [hzero]

/-- The turn as machine code: a store, straight code and a jump. -/
theorem fibonacci_body {c : Core} (hcode : CodeAt c.mem 0 fibonacciWords)
    (hrun : c.halted = false) (hpc : c.pc = 7) (hzero : c.regs 0 = 0) (hlt : c.regs 4 < ioBase)
    (hkept : CodeAt (Function.update c.mem (c.regs 4) (c.regs 1)) 0 fibonacciWords) :
    ∃ t, Leads step NoDevice 8 c t ∧ t.halted = false ∧
      t.pc = (if c.regs 5 + 0xFFFF = 0 then 15 else 7) ∧
      t.regs 0 = 0 ∧ t.regs 1 = c.regs 2 ∧ t.regs 2 = c.regs 1 + c.regs 2 ∧
      t.regs 4 = c.regs 4 + 1 ∧ t.regs 5 = c.regs 5 + 0xFFFF ∧
      t.mem = Function.update c.mem (c.regs 4) (c.regs 1) := by
  have hsw := leads_step (w := wordI .sw 1 4 0) hrun (by rw [hpc]; decide) (hpc ▸ hcode 7 _ rfl)
    (by decide)
  simp only [exec_sw, next_regs, BitVec.reduceSignExtend, BitVec.add_zero] at hsw
  rw [store_memory _ _ _ hlt] at hsw
  obtain ⟨t, hslide, htrun, htpc, htmem, h0, h1, h2, h4, h5, hzf⟩ := fibonacci_slide
    (c := { c.next with mem := Function.update c.mem (c.regs 4) (c.regs 1) }) hkept hrun
    (by rw [next_pc, hpc]; rfl) hzero
  have hjne := leads_step (w := wordJ .jne (-8)) htrun (by rw [htpc]; decide)
    (by rw [htpc, htmem]; exact hkept 14 _ rfl) (by decide)
  rw [exec_jne] at hjne
  refine ⟨_, (hsw.trans hslide).trans hjne, ?_⟩
  rw [jump_halted, jump_pc, Core.jump_regs, jump_mem, next_halted, next_regs, next_mem]
  refine ⟨htrun, ?_, h0, h1, h2, h4, h5, htmem⟩
  rw [next_zf, next_pc, htpc, hzf]
  by_cases hlast : c.regs 5 + 0xFFFF = 0
  · rw [if_pos hlast]
    simp only [next_regs, hlast]
    decide
  · rw [if_neg hlast]
    simp only [next_regs, hlast]
    decide

section Fibonacci

variable {mem : Word → Word} {x y p n : Nat} (hcode : CodeAt mem 0 fibonacciWords) (hp : 16 ≤ p)
  (hend : p + n ≤ 0xFF00)
include hcode hp hend

/-- **One turn.** -/
theorem fibonacci_turn {i : Nat} (hi : i < n) {c : Core} (h : Emitting mem x y p n i c) :
    ∃ t, Leads step NoDevice 8 c t ∧ Emitting mem x y p n (i + 1) t := by
  obtain ⟨hrun, hpc, hzero, hthis, hafter, hpointer, hcount, hmem⟩ := h
  rw [if_pos hi] at hpc
  have htop : (BitVec.ofNat 16 (p + i)).toNat = p + i := toNat_ofNat_of_lt (by omega)
  have hlt : c.regs 4 < ioBase := by
    rw [hpointer, BitVec.lt_def, htop]
    exact Nat.lt_of_lt_of_le (Nat.add_lt_add_left hi p) hend
  have hstored : Function.update c.mem (c.regs 4) (c.regs 1) = withTerms mem x y p (i + 1) := by
    rw [hmem, hpointer, hthis, withTerms_succ (by omega)]
  obtain ⟨t, hleads, htrun, htpc, h0, h1, h2, h4, h5, htmem⟩ :=
    fibonacci_body (hmem ▸ withTerms_code hp hcode) hrun hpc hzero hlt
      (hstored ▸ withTerms_code hp hcode)
  have hcount' : c.regs 5 + 0xFFFF = BitVec.ofNat 16 (n - (i + 1)) := by
    rw [hcount]
    apply BitVec.eq_of_toNat_eq
    rw [BitVec.toNat_add, BitVec.toNat_ofNat, BitVec.toNat_ofNat]
    show ((n - i) % 65536 + 65535) % 65536 = (n - (i + 1)) % 65536
    omega
  have hlast : c.regs 5 + 0xFFFF = 0 ↔ ¬ i + 1 < n := by
    rw [hcount', ← BitVec.toNat_inj, BitVec.toNat_ofNat]
    show (n - (i + 1)) % 65536 = 0 ↔ _
    omega
  refine ⟨t, hleads, htrun, ?_, h0, h1.trans hafter, ?_, ?_, h5.trans hcount', htmem.trans hstored⟩
  · rw [htpc]
    simp only [hlast, ite_not]
  · rw [h2, hthis, hafter, ← BitVec.ofNat_add]
    rfl
  · rw [h4, hpointer, ← Nat.add_assoc, BitVec.ofNat_add _ 1]
    rfl

/-- The turns, and the HALT behind them. -/
theorem fibonacci_run {c : Core} (h : Emitting mem x y p n 0 c) :
    ∃ t, Leads step NoDevice (8 * n + 1) c t ∧ t.halted = true ∧
      t.regs 4 = BitVec.ofNat 16 (p + n) ∧ t.regs 5 = 0 ∧ t.mem = withTerms mem x y p n := by
  obtain ⟨t, hloop, ht⟩ := Leads.loop (I := Emitting mem x y p n)
    (fun i hi _ hc => fibonacci_turn hcode hp hend hi hc) h
  obtain ⟨hrun, hpc, -, -, -, hpointer, hcount, hmem⟩ := ht
  rw [if_neg (Nat.lt_irrefl n)] at hpc
  have hhalt := leads_step (w := wordJ .halt 0) hrun (by rw [hpc]; decide)
    (by rw [hpc, hmem]; exact withTerms_code hp hcode 15 _ rfl) (by decide)
  rw [exec_halt] at hhalt
  refine ⟨_, hloop.trans hhalt, rfl, hpointer, ?_, hmem⟩
  rw [Nat.sub_self] at hcount
  exact hcount

end Fibonacci

theorem envOf_loop : envOf (pass1 fibonacci).sym (ascii "LOOP") = some 7 := by decide +kernel

/-- **The loop stores the terms**, from any state it can be entered in. The counter is at least one,
as the loop tests it after the turn, and the terms lie behind the program and below the device page.
The count of the steps is exact, and so is the memory: the terms and nothing else has changed. -/
theorem fibonacci_terms {m : Machine} {p n : Nat} (hcode : InMemory fibonacci m.bus.mem)
    (hrun : m.cpu.halted = false)
    (hpc : envOf (pass1 fibonacci).sym (ascii "LOOP") = some m.cpu.pc)
    (hzero : m.cpu.regs 0 = 0) (hpointer : m.cpu.regs 4 = BitVec.ofNat 16 p)
    (hcount : m.cpu.regs 5 = BitVec.ofNat 16 n) (hn : 1 ≤ n) (hp : 16 ≤ p)
    (hend : p + n ≤ ioBase.toNat) :
    let m' := cpuStep^[8 * n + 1] m
    (∀ k < 8 * n + 1, (cpuStep^[k] m).cpu.halted = false) ∧ m'.cpu.halted = true ∧
    (∀ i < n, m'.bus.mem (BitVec.ofNat 16 (p + i)) =
      BitVec.ofNat 16 (term (m.cpu.regs 1).toNat (m.cpu.regs 2).toNat i)) ∧
    m'.cpu.regs 4 = BitVec.ofNat 16 (p + n) ∧ m'.cpu.regs 5 = 0 ∧
    ∀ a : Word, ¬ (p ≤ a.toNat ∧ a.toNat < p + n) → m'.bus.mem a = m.bus.mem a := by
  have hend : p + n ≤ 0xFF00 := hend
  have hstart : Emitting m.bus.mem (m.cpu.regs 1).toNat (m.cpu.regs 2).toNat p n 0 (core m) := by
    refine ⟨hrun, ?_, hzero, ?_, ?_, hpointer, hcount, withTerms_zero.symm⟩
    · rw [if_pos (Nat.lt_of_lt_of_le Nat.zero_lt_one hn)]
      exact Option.some.inj (hpc.symm.trans envOf_loop)
    · exact (BitVec.ofNat_toNat 16 (m.cpu.regs 1)).symm
    · exact (BitVec.ofNat_toNat 16 (m.cpu.regs 2)).symm
  obtain ⟨t, hleads, hhalted, hpointer', hcount', hmem⟩ :=
    fibonacci_run (codeAt_of_inMemory emitted_fibonacci hcode) hp hend hstart
  obtain ⟨hcore, -⟩ := core_of_leads hleads
  have hrunning := running_of_leads hleads
  rw [← hcore] at hhalted hpointer' hcount' hmem
  intro m'
  have hmem' : m'.bus.mem = _ := hmem
  refine ⟨hrunning, hhalted, ?_, hpointer', hcount', ?_⟩
  · intro i hi
    have htop : (BitVec.ofNat 16 (p + i)).toNat = p + i := toNat_ofNat_of_lt (by omega)
    rw [hmem', withTerms, htop, if_pos ⟨by omega, by omega⟩, Nat.add_sub_cancel_left]
  · intro a ha
    rw [hmem', withTerms, if_neg ha]

/-- The registers with which the program itself comes to its loop. -/
def fibonacciStart : Machine where
  cpu := ⟨fun r => if r = 2 then 1 else if r = 4 then 0x300 else if r = 5 then 10 else 0, 7, 0, 0,
    0, false⟩
  bus := ⟨fun a => fibonacciWords.getD a.toNat 0, [], fun _ => 0, 0, [], []⟩

/-- With them, ten terms of the sequence from 0 and 1. -/
theorem fibonacci_terms_ten :
    let m' := cpuStep^[8 * 10 + 1] fibonacciStart
    m'.cpu.halted = true ∧
    ∀ i < 10, m'.bus.mem (BitVec.ofNat 16 (0x300 + i)) = BitVec.ofNat 16 (term 0 1 i) := by
  have hcode : InMemory fibonacci fibonacciStart.bus.mem :=
    inMemory_of_all emitted_fibonacci (by decide +kernel)
  obtain ⟨-, hhalted, hterms, -⟩ := fibonacci_terms (p := 0x300) (n := 10) hcode rfl envOf_loop rfl
    rfl rfl (by decide) (by decide) (by decide)
  exact ⟨hhalted, hterms⟩

end Proof
end EduCpu16
