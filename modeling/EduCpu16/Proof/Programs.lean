import EduCpu16.Proof.Core
import EduCpu16.Proof.Encoder
import EduCpu16.Proof.Pass2
import EduCpu16.Source.Programs

/-!
# The sample programs as machine code

The words the two programs assemble to (`emitted_helloCode`, `emitted_fibonacci`), and what each of
the instructions their loops consist of does to a core.

A word is written by its fields (`wordR`, `wordI`, `wordJ`), so that a program reads like its source
and one lemma for each operation, over all fields, does for every place it occurs in. The assembler
itself is run on the source text, which shows that these are its words.
-/

namespace EduCpu16
namespace Proof

open CLib BitFields Source

/-- What the source assembles to is in memory. -/
def InMemory (lines : List Bytes) (mem : Word → Word) : Prop :=
  ∀ s ∈ emitted {} lines, mem s.1 = s.2

/-- It can be seen to be there. -/
theorem inMemory_of_all {lines : List Bytes} {mem : Word → Word} {stores : List (Word × Word)}
    (hemitted : emitted {} lines = stores) (hall : stores.all (fun s => mem s.1 == s.2) = true) :
    InMemory lines mem := by
  intro s hs
  rw [hemitted] at hs
  exact eq_of_beq (List.all_eq_true.mp hall s hs)

theorem codeAt_of_inMemory {lines : List Bytes} {mem : Word → Word} {ws : List Word}
    (hemitted : emitted {} lines = (wordsFrom 0 ws.length).zip ws) (h : InMemory lines mem) :
    CodeAt mem 0 ws := by
  intro i w hi
  obtain ⟨hlt, -⟩ := List.getElem?_eq_some_iff.mp hi
  have haddr : (wordsFrom 0 ws.length)[i]? = some (BitVec.ofNat 16 i) := by
    simp [wordsFrom, hlt]
  have hmem := h (BitVec.ofNat 16 i, w)
  rw [hemitted] at hmem
  rw [Nat.zero_add]
  exact hmem (List.mem_of_getElem? (List.getElem?_zip_eq_some.mpr ⟨haddr, hi⟩))

/-! ## Words by their fields -/

/-- The word of an operation on registers. -/
def wordR (o : Opcode) (d s t : Fin 8) : Word :=
  BitVec.ofNat 16 (o.code.toNat * 2048 + d * 256 + s * 32 + t * 4)

/-- The word of an operation with a constant of five bits. -/
def wordI (o : Opcode) (d s : Fin 8) (v : BitVec 5) : Word :=
  BitVec.ofNat 16 (o.code.toNat * 2048 + d * 256 + s * 32 + v.toNat)

/-- The word of a jump by an offset of eleven bits. -/
def wordJ (o : Opcode) (off : BitVec 11) : Word := BitVec.ofNat 16 (o.code.toNat * 2048 + off.toNat)

theorem regIx_eq {r : Word} {d : Fin 8} (h : r.toNat = d) : regIx (r.setWidth 8) = d := by
  have hd := d.isLt
  apply Fin.ext
  rw [regIx, BitVec.toNat_setWidth, h]
  show d.val % 2 ^ 8 % 8 = d.val
  omega

section Fields

variable (o : Opcode) (d s t : Fin 8) (v : BitVec 5) (off : BitVec 11)

theorem opcode_lt : o.code.toNat < 32 := by
  cases o
  all_goals decide

theorem wordR_toNat : (wordR o d s t).toNat = o.code.toNat * 2048 + d * 256 + s * 32 + t * 4 := by
  have ho := opcode_lt o
  exact toNat_ofNat_of_lt (by omega)

theorem wordI_toNat : (wordI o d s v).toNat = o.code.toNat * 2048 + d * 256 + s * 32 + v.toNat := by
  have ho := opcode_lt o
  exact toNat_ofNat_of_lt (by omega)

theorem wordJ_toNat : (wordJ o off).toNat = o.code.toNat * 2048 + off.toNat := by
  have ho := opcode_lt o
  exact toNat_ofNat_of_lt (by omega)

theorem opcodeOf_eq {w : Word} (h : w.toNat / 2048 = o.code.toNat) : opcodeOf w = some o := by
  have ho := opcode_lt o
  have hcode : (instrOpcode w).setWidth 8 = o.code :=
    setWidth_eq_of_toNat_eq (by rw [instrOpcode_toNat]; omega)
  rw [opcodeOf, hcode, Opcode.ofCode?_code]

@[simp] theorem opcodeOf_wordR : opcodeOf (wordR o d s t) = some o :=
  opcodeOf_eq o (by rw [wordR_toNat]; omega)

@[simp] theorem rdOf_wordR : rdOf (wordR o d s t) = d :=
  regIx_eq (by rw [instrRd_toNat, wordR_toNat]; omega)

@[simp] theorem rs1Of_wordR : rs1Of (wordR o d s t) = s :=
  regIx_eq (by rw [instrRs1_toNat, wordR_toNat]; omega)

@[simp] theorem rs2Of_wordR : rs2Of (wordR o d s t) = t :=
  regIx_eq (by rw [instrRs2_toNat, wordR_toNat]; omega)

@[simp] theorem opcodeOf_wordI : opcodeOf (wordI o d s v) = some o :=
  opcodeOf_eq o (by rw [wordI_toNat]; omega)

@[simp] theorem rdOf_wordI : rdOf (wordI o d s v) = d :=
  regIx_eq (by rw [instrRd_toNat, wordI_toNat]; omega)

@[simp] theorem rs1Of_wordI : rs1Of (wordI o d s v) = s :=
  regIx_eq (by rw [instrRs1_toNat, wordI_toNat]; omega)

@[simp] theorem instrImm5_wordI : instrImm5 (wordI o d s v) = v.signExtend 16 := by
  apply BitVec.eq_of_toInt_eq
  rw [instrImm5_toInt, wordI_toNat, BitVec.toInt_signExtend_of_le (by decide),
    BitVec.toInt_eq_toNat_bmod]
  rw [Int.bmod_def, Int.bmod_def]
  omega

@[simp] theorem opcodeOf_wordJ : opcodeOf (wordJ o off) = some o :=
  opcodeOf_eq o (by rw [wordJ_toNat]; omega)

@[simp] theorem instrOffset_wordJ : instrOffset (wordJ o off) = off.signExtend 16 := by
  apply BitVec.eq_of_toInt_eq
  rw [instrOffset_toInt, wordJ_toNat, BitVec.toInt_signExtend_of_le (by decide),
    BitVec.toInt_eq_toNat_bmod]
  rw [Int.bmod_def, Int.bmod_def]
  omega

end Fields

/-! ## The instructions

One lemma for each mnemonic that the programs use, over its fields. What they do to a core is the
definition of `exec` at these fields. -/

section Instructions

variable (c : Core) (d s t : Fin 8) (v : BitVec 5) (off : BitVec 11)

theorem exec_add : c.exec (wordR .add d s t) = c.result d (c.regs s + c.regs t) := by
  simp [Core.exec]

theorem exec_shl : c.exec (wordR .shl d s t) =
    c.result d (c.regs s <<< ((c.regs t).toNat % 16)) := by
  simp [Core.exec]

theorem exec_cmp : c.exec (wordR .cmp d s t) = c.test (c.regs s - c.regs t) := by
  simp [Core.exec]

theorem exec_mov : c.exec (wordI .mov d s v) = c.result d (v.signExtend 16) := by
  simp [Core.exec]

theorem exec_addi : c.exec (wordI .addi d s v) = c.result d (c.regs s + v.signExtend 16) := by
  simp [Core.exec]

theorem exec_lw : c.exec (wordI .lw d s v) = c.load d (c.regs s + v.signExtend 16) := by
  simp [Core.exec]

theorem exec_sw : c.exec (wordI .sw d s v) = c.store (c.regs s + v.signExtend 16) (c.regs d) := by
  simp [Core.exec]

theorem exec_jmp : c.exec (wordJ .jmp off) = c.jump true (off.signExtend 16) := by
  simp [Core.exec]

theorem exec_jeq : c.exec (wordJ .jeq off) = c.jump c.zf (off.signExtend 16) := by
  simp [Core.exec]

theorem exec_jne : c.exec (wordJ .jne off) = c.jump (!c.zf) (off.signExtend 16) := by
  simp [Core.exec]

theorem exec_halt : c.exec (wordJ .halt off) = { c with halted := true } := by
  simp [Core.exec]

end Instructions

/-! ## The words -/

/-- R0 is zero, R3 the output port and R4 the table. -/
def helloSetup : List Word := [
  wordI .mov 0 0 0, wordI .mov 3 0 15, wordI .mov 2 0 4, wordR .shl 3 3 2, wordI .mov 2 0 15,
  wordR .add 3 3 2, wordI .mov 2 0 8, wordR .shl 3 3 2, wordI .mov 4 0 1, wordI .mov 2 0 8,
  wordR .shl 4 4 2]

def helloLoop : List Word := [
  wordI .lw 1 4 0, wordR .cmp 0 1 0, wordJ .jeq 3, wordI .sw 1 3 0, wordI .addi 4 4 1,
  wordJ .jmp (-6), wordJ .halt 0]

def fibonacciSetup : List Word := [
  wordI .mov 0 0 0, wordI .mov 1 0 0, wordI .mov 2 0 1, wordI .mov 5 0 10, wordI .mov 4 0 3,
  wordI .mov 6 0 8, wordR .shl 4 4 6]

/-- The terms, the pointer and the counter, between the SW and the JNE. -/
def fibonacciTurn : List Word := [
  wordI .addi 4 4 1, wordR .add 3 1 2, wordR .add 1 2 0, wordR .add 2 3 0, wordI .addi 5 5 (-1),
  wordR .cmp 0 5 0]

def fibonacciWords : List Word :=
  fibonacciSetup ++ wordI .sw 1 4 0 :: fibonacciTurn ++ [wordJ .jne (-8), wordJ .halt 0]

theorem emitted_helloCode : emitted {} helloCode =
    (wordsFrom 0 18).zip (helloSetup ++ helloLoop) := by
  decide +kernel

theorem emitted_fibonacci : emitted {} fibonacci = (wordsFrom 0 16).zip fibonacciWords := by
  decide +kernel

end Proof
end EduCpu16
