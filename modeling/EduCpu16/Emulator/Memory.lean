import EduCpu16.Isa
import Mathlib.Logic.Function.Basic

/-!
# `memory.c` — memory and memory-mapped I/O

The static array `mem` and the devices behind the MMIO page are one record, `Bus`. The standard
input is the list of bytes still to be read, empty at end of file; `clock` is the sequence of
values successive calls of `clock()` return and `ticks` the number of calls made.
-/

namespace EduCpu16

open CLib

structure Bus where
  mem : Word → Word
  stdin : Bytes
  clock : Nat → BitVec 64
  ticks : Nat
  stdout : Bytes
  /-- The opcode and address of each "illegal instruction" message, oldest first. -/
  stderr : List (Byte × Word)

/-- Reading `IO_STDIN` and `IO_TIMER` consumes from the device; any other address is plain
memory. -/
def memRead (bus : Bus) (addr : Word) : Word × Bus :=
  if addr = ioStdin then
    match bus.stdin with
    | [] => (0, bus)
    | c :: rest => (c.setWidth 16, { bus with stdin := rest })
  else if addr = ioTimer then
    ((bus.clock bus.ticks).setWidth 16, { bus with ticks := bus.ticks + 1 })
  else (bus.mem addr, bus)

/-- A write to `IO_STDOUT` prints the low byte; other writes to the MMIO page are ignored. -/
def memWrite (bus : Bus) (addr val : Word) : Bus :=
  if addr = ioStdout then { bus with stdout := bus.stdout ++ [(val &&& 0x00FF).setWidth 8] }
  else if ioBase ≤ addr then bus
  else { bus with mem := Function.update bus.mem addr val }

/-- The loop over the 16-bit counter `i` below the 16-bit `len`. -/
def memLoad (mem : Word → Word) (program : List Word) (len base : Word) : Word → Word :=
  (List.range len.toNat).foldl
    (fun m i => Function.update m (base + BitVec.ofNat 16 i) (program.getD i 0)) mem

/-! ## Plain memory -/

theorem memRead_of_lt {bus : Bus} {addr : Word} (h : addr < ioBase) :
    memRead bus addr = (bus.mem addr, bus) := by
  have hin : addr ≠ ioStdin := by rintro rfl; exact absurd h (by decide)
  have htm : addr ≠ ioTimer := by rintro rfl; exact absurd h (by decide)
  simp [memRead, hin, htm]

theorem memWrite_of_lt {bus : Bus} {addr : Word} (h : addr < ioBase) (val : Word) :
    memWrite bus addr val = { bus with mem := Function.update bus.mem addr val } := by
  have hout : addr ≠ ioStdout := by rintro rfl; exact absurd h (by decide)
  simp [memWrite, hout, BitVec.not_le.mpr h]

@[simp] theorem memRead_mem (bus : Bus) (addr : Word) : (memRead bus addr).2.mem = bus.mem := by
  unfold memRead
  split
  · split <;> rfl
  · split <;> rfl

@[simp] theorem memRead_stdout (bus : Bus) (addr : Word) :
    (memRead bus addr).2.stdout = bus.stdout := by
  unfold memRead
  split
  · split <;> rfl
  · split <;> rfl

/-- A store changes memory at its address only, and there only below the MMIO page. -/
theorem memWrite_mem (bus : Bus) (addr val a : Word) :
    (memWrite bus addr val).mem a = if a = addr ∧ a < ioBase then val else bus.mem a := by
  by_cases hlt : addr < ioBase
  · rw [memWrite_of_lt hlt]
    by_cases ha : a = addr
    · simp [ha, hlt]
    · simp [ha]
  · have hmem : (memWrite bus addr val).mem = bus.mem := by
      unfold memWrite
      split
      · rfl
      · rw [if_pos (BitVec.not_lt.mp hlt)]
    have hno : ¬ (a = addr ∧ a < ioBase) := by rintro ⟨rfl, h⟩; exact hlt h
    rw [hmem, if_neg hno]

end EduCpu16
