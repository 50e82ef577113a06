import EduCpu16.Assembler.Errors
import EduCpu16.Isa

/-!
# `mem_dump`, and the range `main` calls it with

The rows are counted by a 16-bit address, so the loop need not end. It carries fuel, and `none`
is a loop that is still running; what it has printed by then is of no interest here.
-/

namespace EduCpu16

open CLib

/-- `%04X` of a word. -/
def fmt04X (w : Word) : Bytes := hexDigits 4 w.toNat

/-- The columns the inner loop visits. -/
def dumpCols (addr stop : Word) : List Word :=
  ((List.range 8).map (BitVec.ofNat 16)).takeWhile fun col => addr + col < stop

/-- One turn of the outer loop. -/
def dumpRow (mem : Word → Word) (addr stop : Word) : Bytes :=
  fmt04X addr ++ ascii ": " ++
    (dumpCols addr stop).flatMap (fun col => fmt04X (mem (addr + col)) ++ ascii " ") ++ ascii "\n"

/-- The outer loop, with `out` printed so far. -/
def dumpLoop (mem : Word → Word) (stop : Word) : Nat → Word → Bytes → Option Bytes
  | 0, _, _ => none
  | fuel + 1, addr, out =>
      if addr < stop then dumpLoop mem stop fuel (addr + 8) (out ++ dumpRow mem addr stop)
      else some out

def memDump (mem : Word → Word) (start stop : Word) (fuel : Nat) : Option Bytes :=
  if stop ≤ start then some [] else dumpLoop mem stop fuel start []

/-- The arguments of the call in `main`, with the value of `--addr` if it was given. -/
def dumpRange : Option Word → Word × Word
  | none => (0, 0x0100)
  | some addr =>
      let endCalc := addr.toNat + 0x0100
      (addr, if 0xFFFF < endCalc then 0xFFFF else BitVec.ofNat 16 endCalc)

end EduCpu16
