import EduCpu16.Lib.TextLines
import Mathlib.Data.List.DropRight

/-!
# `source_read` — from the file to the array of lines

The content of a file that can be opened goes through a buffer of 4096 bytes into an array that is
doubled when it is full; allocations succeed. The capacity is an `int`, and a `newcap` it does not
hold is `none`. The loop carries fuel: every turn reads a byte at least, so the length of the file
is enough (`Proof/SourceFile.lean`).
-/

namespace EduCpu16

open CLib

/-- `INT_MAX`. -/
def intMax : Nat := 2 ^ 31 - 1

/-- `count` is the length of `lines`. -/
structure SourceFile where
  lines : List Bytes := []
  capacity : Nat := 0
  deriving DecidableEq

/-- `'\n'` and `'\r'` at the end are overwritten. -/
def stripEnd (buf : Bytes) : Bytes :=
  (cstr buf).rdropWhile fun c => c = newline ∨ c = 13

/-- Room for one line more. -/
def SourceFile.grow (sf : SourceFile) : Option SourceFile :=
  if sf.lines.length = sf.capacity then
    let newcap := if sf.capacity ≠ 0 then sf.capacity * 2 else 64
    if newcap ≤ intMax then some { sf with capacity := newcap } else none
  else some sf

def sourceLoop : Nat → Bytes → SourceFile → Option SourceFile
  | 0, _, sf => some sf
  | fuel + 1, f, sf =>
      match fgets 4096 f with
      | none => some sf
      | some (buf, f) =>
          match sf.grow with
          | none => none
          | some sf => sourceLoop fuel f { sf with lines := sf.lines ++ [stripEnd buf] }

def sourceRead (content : Bytes) : Option SourceFile := sourceLoop (content.length + 1) content {}

example : (sourceRead (ascii "HALT\r\n\nJMP 0")).map SourceFile.lines =
    some [ascii "HALT", [], ascii "JMP 0"] := by decide

end EduCpu16
