import EduCpu16.Assembler.Assembler

/-!
# `assembler.c` — writing the output file

The end of `assemble_file` when calls on the output path may fail. Which ones do is the
environment's choice, `OutputPath`; `assembleLines` is the run in which none does
(`assembleFile_ok`).

Opening with `"wb"` empties the file that was there. Output is buffered, so a byte handed to
`fwrite` need not be in the file when a later call fails; the file then holds an initial part of
what was handed over.
-/

namespace EduCpu16

open CLib

/-- The output path before the call, and how the calls on it turn out. -/
structure OutputPath where
  /-- The file at the path, `none` if there is none. -/
  before : Option Bytes
  fopen : Bool
  /-- Whether the `fwrite` of word `w` writes both bytes. -/
  fwrite : Nat → Bool
  fclose : Bool
  /-- How many of the bytes handed over get to the file if a call fails. -/
  reached : Nat

/-- The two bytes of the word at `w`. -/
def wordBytes (image : Word → Word) (w : Nat) : Bytes :=
  let v := image (BitVec.ofNat 16 w)
  [(v &&& 0xFF).setWidth 8, ((v >>> 8) &&& 0xFF).setWidth 8]

/-- The loop over the words, with `n` of them left from `w` on: what it hands to `fwrite`, and
whether it ran to its end. It breaks at the first failure. -/
def writeWords (fwrite : Nat → Bool) (image : Word → Word) : Nat → Nat → Bytes × Bool
  | 0, _ => ([], true)
  | n + 1, w =>
      if fwrite w then
        let (rest, ok) := writeWords fwrite image n (w + 1)
        (wordBytes image w ++ rest, ok)
      else (wordBytes image w, false)

structure FileOut where
  rc : AsmError
  file : Option Bytes
  diags : List Diag
  deriving DecidableEq

/-- From `AsmError rc = ERR_OK` on. -/
def finalise (path : OutputPath) (nErrors : Nat) (image : Word → Word) (count : Word) : FileOut :=
  if nErrors = 0 then
    if path.fopen then
      let (handed, ok) := writeWords path.fwrite image count.toNat 0
      -- Nothing looks at what `fclose` answers.
      let file := if ok ∧ path.fclose then handed else handed.take path.reached
      { rc := if ok then .ok else .io
        file := some file
        diags := if ok then [] else [⟨0, .io, ascii "write failed"⟩] }
    else
      { rc := .io, file := path.before
        diags := [⟨0, .io, ascii "could not open for writing"⟩] }
  else { rc := .internal, file := path.before, diags := [] }

/-- `assemble_file` on the lines of a source. -/
def assembleFile (path : OutputPath) (opt : AsmOptions) (lines : List Bytes) : FileOut :=
  let p1 := pass1 lines
  let p2 := pass2 opt lines p1
  let out := finalise path p2.nErrors p2.image (highest p1.addr + 1)
  { out with diags := p2.diags ++ out.diags }

end EduCpu16
