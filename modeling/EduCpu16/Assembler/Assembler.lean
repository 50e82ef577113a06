import EduCpu16.Assembler.Encoder
import EduCpu16.Assembler.Symtable
import EduCpu16.Lib.Stores

/-!
# `assembler.c` — the two passes

`assembleLines` is `assemble_file` from the point where `source_read` has delivered the lines
to the point where the bytes of the output file are known: pass 1 assigns addresses and defines
symbols, pass 2 resolves, encodes and stores words into the image, and the image is written out
from address 0 when no error was counted.

A pass is a fold of its loop body over the lines. The body of pass 2 reads the symbol table and
one record and nothing that another line changed, so `pass2Line` answers what it does as data:
the stores into the image in program order (each `image[a] = w; n_words++`), the listing lines,
the diagnostics and the number of `n_errors++`.
-/

namespace EduCpu16

open CLib

structure AsmOptions where
  listing : Bool := false
  dumpSymbols : Bool := false

structure AsmResult where
  origin : Word
  nWords : Word
  nErrors : Nat
  deriving DecidableEq, Repr

/-- The output words of a parsed line: one for an instruction or `.word`, and for `.ascii` the
string with its terminator, two bytes a word, rounded up. -/
def lineSize (pl : ParsedLine) : Word :=
  match pl.kind with
  | .instr => 1
  | .directive =>
      match pl.dir.kind with
      | .word => 1
      | .ascii => BitVec.ofNat 16 ((pl.dir.strLen + 1 + 1) / 2)
      | .org | .equ => 0
  | .label | .empty => 0

/-! ## Pass 1: labels and addresses

A line that does not lex or parse is reported and counted, its record is kept as it is, and the loop
goes on with the next line. -/

/-- The variables of pass 1. One record is appended to `parsed` for each source line, so the
loop index `i` is its length. -/
structure Pass1 where
  sym : Symtable := symtableReset
  addr : Word := 0
  sawOrigin : Bool := false
  origin : Word := 0
  nErrors : Nat := 0
  parsed : List ParsedLine := []
  diags : List Diag := []

def Pass1.report (st : Pass1) (d : Diag) : Pass1 :=
  { st with nErrors := st.nErrors + 1, diags := st.diags ++ [d] }

/-- `symtable_insert` and the report of its failure; `what` is "label" or "constant". -/
def Pass1.define (st : Pass1) (lineNo : Nat) (what name : Bytes) (addr : Word) : Pass1 :=
  let (rc, sym) := symtableInsert st.sym name addr
  let st := { st with sym := sym }
  if rc = .ok then st
  else st.report ⟨lineNo, rc, what ++ ascii " '" ++ name ++ ascii "'"⟩

/-- The body of pass 1 after a line has been parsed: its label is defined at `addr`, then the
counter moves. -/
def Pass1.place (st : Pass1) (pl : ParsedLine) : Pass1 :=
  let st := { st with parsed := st.parsed ++ [{ pl with address := st.addr }] }
  let st := if pl.label ≠ [] then st.define pl.lineNo (ascii "label") pl.label st.addr else st
  if pl.kind = .directive ∧ pl.dir.kind = .org then
    let v := pl.dir.value.imm
    if v.toInt < 0 ∨ 0xFFFF < v.toInt then
      st.report ⟨pl.lineNo, .immOverflow, ascii ".org address 0x" ++ fmtX v ++
        ascii " out of range"⟩
    else
      let addr := v.setWidth 16
      let st := { st with addr := addr }
      -- The reported origin is that of the first `.org`.
      if st.sawOrigin then st else { st with origin := addr, sawOrigin := true }
  else if pl.kind = .directive ∧ pl.dir.kind = .equ then
    st.define pl.lineNo (ascii "constant") pl.dir.name (pl.dir.value.imm.setWidth 16)
  else { st with addr := st.addr + lineSize pl }

/-- The body of pass 1. A line that fails to lex leaves its record zeroed, one that fails to
parse leaves it half-filled, and neither is given an address. -/
def pass1Line (st : Pass1) (src : Bytes) : Pass1 :=
  match lexLine src (st.parsed.length + 1) with
  | (_, some d) => { st.report d with parsed := st.parsed ++ [{}] }
  | (tl, none) =>
      match parseLine tl with
      | (pl, some d) => { st.report d with parsed := st.parsed ++ [pl] }
      | (pl, none) => st.place pl

def pass1 (lines : List Bytes) : Pass1 := lines.foldl pass1Line {}

/-! ## Pass 2: encode and emit

The body of the loop gives the stores, the listing and the diagnostics of a line; `Pass2` gathers
them and counts. -/

/-- An operand that carries a label becomes the immediate the table has for it. -/
def resolveOperand (sym : Symtable) (lineNo : Nat) (o : Operand) : Operand × Option Diag :=
  if o.kind ≠ .label then (o, none)
  else
    let v := symtableLookup sym o.label
    if v = symNotFound then
      (o, some ⟨lineNo, .undefinedLabel, ascii "label '" ++ o.label ++ ascii "' is not defined"⟩)
    else ({ o with kind := .imm, imm := v }, none)

/-- The loop over the operands in use. Its turns touch different operands and all of them are
made, whether or not an earlier one failed. -/
def resolveOperands (sym : Symtable) (lineNo : Nat) (i : Instr) : Instr × List Diag :=
  ({ i with
      ops := fun k =>
        if k.val < i.nops then (resolveOperand sym lineNo (i.ops k)).1 else i.ops k },
    ((List.finRange 3).take i.nops).filterMap fun k => (resolveOperand sym lineNo (i.ops k)).2)

/-- Two bytes of a string, low byte first; the terminator and the padding are zero. -/
def asciiWord (s : Bytes) (len b : Nat) : Word :=
  let lo : Word := if b ≤ len then (s.getD b 0).setWidth 16 else 0
  let hi : Word := if b + 1 ≤ len then (s.getD (b + 1) 0).setWidth 16 else 0
  lo ||| (hi <<< 8)

/-- `for (b = 0; b <= len; b += 2)` with the write cursor `a`, a `uint16_t`. -/
def asciiLoop (s : Bytes) (len : Nat) : Nat → Nat → Word → List (Word × Word)
  | 0, _, _ => []
  | fuel + 1, b, a =>
      if b ≤ len then (a, asciiWord s len b) :: asciiLoop s len fuel (b + 2) (a + 1) else []

/-- A line `--listing` prints. -/
inductive Listing
  | instr (addr word : Word) (src : Bytes)
  | word (addr word : Word) (v : I32)
  | ascii (addr word : Word)
  deriving DecidableEq, Repr

structure LineOut where
  stores : List (Word × Word) := []
  listing : List Listing := []
  diags : List Diag := []
  nErrors : Nat := 0

/-- The body of pass 2. -/
def pass2Line (opt : AsmOptions) (sym : Symtable) (src : Bytes) (pl : ParsedLine) : LineOut :=
  match pl.kind with
  | .instr =>
      -- One error a line, however many labels are undefined.
      match resolveOperands sym pl.lineNo pl.instr with
      | (i, []) =>
          match encodeInstr i pl.address 0 with
          | (.ok, word) =>
              { stores := [(pl.address, word)]
                listing := if opt.listing then [.instr pl.address word src] else [] }
          | (rc, _) =>
              { diags := [⟨pl.lineNo, rc, ascii "while encoding '" ++ i.mnemonic ++ ascii "'"⟩]
                nErrors := 1 }
      | (_, diags) => { diags := diags, nErrors := 1 }
  | .directive =>
      match pl.dir.kind with
      | .word =>
          match resolveOperand sym pl.lineNo pl.dir.value with
          | (_, some d) => { diags := [d], nErrors := 1 }
          | (o, none) =>
              let word := o.imm.setWidth 16
              { stores := [(pl.address, word)]
                listing := if opt.listing then [.word pl.address word o.imm] else [] }
      | .ascii =>
          let stores := asciiLoop pl.dir.str pl.dir.strLen (pl.dir.strLen + 1) 0 pl.address
          { stores := stores
            listing := if opt.listing then stores.map fun s => .ascii s.1 s.2 else [] }
      -- Pass 1 has done what these ask for.
      | .org | .equ => {}
  | .label | .empty => {}

/-- The variables of pass 2. -/
structure Pass2 where
  image : Word → Word := fun _ => 0
  nWords : Word := 0
  nErrors : Nat := 0
  diags : List Diag := []
  listing : List Listing := []

def Pass2.add (st : Pass2) (out : LineOut) : Pass2 where
  image := Stores.write st.image out.stores
  nWords := st.nWords + BitVec.ofNat 16 out.stores.length
  nErrors := st.nErrors + out.nErrors
  diags := st.diags ++ out.diags
  listing := st.listing ++ out.listing

def pass2 (opt : AsmOptions) (lines : List Bytes) (p1 : Pass1) : Pass2 :=
  (lines.zip p1.parsed).foldl (fun st l => st.add (pass2Line opt p1.sym l.1 l.2))
    { nErrors := p1.nErrors, diags := p1.diags }

/-! ## Finalise -/

/-- `highest`, from the final value of the address counter. -/
def highest (addr : Word) : Word := if addr = 0 then 0 else addr - 1

/-- The `count` words from address 0, little-endian. -/
def imageBytes (image : Word → Word) (count : Nat) : Bytes :=
  (List.range count).flatMap fun w =>
    let v := image (BitVec.ofNat 16 w)
    [(v &&& 0xFF).setWidth 8, ((v >>> 8) &&& 0xFF).setWidth 8]

/-- What a run leaves: `bin` is the content of the output file, `none` when no file is written,
`symbols` the table `--symbols` prints. -/
structure AsmOut where
  rc : AsmError
  result : AsmResult
  bin : Option Bytes
  diags : List Diag
  listing : List Listing
  symbols : List (Bytes × Word)
  deriving DecidableEq

/-- `assemble_file` on the lines of a source, every write to the output path succeeding. -/
def assembleLines (opt : AsmOptions) (lines : List Bytes) : AsmOut :=
  let p1 := pass1 lines
  let p2 := pass2 opt lines p1
  let count : Word := highest p1.addr + 1
  { rc := if p2.nErrors = 0 then .ok else .internal
    result := ⟨p1.origin, p2.nWords, p2.nErrors⟩
    bin := if p2.nErrors = 0 then some (imageBytes p2.image count.toNat) else none
    diags := p2.diags
    listing := p2.listing
    symbols := if opt.dumpSymbols then symtableDump p1.sym else [] }

/-- The integration program: a forward jump over a word that must not run. -/
example : (assembleLines {} [ascii "JMP DONE", ascii "HALT", ascii "DONE: MOV R2, 7"]).bin =
    some [0x01, 0x70, 0x00, 0xF8, 0x07, 0x62] := by decide +kernel

end EduCpu16
