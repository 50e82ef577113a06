import EduCpu16.Assembler.Lexer
import EduCpu16.Isa
import Mathlib.Data.Fintype.Pi

/-!
# `parser.c` — one token line to one `ParsedLine`

A `ParsedLine` starts out zeroed and is filled field by field, so a line that fails to parse
keeps whatever was stored before the failure. `parseLine` therefore answers the record in every
case, together with the diagnostic of the failure if there was one; pass 2 of the assembler
looks at such half-filled records too.
-/

namespace EduCpu16

open CLib

inductive ParsedKind
  | empty | label | instr | directive
  deriving DecidableEq, Repr

inductive OperandKind
  | none | reg | imm | label
  deriving DecidableEq, Repr

/-- A C struct, not a union: the fields of the other kinds keep their zeroes. -/
structure Operand where
  kind : OperandKind := .none
  reg : Byte := 0
  imm : I32 := 0
  label : Bytes := []
  deriving DecidableEq, Repr

/-- The operands are numbered by literals of `Fin 3`. -/
instance neZero_operands : NeZero 3 := ⟨by decide⟩

structure Instr where
  mnemonic : Bytes := []
  ops : Fin 3 → Operand := fun _ => {}
  nops : Nat := 0
  deriving DecidableEq

inductive DirectiveKind
  | org | word | ascii | equ
  deriving DecidableEq, Repr

structure Directive where
  kind : DirectiveKind := .org
  value : Operand := {}
  str : Bytes := []
  strLen : Nat := 0
  name : Bytes := []
  deriving DecidableEq, Repr

structure ParsedLine where
  kind : ParsedKind := .empty
  lineNo : Nat := 0
  address : Word := 0
  label : Bytes := []
  instr : Instr := {}
  dir : Directive := {}
  deriving DecidableEq

/-- `COPY_TOK`: `snprintf` into a buffer of `MAX_TOKEN_LEN + 1` bytes. -/
def copyTok (src : Bytes) : Bytes := src.take maxTokenLen

/-- `R0` to `R7`, in either case; `none` is the answer -1. -/
def parseRegister : Bytes → Option Byte
  | [r, d] =>
      if (r = ch 'R' ∨ r = ch 'r') ∧ isdigit d then
        let n := d - ch '0'
        if n.toNat < numRegs then some n else none
      else none
  | _ => none

/-- A decimal, `0x` or `0b` literal with an optional sign. The value is a `long` that is cut
to `int32_t`. -/
def parseNumber (tok : Bytes) : Option I32 :=
  let neg := deref tok = ch '-'
  let p := if neg ∨ deref tok = ch '+' then tok.tail else tok
  if p = [] then none
  else
    let (base, p) :=
      if deref p = ch '0' ∧ (deref p.tail = ch 'x' ∨ deref p.tail = ch 'X') then
        (16, p.tail.tail)
      else if deref p = ch '0' ∧ (deref p.tail = ch 'b' ∨ deref p.tail = ch 'B') then
        (2, p.tail.tail)
      else (10, p)
    let (v, stop) := strtol p base
    if stop = p ∨ stop ≠ [] then none
    else some (BitVec.ofInt 32 (if neg then -v else v))

def fillValueOperand (t : Token) (op : Operand) : Option Operand :=
  match t.kind with
  | .number =>
      match parseNumber t.text with
      | some v => some { op with kind := .imm, imm := v }
      | none => none
  | .ident =>
      -- A register or a label reference, decided by the R0..R7 check.
      match parseRegister t.text with
      | some r => some { op with kind := .reg, reg := r }
      | none => some { op with kind := .label, label := copyTok t.text }
  | _ => none

/-! ## Directives

`args` are the tokens after the directive, so `start + 1 >= tl->count` is `args = []`. -/

def parseOrg (lineNo : Nat) (args : List Token) (out : ParsedLine) : ParsedLine × Option Diag :=
  match args with
  | [] => (out, some ⟨lineNo, .wrongOperandCount, ascii ".org requires one numeric argument"⟩)
  | t :: _ =>
      let out := { out with dir.kind := .org }
      match fillValueOperand t out.dir.value with
      | some v =>
          let out := { out with dir.value := v }
          if v.kind = .imm then (out, none)
          else (out, some ⟨lineNo, .invalidNumber, ascii ".org argument must be a numeric literal"⟩)
      | none =>
          (out, some ⟨lineNo, .invalidNumber, ascii ".org argument must be a numeric literal"⟩)

def parseWord (lineNo : Nat) (args : List Token) (out : ParsedLine) : ParsedLine × Option Diag :=
  match args with
  | [] => (out, some ⟨lineNo, .wrongOperandCount, ascii ".word requires one argument"⟩)
  | t :: _ =>
      let out := { out with dir.kind := .word }
      match fillValueOperand t out.dir.value with
      | some v => ({ out with dir.value := v }, none)
      | none =>
          (out, some ⟨lineNo, .invalidNumber, ascii ".word argument must be a number or label"⟩)

def parseAscii (lineNo : Nat) (args : List Token) (out : ParsedLine) :
    ParsedLine × Option Diag :=
  match args with
  | ⟨.string, s⟩ :: _ =>
      let n := min s.length maxTokenLen
      ({ out with dir.kind := .ascii, dir.str := s.take n, dir.strLen := n }, none)
  | _ => (out, some ⟨lineNo, .wrongOperandCount, ascii ".ascii requires a string literal"⟩)

def parseEqu (lineNo : Nat) (args : List Token) (out : ParsedLine) : ParsedLine × Option Diag :=
  match args with
  | ⟨.ident, name⟩ :: ⟨.number, text⟩ :: _ =>
      let out := { out with dir.kind := .equ, dir.name := copyTok name }
      match parseNumber text with
      | none => (out, some ⟨lineNo, .invalidNumber, ascii ".equ value is not a valid number"⟩)
      | some v => ({ out with dir.value := { out.dir.value with kind := .imm, imm := v } }, none)
  | _ => (out, some ⟨lineNo, .wrongOperandCount, ascii ".equ requires <name> <numeric-value>"⟩)

def parseDirective (lineNo : Nat) (d : Token) (args : List Token) (out : ParsedLine) :
    ParsedLine × Option Diag :=
  let out := { out with kind := .directive }
  if strcasecmp d.text (ascii ".org") = 0 then parseOrg lineNo args out
  else if strcasecmp d.text (ascii ".word") = 0 then parseWord lineNo args out
  else if strcasecmp d.text (ascii ".ascii") = 0 then parseAscii lineNo args out
  else if strcasecmp d.text (ascii ".equ") = 0 then parseEqu lineNo args out
  else
    (out, some ⟨lineNo, .invalidDirective,
      ascii "unknown directive '" ++ d.text ++ ascii "'"⟩)

/-! ## Instructions

The arguments are the tokens behind the mnemonic. How many an instruction should have is asked by
the encoder; the parser asks only that there are not more than three. -/

/-- The operand loop, with `n` operands filled. `nops` is stored only after the loop. -/
def parseOperands (lineNo : Nat) : List Token → ParsedLine → Nat → ParsedLine × Option Diag
  | [], out, n => ({ out with instr.nops := n }, none)
  | t :: ts, out, n =>
      if h : n < 3 then
        match fillValueOperand t (out.instr.ops ⟨n, h⟩) with
        | none =>
            (out, some ⟨lineNo, .wrongOperandCount,
              ascii "unexpected operand '" ++ t.text ++ ascii "'"⟩)
        | some op =>
            parseOperands lineNo ts
              { out with instr.ops := Function.update out.instr.ops ⟨n, h⟩ op } (n + 1)
      else
        (out, some ⟨lineNo, .wrongOperandCount,
          ascii "too many operands for " ++ out.instr.mnemonic⟩)

def parseInstruction (lineNo : Nat) (head : Token) (args : List Token) (out : ParsedLine) :
    ParsedLine × Option Diag :=
  parseOperands lineNo args
    { out with kind := .instr, instr.mnemonic := copyTok head.text } 0

/-- The mnemonic or directive after the optional label. -/
def parseHead (lineNo : Nat) (head : Token) (args : List Token) (out : ParsedLine) :
    ParsedLine × Option Diag :=
  match head.kind with
  | .directive => parseDirective lineNo head args out
  | .ident => parseInstruction lineNo head args out
  | _ =>
      (out, some ⟨lineNo, .unknownMnemonic,
        ascii "expected mnemonic or directive, got '" ++ head.text ++ ascii "'"⟩)

def parseLine (tl : TokenLine) : ParsedLine × Option Diag :=
  let out : ParsedLine := { lineNo := tl.lineNo }
  match tl.tokens with
  | [] => (out, none)
  | ⟨.label, text⟩ :: rest =>
      let out := { out with label := copyTok text }
      match rest with
      | [] => ({ out with kind := .label }, none)
      | head :: args => parseHead tl.lineNo head args out
  | head :: args => parseHead tl.lineNo head args out

end EduCpu16
