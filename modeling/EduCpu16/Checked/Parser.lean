import EduCpu16.Assembler.Parser
import EduCpu16.Checked.Lexer

/-!
# `parser.c` with its indices checked

`parse_line` once more, on the arrays of a `RawTokenLine`: tokens and operands are reached by their
index, texts are read up to their NUL, and a copy that would cut a text is a fault.
`Assembler/Parser.lean` is the same code on lists.
-/

namespace EduCpu16
namespace Checked

open CLib CheckedC

/-- The text of a token, as its readers see it. -/
def textOf (t : RawToken) : Run Bytes := do
  let n ← strlen t.text
  return t.text.toList.take n

/-- `COPY_TOK`. -/
def copyTok (src : Bytes) : Run Bytes := snprintf (maxTokenLen + 1) src

def fillValueOperand (t : RawToken) (op : Operand) : Run (Option Operand) := do
  match t.kind with
  | .number => do
      let text ← textOf t
      match parseNumber text with
      | some v => return some { op with kind := .imm, imm := v }
      | none => return none
  | .ident => do
      let text ← textOf t
      match parseRegister text with
      | some r => return some { op with kind := .reg, reg := r }
      | none => do
          let label ← copyTok text
          return some { op with kind := .label, label := label }
  | _ => return none

/-! ## Directives -/

section Directives

variable (tl : RawTokenLine) (start : Nat) (out : ParsedLine)

def parseOrg : Run (ParsedLine × Option Diag) :=
  if tl.count ≤ start + 1 then
    return (out, some ⟨tl.lineNo, .wrongOperandCount,
      ascii ".org requires one numeric argument"⟩)
  else do
    let out := { out with dir.kind := .org }
    let t ← index tl.tokens (start + 1)
    match ← fillValueOperand t out.dir.value with
    | some v =>
        let out := { out with dir.value := v }
        if v.kind = .imm then return (out, none)
        else return (out, some ⟨tl.lineNo, .invalidNumber,
          ascii ".org argument must be a numeric literal"⟩)
    | none =>
        return (out, some ⟨tl.lineNo, .invalidNumber,
          ascii ".org argument must be a numeric literal"⟩)

def parseWord : Run (ParsedLine × Option Diag) :=
  if tl.count ≤ start + 1 then
    return (out, some ⟨tl.lineNo, .wrongOperandCount, ascii ".word requires one argument"⟩)
  else do
    let out := { out with dir.kind := .word }
    let t ← index tl.tokens (start + 1)
    match ← fillValueOperand t out.dir.value with
    | some v => return ({ out with dir.value := v }, none)
    | none =>
        return (out, some ⟨tl.lineNo, .invalidNumber,
          ascii ".word argument must be a number or label"⟩)

def parseAscii : Run (ParsedLine × Option Diag) :=
  let error := (out, some ⟨tl.lineNo, .wrongOperandCount,
    ascii ".ascii requires a string literal"⟩)
  if tl.count ≤ start + 1 then return error
  else do
    let t ← index tl.tokens (start + 1)
    if t.kind ≠ .string then return error
    else do
      let s ← textOf t
      let n := if maxTokenLen < s.length then maxTokenLen else s.length
      let str ← copyString (maxTokenLen + 1) s n
      return ({ out with dir.kind := .ascii, dir.str := str, dir.strLen := n }, none)

def parseEqu : Run (ParsedLine × Option Diag) :=
  let error := (out, some ⟨tl.lineNo, .wrongOperandCount,
    ascii ".equ requires <name> <numeric-value>"⟩)
  if tl.count ≤ start + 2 then return error
  else do
    let t ← index tl.tokens (start + 1)
    if t.kind ≠ .ident then return error
    else do
      let u ← index tl.tokens (start + 2)
      if u.kind ≠ .number then return error
      else do
        let text ← textOf t
        let name ← copyTok text
        let out := { out with dir.kind := .equ, dir.name := name }
        let value ← textOf u
        match parseNumber value with
        | none =>
            return (out, some ⟨tl.lineNo, .invalidNumber, ascii ".equ value is not a valid number"⟩)
        | some v =>
            return ({ out with dir.value := { out.dir.value with kind := .imm, imm := v } }, none)

def parseDirective : Run (ParsedLine × Option Diag) := do
  let d ← index tl.tokens start
  let name ← textOf d
  let out := { out with kind := .directive }
  if strcasecmp name (ascii ".org") = 0 then parseOrg tl start out
  else if strcasecmp name (ascii ".word") = 0 then parseWord tl start out
  else if strcasecmp name (ascii ".ascii") = 0 then parseAscii tl start out
  else if strcasecmp name (ascii ".equ") = 0 then parseEqu tl start out
  else
    return (out, some ⟨tl.lineNo, .invalidDirective,
      ascii "unknown directive '" ++ name ++ ascii "'"⟩)

end Directives

/-! ## Instructions -/

/-- The index of `out->instr.ops[n]`. -/
def operandAt (n : Nat) : Run (Fin 3) := if h : n < 3 then .ok ⟨n, h⟩ else .error .index

/-- The operand loop over the indices `i` that are left, with `n` operands filled. -/
def parseOperands (tl : RawTokenLine) : List Nat → ParsedLine → Nat →
    Run (ParsedLine × Option Diag)
  | [], out, n => return ({ out with instr.nops := n }, none)
  | i :: is, out, n =>
      if 3 ≤ n then
        return (out, some ⟨tl.lineNo, .wrongOperandCount,
          ascii "too many operands for " ++ out.instr.mnemonic⟩)
      else do
        let t ← index tl.tokens i
        let k ← operandAt n
        match ← fillValueOperand t (out.instr.ops k) with
        | none => do
            let text ← textOf t
            return (out, some ⟨tl.lineNo, .wrongOperandCount,
              ascii "unexpected operand '" ++ text ++ ascii "'"⟩)
        | some op =>
            parseOperands tl is
              { out with instr.ops := Function.update out.instr.ops k op } (n + 1)

def parseInstruction (tl : RawTokenLine) (start : Nat) (out : ParsedLine) :
    Run (ParsedLine × Option Diag) := do
  let t ← index tl.tokens start
  let text ← textOf t
  let mnemonic ← copyTok text
  parseOperands tl (List.range' (start + 1) (tl.count - (start + 1)))
    { out with kind := .instr, instr.mnemonic := mnemonic } 0

/-- The mnemonic or directive at `idx`. -/
def parseHead (tl : RawTokenLine) (idx : Nat) (out : ParsedLine) :
    Run (ParsedLine × Option Diag) := do
  let head ← index tl.tokens idx
  match head.kind with
  | .directive => parseDirective tl idx out
  | .ident => parseInstruction tl idx out
  | _ => do
      let text ← textOf head
      return (out, some ⟨tl.lineNo, .unknownMnemonic,
        ascii "expected mnemonic or directive, got '" ++ text ++ ascii "'"⟩)

def parseLine (tl : RawTokenLine) : Run (ParsedLine × Option Diag) :=
  let out : ParsedLine := { lineNo := tl.lineNo }
  if tl.count = 0 then return (out, none)
  else do
    let t ← index tl.tokens 0
    if t.kind = .label then do
      let text ← textOf t
      let label ← copyTok text
      let out := { out with label := label }
      if tl.count = 1 then return ({ out with kind := .label }, none)
      else parseHead tl 1 out
    else parseHead tl 0 out

end Checked
end EduCpu16
