import EduCpu16.Assembler.Lexer
import EduCpu16.Lib.CheckedC

/-!
# `lexer.c` with its indices checked

`push_token` and `lex_line` once more, on the pointers and arrays they use: `p` is an index into
the line, `buf` and the token array are arrays of the sizes declared, and every access can fault.
Conditions are evaluated as C does, so `p[1]` is read only where the left operand lets it. All
loops have the same fuel. `Assembler/Lexer.lean` is the same code on lists.
-/

namespace EduCpu16
namespace Checked

open CLib CheckedC

/-- A `Token`, with its array of characters. -/
structure RawToken where
  kind : TokenKind
  text : Vector Byte (maxTokenLen + 1)

/-- A `TokenLine`. -/
structure RawTokenLine where
  tokens : Vector RawToken maxTokensPerLine
  count : Nat
  lineNo : Nat

/-- `char buf[MAX_TOKEN_LEN + 2]`. -/
abbrev Buf := Vector Byte (maxTokenLen + 2)

/-- `none` is the answer false. -/
def pushToken (tl : RawTokenLine) (kind : TokenKind) (text : Buf) : Run (Option RawTokenLine) :=
  if maxTokensPerLine ≤ tl.count then return none
  else do
    let t ← index tl.tokens tl.count
    let len ← strlen text
    let n := if maxTokenLen < len then maxTokenLen else len
    let copied ← memcpy t.text text n
    let copied ← assign copied n 0
    let tokens ← assign tl.tokens tl.count ⟨kind, copied⟩
    return some { tl with tokens := tokens, count := tl.count + 1 }

/-- The variables of a scanning loop. -/
structure Scan where
  p : Nat
  n : Nat
  buf : Buf

section Line

variable (line : CStr) (fuel : Nat)

def skipSeparators (p : Nat) : Run Nat :=
  loop (fun p => do
    let c ← line.read p
    if c ≠ 0 ∧ (isspace c ∨ c = ch ',') then return .again (p + 1) else return .leave p) fuel p

/-- `buf[n++] = *p++`. -/
def take (s : Scan) : Run Scan := do
  let c ← line.read s.p
  let buf ← assign s.buf s.n c
  return ⟨s.p + 1, s.n + 1, buf⟩

/-- The character at `p`, an escape being two characters, and the pointer behind it. -/
def stringChar (p : Nat) : Run (Byte × Nat) := do
  let c ← line.read p
  if c = backslash then do
    let esc ← line.read (p + 1)
    if esc ≠ 0 then return (escapeChar esc, p + 2) else return (c, p + 1)
  else return (c, p + 1)

/-- The loop of a string literal; `none` when it is too long. -/
def scanString (s : Scan) : Run (Option Scan) :=
  loop (fun s => do
    let c ← line.read s.p
    if c = 0 ∨ c = quote then return .leave (some s)
    else do
      let (c, p) ← stringChar line s.p
      if maxTokenLen ≤ s.n then return .leave none
      else do
        let buf ← assign s.buf s.n c
        return .again ⟨p, s.n + 1, buf⟩) fuel s

/-- The loops of numbers and identifiers. The class is asked with the number of characters read. -/
def scanWhile (cls : Nat → Byte → Bool) (s : Scan) : Run Scan :=
  loop (fun s => do
    let c ← line.read s.p
    if c ≠ 0 ∧ cls s.n c then
      if maxTokenLen ≤ s.n then return .leave s
      else do
        let s ← take line s
        return .again s
    else return .leave s) fuel s

def startsNumber (p : Nat) : Run Bool := do
  let c ← line.read p
  if isdigit c then return true
  else if c = ch '-' ∨ c = ch '+' then do
    let d ← line.read (p + 1)
    return isdigit d
  else return false

/-- The sign. -/
def scanSign (s : Scan) : Run Scan := do
  let c ← line.read s.p
  if c = ch '-' ∨ c = ch '+' then take line s else return s

/-- The mark of the base. -/
def scanBase (s : Scan) : Run Scan := do
  let c ← line.read s.p
  if c = ch '0' then do
    let d ← line.read (s.p + 1)
    if d = ch 'x' ∨ d = ch 'X' ∨ d = ch 'b' ∨ d = ch 'B' then do
      let s ← take line s
      take line s
    else return s
  else return s

def scanNumber (s : Scan) : Run Scan := do
  let s ← scanSign line s
  let s ← scanBase line s
  scanWhile line fuel (fun _ c => isalnum c) s

def scanIdent (s : Scan) : Run Scan :=
  scanWhile line fuel (fun n c => isIdentCont c || (n = 0 && c = ch '.')) s

end Line

/-- The variables of the main loop. -/
structure Main where
  p : Nat
  buf : Buf
  out : RawTokenLine

/-- What `lex_line` leaves. -/
abbrev Result := RawTokenLine × Option Diag

def fail (out : RawTokenLine) (msg : Bytes) : Next Main Result :=
  .leave (out, some ⟨out.lineNo, .internal, msg⟩)

/-- `buf[n] = '\0'` and `push_token`, before the loop goes on at `p`. -/
def push (s : Scan) (p : Nat) (kind : TokenKind) (out : RawTokenLine) :
    Run (Next Main Result) := do
  let buf ← assign s.buf s.n 0
  match ← pushToken out kind buf with
  | none => return fail out (ascii "too many tokens")
  | some out => return .again ⟨p, buf, out⟩

/-- The body of the main loop. -/
def mainBody (line : CStr) (fuel : Nat) (m : Main) : Run (Next Main Result) := do
  let c ← line.read m.p
  if c = 0 then return .leave (m.out, none)
  else do
    let p ← skipSeparators line fuel m.p
    let c ← line.read p
    if c = 0 ∨ c = ch ';' then return .leave (m.out, none)
    else if c = quote then do
      match ← scanString line fuel ⟨p + 1, 0, m.buf⟩ with
      | none => return fail m.out (ascii "string literal too long")
      | some s => do
        let c ← line.read s.p
        if c ≠ quote then return fail m.out (ascii "unterminated string literal")
        else push s (s.p + 1) .string m.out
    else do
      let number ← startsNumber line p
      if number then do
        let s ← scanNumber line fuel ⟨p, 0, m.buf⟩
        push s s.p .number m.out
      else if isIdentStart c then do
        let s ← scanIdent line fuel ⟨p, 0, m.buf⟩
        let colon ← line.read s.p
        if colon = ch ':' then push s (s.p + 1) .label m.out
        else push s s.p (if c = ch '.' then .directive else .ident) m.out
      else return fail m.out (unexpectedCharacter c)

/-- `lex_line`, on whatever `buf` and `*out` hold before. -/
def lexLine (line : CStr) (lineNo fuel : Nat) (buf : Buf) (out : RawTokenLine) : Run Result :=
  loop (mainBody line fuel) fuel ⟨0, buf, { out with count := 0, lineNo := lineNo }⟩

/-! ## What the arrays hold -/

def RawToken.token (t : RawToken) : Token := ⟨t.kind, cstr t.text.toList⟩

/-- The tokens in use. -/
def RawTokenLine.used (tl : RawTokenLine) : List RawToken := tl.tokens.toList.take tl.count

def RawTokenLine.tokenLine (tl : RawTokenLine) : TokenLine :=
  ⟨tl.used.map RawToken.token, tl.lineNo⟩

end Checked
end EduCpu16
