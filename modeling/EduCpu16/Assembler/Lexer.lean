import EduCpu16.Assembler.Errors

/-!
# `lexer.c` — the line tokeniser

The pointer `p` is the list of bytes from `*p` on: the empty list is the terminating NUL, and
`p[1]` is read only where `*p` is not NUL. `lexLine` answers the `TokenLine` it leaves, on
success or failure, and the diagnostic of the failure if there was one; every failing path
reports exactly once.

The main loop carries fuel. Every turn consumes at least one byte of the line, so the length of
the line is enough (`Proof/Lexer.lean`).
-/

namespace EduCpu16

open CLib

/-- `MAX_TOKENS_PER_LINE`. -/
def maxTokensPerLine : Nat := 16

/-- `MAX_TOKEN_LEN`. -/
def maxTokenLen : Nat := 127

inductive TokenKind
  | none | ident | label | number | string | directive
  deriving DecidableEq, Repr

structure Token where
  kind : TokenKind
  text : Bytes
  deriving DecidableEq, Repr

/-- `count` is the length of `tokens`. -/
structure TokenLine where
  tokens : List Token
  lineNo : Nat
  deriving DecidableEq, Repr

/-- `*p`. -/
def deref (p : Bytes) : Byte := p.headD 0

def isIdentStart (c : Byte) : Bool := isalpha c || c = ch '_' || c = ch '.'

def isIdentCont (c : Byte) : Bool := isalnum c || c = ch '_'

/-- Append a token; `none` if the line already has the maximum number. The text is copied as a
C string, so a NUL that an escape put into `text` ends it. -/
def pushToken (toks : List Token) (kind : TokenKind) (text : Bytes) : Option (List Token) :=
  if maxTokensPerLine ≤ toks.length then none
  else some (toks ++ [⟨kind, (cstr text).take maxTokenLen⟩])

/-- The character a backslash and `esc` stand for. -/
def escapeChar (esc : Byte) : Byte :=
  if esc = ch 'n' then 10
  else if esc = ch 't' then 9
  else if esc = ch 'r' then 13
  else if esc = ch '0' then 0
  else esc

def backslash : Byte := 0x5C

def quote : Byte := 0x22

/-- The separators: white space and commas. -/
def skipSeparators : Bytes → Bytes
  | [] => []
  | c :: cs => if c ≠ 0 ∧ (isspace c ∨ c = ch ',') then skipSeparators cs else c :: cs

/-- The loop over the characters of a string literal, from just after the opening quote, with
`buf` read so far: what is left at the closing quote or the NUL, and the buffer. `none` when the
literal has more than `MAX_TOKEN_LEN` characters. -/
def scanString : Bytes → Bytes → Option (Bytes × Bytes)
  | [], buf => some ([], buf)
  | [c], buf =>
      if c = 0 ∨ c = quote then some ([c], buf)
      else if maxTokenLen ≤ buf.length then none
      else some ([], buf ++ [c])
  | c :: esc :: cs, buf =>
      if c = 0 ∨ c = quote then some (c :: esc :: cs, buf)
      else if maxTokenLen ≤ buf.length then none
      -- An escape is two characters of the line and one of the buffer.
      else if c = backslash ∧ esc ≠ 0 then scanString cs (buf ++ [escapeChar esc])
      else scanString (esc :: cs) (buf ++ [c])

/-- The scanning loops of numbers and identifiers: characters of the class are appended until
one is not of the class or the buffer is full. -/
def scanWhile (cls : Byte → Bool) : Bytes → Bytes → Bytes × Bytes
  | [], buf => ([], buf)
  | c :: cs, buf =>
      if c ≠ 0 ∧ cls c ∧ buf.length < maxTokenLen then scanWhile cls cs (buf ++ [c])
      else (c :: cs, buf)

/-- The number branch is taken at a digit, or at a sign that a digit follows. -/
def startsNumber (p : Bytes) : Bool :=
  isdigit (deref p) ||
  (deref p = ch '-' && isdigit (deref p.tail)) ||
  (deref p = ch '+' && isdigit (deref p.tail))

/-- Sign and base mark of a number go into the buffer before the scanning loop. -/
def scanNumber (p : Bytes) : Bytes × Bytes :=
  let (p, buf) :=
    if deref p = ch '-' ∨ deref p = ch '+' then (p.tail, [deref p]) else (p, ([] : Bytes))
  let (p, buf) :=
    if deref p = ch '0' ∧ (deref p.tail = ch 'x' ∨ deref p.tail = ch 'X' ∨
        deref p.tail = ch 'b' ∨ deref p.tail = ch 'B') then
      (p.tail.tail, buf ++ [deref p, deref p.tail])
    else (p, buf)
  scanWhile isalnum p buf

/-- The first character of an identifier may be a dot, the others may not. -/
def scanIdent (p : Bytes) : Bytes × Bytes :=
  if deref p = ch '.' then scanWhile isIdentCont p.tail [ch '.']
  else scanWhile isIdentCont p []

def unexpectedCharacter (c : Byte) : Bytes :=
  ascii "unexpected character '" ++ [c] ++ ascii "' (0x" ++ fmt02X c ++ ascii ")"

/-- The main loop of `lex_line`. -/
def lexLoop (lineNo : Nat) : Nat → Bytes → List Token → List Token × Option Diag
  | 0, _, toks => (toks, none)
  | fuel + 1, p, toks =>
      let fail (toks : List Token) (msg : Bytes) : List Token × Option Diag :=
        (toks, some ⟨lineNo, .internal, msg⟩)
      let p := skipSeparators p
      if deref p = 0 ∨ deref p = ch ';' then (toks, none)
      else if deref p = quote then
        match scanString p.tail [] with
        | none => fail toks (ascii "string literal too long")
        | some (p, buf) =>
            if deref p ≠ quote then fail toks (ascii "unterminated string literal")
            else
              match pushToken toks .string buf with
              | none => fail toks (ascii "too many tokens")
              | some toks => lexLoop lineNo fuel p.tail toks
      else if startsNumber p then
        let (p, buf) := scanNumber p
        match pushToken toks .number buf with
        | none => fail toks (ascii "too many tokens")
        | some toks => lexLoop lineNo fuel p toks
      else if isIdentStart (deref p) then
        let isDirective := deref p = ch '.'
        let (p, buf) := scanIdent p
        -- Before a colon a directive is a label too.
        if deref p = ch ':' then
          match pushToken toks .label buf with
          | none => fail toks (ascii "too many tokens")
          | some toks => lexLoop lineNo fuel p.tail toks
        else
          match pushToken toks (if isDirective then .directive else .ident) buf with
          | none => fail toks (ascii "too many tokens")
          | some toks => lexLoop lineNo fuel p toks
      else fail toks (unexpectedCharacter (deref p))

def lexLine (src : Bytes) (lineNo : Nat) : TokenLine × Option Diag :=
  let (toks, err) := lexLoop lineNo (src.length + 1) src []
  (⟨toks, lineNo⟩, err)

example : (lexLine (ascii "LOOP: ADDI R5, R5, -1 ; count") 7).1.tokens =
    [⟨.label, ascii "LOOP"⟩, ⟨.ident, ascii "ADDI"⟩, ⟨.ident, ascii "R5"⟩, ⟨.ident, ascii "R5"⟩,
      ⟨.number, ascii "-1"⟩] := by decide

end EduCpu16
