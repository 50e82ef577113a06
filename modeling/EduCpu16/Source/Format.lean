import EduCpu16.Assembler.SourceFile
import EduCpu16.Lib.Decimal
import EduCpu16.Source.Print
import EduCpu16.Source.Statement

/-!
# Statements, written out

One way to write a statement: its tokens with a blank behind each, mnemonics in lower case and
numbers in decimal. `formatLine` writes a line out afresh so, and `formatFile` a source file.

A line of a file is more than a list of tokens. A string literal may denote a line feed, and written
out as it is the byte would end the line in the middle of the literal; so `writeByte` writes what
ends a line as its escape, where `escaped` writes every byte but backslash and quote as it is.
-/

namespace EduCpu16
namespace Source

open CLib

/-- `R0` to `R7`. -/
def registerName (r : Byte) : Bytes := [ch 'R', ch '0' + r]

def Arg.token : Arg → Token
  | .reg r => ⟨.ident, registerName r⟩
  | .imm v => ⟨.number, signedDecimal v.toInt⟩
  | .name n => ⟨.ident, n⟩

def Cmd.tokens : Cmd → List Token
  | .nothing => []
  | .instr m args => ⟨.ident, m⟩ :: args.map Arg.token
  | .word v => [⟨.directive, dirName .word⟩, v.token]
  | .ascii s => [⟨.directive, dirName .ascii⟩, ⟨.string, s⟩]
  | .org v => [⟨.directive, dirName .org⟩, Arg.token (.imm v)]
  | .equ n v => [⟨.directive, dirName .equ⟩, ⟨.ident, n⟩, Arg.token (.imm v)]

def Stmt.tokens (s : Stmt) : List Token :=
  (if s.label = [] then [] else [⟨.label, s.label⟩]) ++ s.cmd.tokens

/-- A byte of a string: what ends a line or the literal as its escape, the others as they are. -/
def writeByte (b : Byte) : Bytes :=
  if b = newline then [backslash, ch 'n']
  else if b = 13 then [backslash, ch 'r']
  else if b = backslash ∨ b = quote then [backslash, b]
  else [b]

def writeToken (t : Token) : Bytes :=
  match t.kind with
  | .string => quote :: (t.text.flatMap writeByte ++ [quote])
  | _ => printToken t

def printStmt (s : Stmt) : Bytes := s.tokens.flatMap fun t => writeToken t ++ ascii " "

/-- A line that is no statement stays as it is. -/
def formatLine (src : Bytes) : Bytes :=
  match lexLine src 1 with
  | (tl, none) => (readStmt tl.tokens).elim src printStmt
  | (_, some _) => src

/-- A line of the array with a newline behind it. One that fills the buffer had none: it is the
front of a longer line, and reading stops at its end without one. -/
def writeLine (line : Bytes) : Bytes := if line.length = 4095 then line else line ++ [newline]

/-- The lines that the assembler reads of a file, each written out afresh. -/
def formatFile (content : Bytes) : Bytes :=
  match sourceRead content with
  | none => content
  | some sf => (sf.lines.map formatLine).flatMap writeLine

example : formatLine (ascii "LOOP:\tADDI r5,R5,-0x1 ; count") = ascii "LOOP: addi R5 R5 -1 " := by
  decide

example : formatFile (ascii "HALT\r\nA:.ascii \"x\\ny\" ; two\n?") =
    ascii "halt \nA: .ascii \"x\\ny\" \n?\n" := by
  decide +kernel

end Source
end EduCpu16
