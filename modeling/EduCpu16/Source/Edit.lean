import EduCpu16.Source.Statement

/-!
# Edits of a source

What it is to write a source in another way: with a constant replaced by a literal.

The replacement is on tokens. It leaves alone what is not an operand, a label or a mnemonic that
happens to be the same word, and instructions and `.word` lines may get different literals. How the
new line is spelled is not said: any line with these tokens will do.
-/

namespace EduCpu16
namespace Source

open CLib

/-! ## A constant written out -/

/-- The occurrences of a name among operands, replaced by a literal. -/
def replaceOperands (name : Bytes) (lit : Token) (args : List Token) : List Token :=
  args.map fun t => if t = ⟨.ident, name⟩ then lit else t

/-- Instructions and `.word` have such operands. -/
def replaceCmd (name : Bytes) (instrLit wordLit : Token) : List Token → List Token
  | [] => []
  | head :: args =>
      if head.kind = .ident then head :: replaceOperands name instrLit args
      else if head.kind = .directive ∧ readDirName head.text = some .word then
        head :: replaceOperands name wordLit args
      else head :: args

def replaceLine (name : Bytes) (instrLit wordLit : Token) : List Token → List Token
  | [] => []
  | t :: ts =>
      if t.kind = .label then t :: replaceCmd name instrLit wordLit ts
      else replaceCmd name instrLit wordLit (t :: ts)

/-- A line with the constant written out: token for token, where the line can be lexed; any other
line stays as it is. -/
def WrittenOut (name : Bytes) (instrLit wordLit : Token) (src src' : Bytes) : Prop :=
  (∃ ts, lexLine src 0 = (⟨ts, 0⟩, none) ∧
    lexLine src' 0 = (⟨replaceLine name instrLit wordLit ts, 0⟩, none)) ∨
  ((lexLine src 0).2 ≠ none ∧ src' = src)

/-- A number token, read as `v`. -/
def IsLiteral (t : Token) (v : I32) : Prop := t.kind = .number ∧ parseNumber t.text = some v

end Source
end EduCpu16
