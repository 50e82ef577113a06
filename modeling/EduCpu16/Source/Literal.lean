import EduCpu16.Assembler.Lexer
import EduCpu16.Isa

/-!
# String literals

The bytes a double-quoted literal denotes, and what it is for words in memory to hold them.

`Denotes` reads the body of a literal from the left, a character or an escape at a time. A quote or
a backslash stands for itself only behind a backslash, and the NUL, which ends the line, is no part
of any literal; but an escape may denote it.
-/

namespace EduCpu16
namespace Source

open CLib

/-- What stands between the quotes, and the bytes it denotes. -/
inductive Denotes : Bytes → Bytes → Prop
  | nil : Denotes [] []
  | char {c : Byte} {body s : Bytes} (hzero : c ≠ 0) (hquote : c ≠ quote)
      (hback : c ≠ backslash) (hrest : Denotes body s) : Denotes (c :: body) (c :: s)
  | escape {e : Byte} {body s : Bytes} (hzero : e ≠ 0) (hrest : Denotes body s) :
      Denotes (backslash :: e :: body) (escapeChar e :: s)

/-- `.ascii "body"`. -/
def asciiSrc (body : Bytes) : Bytes := ascii ".ascii " ++ quote :: (body ++ [quote])

/-- The bytes of a sequence of words, low byte first. -/
def unpack (words : List Word) : Bytes :=
  words.flatMap fun w : Word => [w.setWidth 8, (w >>> 8).setWidth 8]

/-- The words are as many as the text and its terminator need, and hold the text, a zero byte and
at most one zero byte more. -/
def HoldsText (words : List Word) (s : Bytes) : Prop :=
  words.length = (s.length + 2) / 2 ∧
  ∃ pad, (pad = [] ∨ pad = [0]) ∧ unpack words = s ++ [0] ++ pad

end Source
end EduCpu16
