import EduCpu16.Assembler.Lexer

/-!
# Printing tokens

The texts a token of each kind can have, and the lines that spell a list of tokens out.

A line may be laid out in any way that keeps its tokens apart: gaps of any white space and commas,
none at the end if one likes, and a comment behind them. `Spelled` is what the lexer can deliver,
put without the lexer.
-/

namespace EduCpu16
namespace Source

open CLib

/-- `[A-Za-z0-9_]`. -/
def IsWordChar (c : Byte) : Prop := isalnum c = true ∨ c = ch '_'

inductive Spelled : TokenKind → Bytes → Prop
  | ident {c : Byte} {cs : Bytes} (hc : isalpha c = true ∨ c = ch '_')
      (hcs : ∀ b ∈ cs, IsWordChar b) : Spelled .ident (c :: cs)
  | directive {cs : Bytes} (hcs : ∀ b ∈ cs, IsWordChar b) : Spelled .directive (ch '.' :: cs)
  | label {kind : TokenKind} {w : Bytes} (hkind : kind = .ident ∨ kind = .directive)
      (hw : Spelled kind w) : Spelled .label w
  | number {sign cs : Bytes} {d : Byte} (hsign : sign ∈ [[], ascii "+", ascii "-"])
      (hd : isdigit d = true) (hcs : ∀ b ∈ cs, isalnum b = true) :
      Spelled .number (sign ++ d :: cs)
  | string {s : Bytes} (hs : ∀ b ∈ s, b ≠ 0) : Spelled .string s

/-- A token that can be written. -/
structure WellSpelled (t : Token) : Prop where
  spelled : Spelled t.kind t.text
  length : t.text.length ≤ maxTokenLen

/-- A backslash before every backslash and quote. -/
def escaped (s : Bytes) : Bytes :=
  s.flatMap fun b => if b = backslash ∨ b = quote then [backslash, b] else [b]

def printToken (t : Token) : Bytes :=
  match t.kind with
  | .label => t.text ++ [ch ':']
  | .string => quote :: (escaped t.text ++ [quote])
  | _ => t.text

/-- White space and commas. -/
def Gap (s : Bytes) : Prop := ∀ c ∈ s, isspace c = true ∨ c = ch ','

/-- The tokens with the gaps behind them. Only the last may be empty. -/
def Spaced : List (Token × Bytes) → Prop
  | [] => True
  | [i] => Gap i.2
  | i :: j :: is => (Gap i.2 ∧ i.2 ≠ []) ∧ Spaced (j :: is)

/-- Nothing, or a comment. -/
def Comment (s : Bytes) : Prop := s = [] ∨ ∃ text, s = ch ';' :: text

/-- A line with a gap before the tokens, one behind each, and a comment. -/
def printLine (lead : Bytes) (items : List (Token × Bytes)) (comment : Bytes) : Bytes :=
  lead ++ (items.flatMap (fun i => printToken i.1 ++ i.2) ++ comment)

end Source
end EduCpu16
