import EduCpu16.Assembler.Parser

/-!
# The line grammar

What the tokens of a line may be (`Line`), and what the record of the line has to hold so that no
token is lost (`LineHolds`). Both are stated on the tokens alone, with no reference to how
`parse_line` goes through them.
-/

namespace EduCpu16
namespace Source

open CLib

/-! ## Tokens

By kind and text only. Whether a number fits where it stands is no matter of the grammar. -/

/-- A number token that `parse_number` can read. -/
def IsNumber (t : Token) : Prop := t.kind = .number ∧ (parseNumber t.text).isSome = true

/-- An operand of an instruction: a number or an identifier. -/
def IsOperand (t : Token) : Prop := IsNumber t ∨ t.kind = .ident

/-- A value: a number or an identifier that is not a register name. -/
def IsValue (t : Token) : Prop := IsNumber t ∨ (t.kind = .ident ∧ parseRegister t.text = none)

/-! ## Directives -/

def dirName : DirectiveKind → Bytes
  | .org => ascii ".org"
  | .word => ascii ".word"
  | .ascii => ascii ".ascii"
  | .equ => ascii ".equ"

/-- The arguments of each directive. -/
def DirArgs : DirectiveKind → List Token → Prop
  | .org, [n] => IsNumber n
  | .word, [v] => IsValue v
  | .ascii, [s] => s.kind = .string
  | .equ, [name, n] => name.kind = .ident ∧ IsNumber n
  | _, _ => False

/-- A directive, its name in any case, with its arguments. -/
def DirLine (d : Token) (args : List Token) : Prop :=
  ∃ k, d.text.map tolower = dirName k ∧ DirArgs k args

/-! ## Lines -/

/-- What can follow the label of a line. -/
inductive Body : List Token → Prop
  | instr {head : Token} {args : List Token} (hkind : head.kind = .ident)
      (hlen : args.length ≤ 3) (hargs : ∀ t ∈ args, IsOperand t) : Body (head :: args)
  | dir {d : Token} {args : List Token} (hkind : d.kind = .directive) (hdir : DirLine d args) :
      Body (d :: args)

inductive Line : List Token → Prop
  | empty : Line []
  | label {t : Token} (hkind : t.kind = .label) : Line [t]
  | body {ts : List Token} (hbody : Body ts) : Line ts
  | labelled {t : Token} {ts : List Token} (hkind : t.kind = .label) (hbody : Body ts) :
      Line (t :: ts)

/-! ## Records

What a record has to hold for no token of the line to be lost. -/

/-- The operand is what the token says. -/
def Holds (o : Operand) (t : Token) : Prop :=
  match t.kind with
  | .number => o.kind = .imm ∧ parseNumber t.text = some o.imm
  | .ident =>
      match parseRegister t.text with
      | some r => o.kind = .reg ∧ o.reg = r
      | none => o.kind = .label ∧ o.label = t.text
  | _ => False

def DirHolds (dir : Directive) (args : List Token) : Prop :=
  match dir.kind, args with
  | .org, [n] => Holds dir.value n
  | .word, [v] => Holds dir.value v
  | .ascii, [s] => dir.str = s.text ∧ dir.strLen = s.text.length
  | .equ, [name, n] => dir.name = name.text ∧ Holds dir.value n
  | _, _ => False

/-- Every token is in the record: the head as mnemonic or directive, the rest as operands. -/
inductive BodyHolds (pl : ParsedLine) : List Token → Prop
  | instr {head : Token} {args : List Token} (hkind : pl.kind = .instr)
      (hmnem : pl.instr.mnemonic = head.text) (hnops : pl.instr.nops = args.length)
      (hops : ∀ (k : Fin 3) (t : Token), args[k.val]? = some t → Holds (pl.instr.ops k) t) :
      BodyHolds pl (head :: args)
  | dir {d : Token} {args : List Token} (hkind : pl.kind = .directive)
      (hname : d.text.map tolower = dirName pl.dir.kind) (hargs : DirHolds pl.dir args) :
      BodyHolds pl (d :: args)

inductive LineHolds (pl : ParsedLine) : List Token → Prop
  | empty (hkind : pl.kind = .empty) : LineHolds pl []
  | label {t : Token} (hkind : pl.kind = .label) (hlabel : pl.label = t.text) : LineHolds pl [t]
  | body {ts : List Token} (hlabel : pl.label = []) (hbody : BodyHolds pl ts) : LineHolds pl ts
  | labelled {t : Token} {ts : List Token} (hlabel : pl.label = t.text)
      (hbody : BodyHolds pl ts) : LineHolds pl (t :: ts)

/-! ## Two ways to lose a token

They are described on their own because the parser accepts them: they are no lines of the grammar.
-/

/-- A directive whose own arguments are in order and which has more tokens after them. -/
def Trailing (d : Token) (rest : List Token) : Prop :=
  ∃ args extra, rest = args ++ extra ∧ extra ≠ [] ∧ DirLine d args

/-- A `.word` with a register name for its value. -/
def RegisterWord (d : Token) (rest : List Token) : Prop :=
  d.text.map tolower = dirName .word ∧
  ∃ t extra, rest = t :: extra ∧ t.kind = .ident ∧ (parseRegister t.text).isSome = true

def BodyLoses : List Token → Prop
  | [] => False
  | d :: rest => d.kind = .directive ∧ (Trailing d rest ∨ RegisterWord d rest)

/-- Behind its optional label the line is a directive of one of the two kinds. -/
def LineLoses (toks : List Token) : Prop :=
  BodyLoses toks ∨ ∃ t rest, toks = t :: rest ∧ t.kind = .label ∧ BodyLoses rest

end Source
end EduCpu16
