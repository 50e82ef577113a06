import EduCpu16.Assembler.Assembler
import EduCpu16.Lib.Layout
import EduCpu16.Source.Grammar
import EduCpu16.Source.Machine

/-!
# Statements

The abstract syntax of a source: each line is an optional label and a command, with no text, no
line number and no address left in it. `readStmt` reads the tokens of a line; `Cmd.words` is what
a command assembles to at an address, in an environment that gives names their values; and
`placed` puts the statements of a source at their addresses.

Two sources with the same statements are the same program, however they are written.
-/

namespace EduCpu16
namespace Source

open CLib

/-! ## Syntax -/

inductive Arg
  | reg (r : Byte)
  | imm (v : I32)
  | name (n : Bytes)
  deriving DecidableEq, Repr

/-- A mnemonic is kept in lower case. -/
inductive Cmd
  | nothing
  | instr (mnemonic : Bytes) (args : List Arg)
  | word (value : Arg)
  | ascii (text : Bytes)
  | org (v : I32)
  | equ (name : Bytes) (v : I32)
  deriving DecidableEq, Repr

/-- The label is empty where there is none. -/
structure Stmt where
  label : Bytes := []
  cmd : Cmd := .nothing
  deriving DecidableEq, Repr

/-! ## Reading tokens

A total function from tokens to statements, with no record and no diagnostics. It is written from
the syntax, and that the parser agrees with it is proved. -/

def readArg (t : Token) : Option Arg :=
  match t.kind with
  | .number => (parseNumber t.text).map .imm
  | .ident => some ((parseRegister t.text).elim (.name t.text) .reg)
  | _ => none

/-- The directive of a name, in any case. -/
def readDirName (text : Bytes) : Option DirectiveKind :=
  [DirectiveKind.org, .word, .ascii, .equ].find? fun k => text.map tolower = dirName k

/-- A directive takes its arguments from the front. -/
def readDir : DirectiveKind → List Token → Option Cmd
  | .org, t :: _ =>
      match readArg t with
      | some (.imm v) => some (.org v)
      | _ => none
  | .word, t :: _ => (readArg t).map .word
  | .ascii, t :: _ => if t.kind = .string then some (.ascii t.text) else none
  | .equ, n :: t :: _ =>
      if n.kind = .ident ∧ t.kind = .number then (parseNumber t.text).map (.equ n.text) else none
  | _, _ => none

def readCmd : List Token → Option Cmd
  | [] => some .nothing
  | head :: args =>
      match head.kind with
      | .ident =>
          if args.length ≤ 3 then (args.mapM readArg).map (.instr (head.text.map tolower)) else none
      | .directive => (readDirName head.text).bind fun k => readDir k args
      | _ => none

/-- The label a line starts with, if it starts with one, and what follows. -/
def splitLabel : List Token → Bytes × List Token
  | [] => ([], [])
  | t :: ts => if t.kind = .label then (t.text, ts) else ([], t :: ts)

def readStmt (ts : List Token) : Option Stmt :=
  (readCmd (splitLabel ts).2).map fun c => ⟨(splitLabel ts).1, c⟩

/-! ## Meaning

In an environment for the names and at an address a command has words, or has none if it does not
assemble. The environment is a function, with no table behind it. -/

/-- A name as its value. -/
def Arg.resolve (env : Env) : Arg → Option Arg
  | .name n => (env n).map fun a => .imm (a.setWidth 32)
  | a => some a

def Arg.operand : Arg → Operand
  | .reg r => { kind := .reg, reg := r }
  | .imm v => { kind := .imm, imm := v }
  | .name n => { kind := .label, label := n }

/-- The instruction of a mnemonic and its operands. -/
def instrOf (mnemonic : Bytes) (args : List Arg) : Instr where
  mnemonic := mnemonic
  ops := fun k => (args[k.val]?).elim {} Arg.operand
  nops := args.length

/-- What a command is to the location counter. -/
def Cmd.item : Cmd → Layout.Item
  | .nothing | .equ _ _ => .words 0
  | .instr _ _ | .word _ => .words 1
  | .ascii s => .words ((s.length + 2) / 2)
  | .org v => .org v.toNat

/-- The operand of a `.org` is an address. -/
def Cmd.InRange : Cmd → Prop
  | .org v => 0 ≤ v.toInt ∧ v.toInt ≤ 0xFFFF
  | _ => True

/-- The words of a command at an address; `none` when it cannot be assembled. For an instruction
this is what `encode_instr` makes of the resolved operands: the instruction format is a subject of
its own, and the encoder's results are stated apart from those about the passes. -/
def Cmd.words (env : Env) (addr : Word) : Cmd → Option (List Word)
  | .instr m args =>
      (args.mapM (Arg.resolve env)).bind fun args =>
        let r := encodeInstr (instrOf m args) addr 0
        if r.1 = .ok then some [r.2] else none
  | .word v => (v.resolve env).map fun v => [v.operand.imm.setWidth 16]
  | .ascii s => some ((asciiLoop s s.length (s.length + 1) 0 0).map Prod.snd)
  | .nothing | .org _ | .equ _ _ => some []

/-- The symbols a statement defines at an address. -/
def Stmt.defs (s : Stmt) (addr : Word) : List (Bytes × Word) :=
  (if s.label ≠ [] then [(s.label, addr)] else []) ++
  match s.cmd with
  | .equ n v => [(n, v.setWidth 16)]
  | _ => []

/-- The statements with their addresses, the counter starting at `c`. -/
def placed (c : Nat) : List Stmt → List (Word × Stmt)
  | [] => []
  | s :: ss => (BitVec.ofNat 16 c, s) :: placed (s.cmd.item.next c) ss

theorem placed_snd (ss : List Stmt) (c : Nat) : (placed c ss).map Prod.snd = ss := by
  induction ss generalizing c with
  | nil => rfl
  | cons s ss ih => rw [placed, List.map_cons, ih]

theorem map_placed {α : Type} (f : Stmt → α) (ss : List Stmt) (c : Nat) :
    (placed c ss).map (fun p => f p.2) = ss.map f := by
  conv_rhs => rw [← placed_snd ss c, List.map_map]
  rfl

theorem mem_of_placed {ss : List Stmt} {c : Nat} {p : Word × Stmt} (hp : p ∈ placed c ss) :
    p.2 ∈ ss := by
  rw [← placed_snd ss c]
  exact List.mem_map_of_mem hp

/-- Every statement has an address. -/
theorem exists_placed {ss : List Stmt} {s : Stmt} (hs : s ∈ ss) (c : Nat) :
    ∃ addr, (addr, s) ∈ placed c ss := by
  rw [← placed_snd ss c] at hs
  obtain ⟨⟨addr, s⟩, hp, rfl⟩ := List.mem_map.mp hs
  exact ⟨addr, hp⟩

/-- The symbols of a source, in the order of their definitions. -/
def symbols (ss : List Stmt) : List (Bytes × Word) :=
  (placed 0 ss).flatMap fun p => p.2.defs p.1

end Source
end EduCpu16
