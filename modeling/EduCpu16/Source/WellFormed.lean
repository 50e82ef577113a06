import EduCpu16.Source.Statement

/-!
# Well-formed programs

The static semantics of the assembly language: which lists of statements are programs. It knows
nothing of passes, tables or error codes. An operand has a value or not (`Arg.value`), an operation
wants operands of certain kinds (`wants`), and names are defined once. Everything is decided on the
statements, with no word of the image in sight.
-/

namespace EduCpu16
namespace Source

open CLib

/-! ## Operands

Values are integers. So what an operation wants is said without the width of a field or the wrapping
of a subtraction. -/

/-- The number an operand stands for. A register stands for none. -/
def Arg.value (env : Env) : Arg → Option Int
  | .reg _ => none
  | .imm v => some v.toInt
  | .name n => (env n).map fun a => (a.toNat : Int)

def IsReg (a : Arg) : Prop := ∃ r, a = .reg r

/-- A number between two bounds, counted from a base. -/
def Between (env : Env) (base lo hi : Int) (a : Arg) : Prop :=
  ∃ v, a.value env = some v ∧ lo ≤ v - base ∧ v - base ≤ hi

/-- What the instruction at `pc` wants of its operands, one after the other. A jump wants a target
that is near, counted from the next instruction. -/
def wants (env : Env) (pc : Word) : Opcode → List (Arg → Prop)
  | .add | .sub | .and | .or | .xor | .shl | .shr => [IsReg, IsReg, IsReg]
  | .not | .cmp => [IsReg, IsReg]
  | .addi | .lw | .sw => [IsReg, IsReg, Between env 0 (-16) 15]
  | .mov => [IsReg, Between env 0 (-16) 15]
  | .jmp | .jeq | .jne | .jlt | .jgt | .call => [Between env (pc.toNat + 1) (-1024) 1023]
  | .ret | .halt => []

/-! ## Names that are used -/

def Arg.name? : Arg → Option Bytes
  | .name n => some n
  | .reg _ | .imm _ => none

def Cmd.uses : Cmd → List Bytes
  | .instr _ args => args.filterMap Arg.name?
  | .word v => v.name?.toList
  | .nothing | .ascii _ | .org _ | .equ _ _ => []

/-- The names a line uses, if it is a statement. -/
def lineUses (src : Bytes) : List Bytes :=
  match lexLine src 1 with
  | (tl, none) => (readStmt tl.tokens).elim [] fun s => s.cmd.uses
  | (_, some _) => []

/-- The names a source uses, in order. -/
def usedNames (lines : List Bytes) : List Bytes := lines.flatMap lineUses

example : usedNames [ascii "L: jmp L", ascii ".word X", ascii "ADDI R1, R1, K"] =
    [ascii "L", ascii "X", ascii "K"] := by decide

/-! ## Programs

The three conditions: names are defined once, they are not more than the table takes, and every
command may stand where it does. -/

/-- A command that may stand at an address. -/
def Cmd.WellFormed (env : Env) (pc : Word) : Cmd → Prop
  | .instr m args =>
      ∃ o, readMnemonic m = some o ∧ List.Forall₂ (fun P a => P a) (wants env pc o) args
  | .word v => ∀ n, v = .name n → (env n).isSome = true
  | .org v => 0 ≤ v.toInt ∧ v.toInt ≤ 0xFFFF
  | .nothing | .ascii _ | .equ _ _ => True

/-- The value of a name, where it is first defined. -/
def valueOf (ss : List Stmt) : Env := fun n =>
  ((symbols ss).find? fun d => d.1 = n).map Prod.snd

/-- A program: names are defined once, there is room in the table for them, and each command may
stand at its address. The capacity is the one bound of the implementation that is visible in the
language. -/
structure WellFormed (ss : List Stmt) : Prop where
  once : ((symbols ss).map Prod.fst).Nodup
  room : (symbols ss).length ≤ symCapacity
  commands : ∀ p ∈ placed 0 ss, p.2.cmd.WellFormed (valueOf ss) p.1

end Source
end EduCpu16
