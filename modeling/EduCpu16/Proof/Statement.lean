import EduCpu16.Lib.Traverse
import EduCpu16.Proof.Grammar
import EduCpu16.Source.Statement

/-!
# Records and statements

The parser's record of a line is a statement with a line number (`StmtOf`), and the parser accepts
exactly the lines that are statements (`parseLine_readStmt`).

A record has fields for all kinds of lines, and the parser fills those that the line has. So a
record is not a function of its statement, and `CmdOf` says of each kind of command which fields
hold it. The value field of a `.word` is asked for one thing more: pass 2 stores its number even
where it is a register, and then it is the zero the record started with.
-/

namespace EduCpu16
namespace Proof

open CLib Source

/-! ## The statement of a record

A relation and not a function, since a record says more than its statement: the line it is from, and
fields that no kind of line reads. -/

/-- The operand is the argument. The fields of the other kinds are left open, since nothing that is
read from an operand depends on them. -/
def ArgOf (o : Operand) : Arg → Prop
  | .reg r => o.kind = .reg ∧ o.reg = r
  | .imm v => o.kind = .imm ∧ o.imm = v
  | .name n => o.kind = .label ∧ o.label = n

/-- The fields a command is read from. -/
def CmdOf (pl : ParsedLine) : Cmd → Prop
  | .nothing => pl.kind = .empty ∨ pl.kind = .label
  | .instr m args =>
      pl.kind = .instr ∧ pl.instr.mnemonic.map tolower = m ∧ args.length ≤ 3 ∧
      pl.instr.nops = args.length ∧
      ∀ (k : Fin 3) (a : Arg), args[k.val]? = some a → ArgOf (pl.instr.ops k) a
  | .word v =>
      pl.kind = .directive ∧ pl.dir.kind = .word ∧ ArgOf pl.dir.value v ∧
      (pl.dir.value.kind = .reg → pl.dir.value.imm = 0)
  | .ascii s =>
      pl.kind = .directive ∧ pl.dir.kind = .ascii ∧ s.length ≤ maxTokenLen ∧
      pl.dir.str = s ∧ pl.dir.strLen = s.length
  | .org v => pl.kind = .directive ∧ pl.dir.kind = .org ∧ pl.dir.value.imm = v
  | .equ n v =>
      pl.kind = .directive ∧ pl.dir.kind = .equ ∧ pl.dir.name = n ∧ pl.dir.value.imm = v

structure StmtOf (pl : ParsedLine) (s : Stmt) : Prop where
  label : pl.label = s.label
  cmd : CmdOf pl s.cmd

/-- A label is a name. -/
theorem ArgOf.of_label {o : Operand} {a : Arg} (h : ArgOf o a) (hk : o.kind = .label) :
    a = .name o.label := by
  cases a with
  | name n => rw [h.2]
  | reg r => cases hk.symm.trans h.1
  | imm v => cases hk.symm.trans h.1

theorem CmdOf.exists_operand {pl : ParsedLine} {m : Bytes} {args : List Arg}
    (h : CmdOf pl (.instr m args)) {a : Arg} (ha : a ∈ args) :
    ∃ k : Fin 3, k.val < pl.instr.nops ∧ ArgOf (pl.instr.ops k) a := by
  obtain ⟨-, -, hmax, hnops, hops⟩ := h
  obtain ⟨j, hj, rfl⟩ := List.getElem_of_mem ha
  refine ⟨⟨j, by omega⟩, ?_, hops ⟨j, by omega⟩ _ (List.getElem?_eq_getElem hj)⟩
  rw [hnops]
  exact hj

theorem CmdOf.exists_arg {pl : ParsedLine} {m : Bytes} {args : List Arg}
    (h : CmdOf pl (.instr m args)) {k : Fin 3} (hk : k.val < pl.instr.nops) :
    ∃ a ∈ args, ArgOf (pl.instr.ops k) a := by
  obtain ⟨-, -, -, hnops, hops⟩ := h
  rw [hnops] at hk
  exact ⟨_, List.getElem_mem hk, hops k _ (List.getElem?_eq_getElem hk)⟩

/-- Only an instruction is recorded as one. -/
theorem cmd_of_instr {pl : ParsedLine} {c : Cmd} (h : CmdOf pl c) (hk : pl.kind = .instr) :
    ∃ m args, c = .instr m args := by
  cases c with
  | instr m args => exact ⟨m, args, rfl⟩
  | nothing => rcases h with h | h <;> cases hk.symm.trans h
  | word | ascii | org | equ => cases hk.symm.trans h.1

/-! ## Operands

An operand is an argument, a token that is none is refused, and the two are asked for the same
conditions. -/

theorem readArg_isSome {t : Token} : (readArg t).isSome = true ↔ IsOperand t := by
  unfold readArg IsOperand IsNumber
  cases hk : t.kind
  case number => simp
  case ident => simp
  all_goals simp

theorem argOf_of_holds {o : Operand} {t : Token} {a : Arg} (h : Holds o t)
    (ha : readArg t = some a) : ArgOf o a := by
  unfold Holds at h
  unfold readArg at ha
  cases hk : t.kind
  case number =>
    simp only [hk] at h ha
    rw [h.2] at ha
    obtain rfl := Option.some.inj ha
    exact ⟨h.1, rfl⟩
  case ident =>
    simp only [hk] at h ha
    cases hr : parseRegister t.text with
    | none =>
      simp only [hr] at h ha
      obtain rfl := Option.some.inj ha
      exact h
    | some r =>
      simp only [hr] at h ha
      obtain rfl := Option.some.inj ha
      exact h
  all_goals
    simp only [hk] at h

/-- `fill_value_operand` fails, or leaves what the token says. -/
theorem fillValueOperand_readArg {t : Token} (hlen : t.text.length ≤ maxTokenLen)
    (op : Operand) : (fillValueOperand t op = none ∧ readArg t = none) ∨
      ∃ o a, fillValueOperand t op = some o ∧ readArg t = some a ∧ ArgOf o a ∧
        (o.kind = .reg → o.imm = op.imm) := by
  cases hfill : fillValueOperand t op with
  | none =>
    refine .inl ⟨rfl, ?_⟩
    have hno : ¬ IsOperand t := by
      rw [← fillValueOperand_isSome op, hfill]
      decide
    rw [← readArg_isSome] at hno
    exact Option.not_isSome_iff_eq_none.mp hno
  | some o =>
    have hyes : IsOperand t := by
      rw [← fillValueOperand_isSome op, hfill]
      rfl
    obtain ⟨a, ha⟩ := Option.isSome_iff_exists.mp (readArg_isSome.mpr hyes)
    refine .inr ⟨o, a, rfl, ha, argOf_of_holds (fillValueOperand_holds hlen hfill) ha, ?_⟩
    intro hreg
    rcases fillValueOperand_cases hfill with ⟨-, v, -, rfl⟩ | ⟨-, r, -, rfl⟩ | ⟨-, -, rfl⟩
    · cases hreg
    · rfl
    · cases hreg

/-! ## Commands

The instruction, and the four directives with one statement for all of them, `Agrees`: the parser
fails where reading does, and otherwise the record is that of the command. -/

section Commands

variable (lineNo : Nat)

theorem parseInstruction_readArgs {head : Token} {args : List Token} (out : ParsedLine)
    (hhead : head.text.length ≤ maxTokenLen) (hargs : ∀ t ∈ args, t.text.length ≤ maxTokenLen) :
    ((parseInstruction lineNo head args out).2 = none ↔
      args.length ≤ 3 ∧ (args.mapM readArg).isSome = true) ∧
    ∀ as, (parseInstruction lineNo head args out).2 = none → args.mapM readArg = some as →
      CmdOf (parseInstruction lineNo head args out).1 (.instr (head.text.map tolower) as) := by
  have hone : ∀ t, (readArg t).isSome = true ↔ IsOperand t := fun _ => readArg_isSome
  refine ⟨?_, ?_⟩
  · rw [parseInstruction, parseOperands_none_iff, Traverse.isSome_mapM_iff]
    simp only [hone, Nat.zero_add, Nat.zero_le, Nat.max_eq_right]
  · intro as hok has
    have hboth := Traverse.mapM_eq_some_iff.mp has
    have hlen := hboth.length_eq
    obtain ⟨hmax, -⟩ := (parseOperands_none_iff lineNo args _ 0).mp hok
    obtain ⟨hnops, -, hops⟩ := parseOperands_holds lineNo args _ 0 hargs hok
    obtain ⟨i, hframe⟩ := parseOperands_frame lineNo args
      { out with kind := .instr, instr.mnemonic := copyTok head.text } 0
    have hmnem := parseOperands_mnemonic lineNo args
      { out with kind := .instr, instr.mnemonic := copyTok head.text } 0
    refine ⟨?_, ?_, by omega, ?_, ?_⟩
    · rw [parseInstruction, hframe]
    · rw [parseInstruction, hmnem]
      exact congrArg _ (List.take_of_length_le hhead)
    · rw [parseInstruction, hnops, Nat.zero_add, hlen]
    · intro k a ha
      obtain ⟨t, ht, hta⟩ := Traverse.forall₂_getElem? hboth ha
      exact argOf_of_holds (hops k k.val t (Nat.zero_add _).symm ht) hta

theorem readDirName_eq_some {text : Bytes} {k : DirectiveKind} :
    readDirName text = some k ↔ text.map tolower = dirName k := by
  constructor
  · intro h
    simpa using List.find?_some h
  · intro h
    cases hfind : readDirName text with
    | none =>
      have hall := List.find?_eq_none.mp hfind k (by cases k <;> decide)
      exact absurd h (by simpa using hall)
    | some k' =>
      have hk' : text.map tolower = dirName k' := by simpa using List.find?_some hfind
      rw [dirName_injective (hk'.symm.trans h)]

/-- What a directive's parser and the reading of its arguments agree on. -/
def Agrees (r : ParsedLine × Option Diag) (c? : Option Cmd) : Prop :=
  (r.2 = none ↔ c?.isSome = true) ∧ ∀ c, c? = some c → CmdOf r.1 c

theorem agrees_none {r : ParsedLine × Option Diag} (h : r.2 ≠ none) : Agrees r none :=
  ⟨iff_of_false h Bool.false_ne_true, fun _ hc => by cases hc⟩

theorem agrees_fail {pl : ParsedLine} {d : Diag} : Agrees (pl, some d) none :=
  agrees_none (Option.some_ne_none d)

theorem agrees_done {pl : ParsedLine} {c : Cmd} (h : CmdOf pl c) : Agrees (pl, none) (some c) :=
  ⟨iff_of_true rfl rfl, fun _ hc => Option.some.inj hc ▸ h⟩

section Directives

variable {args : List Token} (out : ParsedLine) (hkind : out.kind = .directive)
  (hargs : ∀ t ∈ args, t.text.length ≤ maxTokenLen)
include hkind hargs

theorem parseOrg_agrees : Agrees (parseOrg lineNo args out) (readDir .org args) := by
  cases args with
  | nil => exact agrees_fail
  | cons t rest =>
    simp only [parseOrg, readDir]
    rcases fillValueOperand_readArg (hargs t List.mem_cons_self) out.dir.value with
      ⟨hfill, hread⟩ | ⟨o, a, hfill, hread, hof, himm⟩
    · simp only [hfill, hread]
      exact agrees_fail
    · simp only [hfill, hread]
      cases a with
      | imm v =>
        rw [if_pos hof.1]
        exact agrees_done ⟨hkind, rfl, hof.2⟩
      | reg r =>
        rw [if_neg (by rw [hof.1]; decide)]
        exact agrees_fail
      | name n =>
        rw [if_neg (by rw [hof.1]; decide)]
        exact agrees_fail

theorem parseWord_agrees (hzero : out.dir.value.imm = 0) :
    Agrees (parseWord lineNo args out) (readDir .word args) := by
  cases args with
  | nil => exact agrees_fail
  | cons t rest =>
    simp only [parseWord, readDir]
    rcases fillValueOperand_readArg (hargs t List.mem_cons_self) out.dir.value with
      ⟨hfill, hread⟩ | ⟨o, a, hfill, hread, hof, himm⟩
    · simp only [hfill, hread]
      exact agrees_fail
    · simp only [hfill, hread]
      exact agrees_done ⟨hkind, rfl, hof, fun hreg => (himm hreg).trans hzero⟩

theorem parseAscii_agrees : Agrees (parseAscii lineNo args out) (readDir .ascii args) := by
  cases args with
  | nil => exact agrees_fail
  | cons t rest =>
    obtain ⟨kind, text⟩ := t
    have hmax : text.length ≤ maxTokenLen := hargs _ List.mem_cons_self
    cases kind
    case string =>
      simp only [parseAscii, readDir, Nat.min_eq_left hmax]
      exact agrees_done ⟨hkind, rfl, hmax, List.take_length, rfl⟩
    all_goals exact agrees_fail

theorem parseEqu_agrees : Agrees (parseEqu lineNo args out) (readDir .equ args) := by
  match args, hargs with
  | [], _ => exact agrees_fail
  | [n], _ =>
    obtain ⟨kind, text⟩ := n
    cases kind <;> exact agrees_fail
  | ⟨kind, name⟩ :: ⟨kind', text⟩ :: rest, hargs =>
    have hmax : name.length ≤ maxTokenLen := hargs _ List.mem_cons_self
    by_cases hk : kind = .ident ∧ kind' = .number
    · obtain ⟨rfl, rfl⟩ := hk
      simp only [parseEqu, readDir, and_self, if_true]
      cases hv : parseNumber text with
      | none => exact agrees_fail
      | some v => exact agrees_done ⟨hkind, rfl, List.take_of_length_le hmax, rfl⟩
    · have hnone : readDir .equ (⟨kind, name⟩ :: ⟨kind', text⟩ :: rest) = none := if_neg hk
      rw [hnone]
      cases kind <;> cases kind' <;> first | exact agrees_fail | exact absurd ⟨rfl, rfl⟩ hk

/-- **The parser of each directive** takes the arguments the statement is read from. -/
theorem dirParser_agrees (hzero : out.dir.value.imm = 0) (k : DirectiveKind) :
    Agrees (dirParser k lineNo args out) (readDir k args) := by
  cases k with
  | org => exact parseOrg_agrees lineNo out hkind hargs
  | word => exact parseWord_agrees lineNo out hkind hargs hzero
  | ascii => exact parseAscii_agrees lineNo out hkind hargs
  | equ => exact parseEqu_agrees lineNo out hkind hargs

end Directives

/-- What follows the label. -/
theorem parseHead_agrees {head : Token} {args : List Token} (out : ParsedLine)
    (hzero : out.dir.value.imm = 0)
    (htext : ∀ t ∈ head :: args, t.text.length ≤ maxTokenLen) :
    Agrees (parseHead lineNo head args out) (readCmd (head :: args)) := by
  obtain ⟨hhead, hargs⟩ := List.forall_mem_cons.mp htext
  cases hk : head.kind
  case ident =>
    have hparse : parseHead lineNo head args out = parseInstruction lineNo head args out := by
      rw [parseHead, hk]
    obtain ⟨hiff, hof⟩ := parseInstruction_readArgs lineNo out hhead hargs
    simp only [readCmd, hk]
    rw [hparse]
    -- The parser counts the arguments before it looks at any, and the reading does not count.
    by_cases hmax : args.length ≤ 3
    · rw [if_pos hmax]
      cases has : args.mapM readArg with
      | none =>
        rw [has] at hiff
        exact agrees_none fun h => Bool.false_ne_true (hiff.mp h).2
      | some as =>
        rw [has] at hiff
        have hok := hiff.mpr ⟨hmax, rfl⟩
        exact ⟨iff_of_true hok rfl, fun c hc => Option.some.inj hc ▸ hof as hok has⟩
    · rw [if_neg hmax]
      exact agrees_none fun h => hmax (hiff.mp h).1
  case directive =>
    have hparse : parseHead lineNo head args out = parseDirective lineNo head args out := by
      rw [parseHead, hk]
    simp only [readCmd, hk]
    rw [hparse]
    cases hdir : readDirName head.text with
    | none =>
      have hunknown : ∀ k, head.text.map tolower ≠ dirName k := by
        intro k hname
        rw [readDirName_eq_some.mpr hname] at hdir
        cases hdir
      exact agrees_none (parseDirective_unknown lineNo head args out hunknown)
    | some k =>
      rw [parseDirective_of_name lineNo head args out (readDirName_eq_some.mp hdir)]
      exact dirParser_agrees lineNo { out with kind := .directive } rfl hargs hzero k
  -- No other token can begin a command.
  all_goals
    simp only [parseHead, readCmd, hk]
    exact agrees_fail

end Commands

/-! ## Lines

The lexer has promised that no text is too long for its field, so nothing is cut when it is copied.
-/

/-- **The lines the parser accepts are those that are statements**, and their records are the
statements. -/
theorem parseLine_readStmt {tl : TokenLine} (htext : ∀ t ∈ tl.tokens, t.text.length ≤ maxTokenLen) :
    ((parseLine tl).2 = none ↔ (readStmt tl.tokens).isSome = true) ∧
    ∀ s, readStmt tl.tokens = some s → StmtOf (parseLine tl).1 s := by
  obtain ⟨tokens, lineNo⟩ := tl
  cases tokens with
  | nil => exact ⟨iff_of_true rfl rfl, fun s hs => Option.some.inj hs ▸ ⟨rfl, .inl rfl⟩⟩
  | cons t rest =>
    obtain ⟨ht, hrest⟩ := List.forall_mem_cons.mp htext
    by_cases hkind : t.kind = .label
    · have hcopy : copyTok t.text = t.text := List.take_of_length_le ht
      simp only [readStmt, splitLabel, if_pos hkind, Option.isSome_map]
      cases rest with
      | nil =>
        rw [parseLine_alone lineNo hkind]
        exact ⟨iff_of_true rfl rfl, fun s hs => Option.some.inj hs ▸ ⟨hcopy, .inr rfl⟩⟩
      | cons head args =>
        obtain ⟨hiff, hof⟩ := parseHead_agrees lineNo
          { lineNo := lineNo, label := copyTok t.text } rfl hrest
        rw [parseLine_labelled lineNo hkind]
        refine ⟨hiff, fun s hs => ?_⟩
        obtain ⟨c, hc, rfl⟩ := Option.map_eq_some_iff.mp hs
        exact ⟨(parseHead_label lineNo head args _).trans hcopy, hof c hc⟩
    · obtain ⟨hiff, hof⟩ := parseHead_agrees lineNo { lineNo := lineNo } rfl htext
      rw [parseLine_unlabelled lineNo hkind]
      simp only [readStmt, splitLabel, if_neg hkind, Option.isSome_map]
      refine ⟨hiff, fun s hs => ?_⟩
      obtain ⟨c, hc, rfl⟩ := Option.map_eq_some_iff.mp hs
      exact ⟨parseHead_label lineNo t rest _, hof c hc⟩

end Proof
end EduCpu16
