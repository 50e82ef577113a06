import EduCpu16.Proof.Encoder
import EduCpu16.Proof.Passes
import EduCpu16.Proof.Statement

/-!
# The passes on statements

What `assemble_file` makes of a source depends on its statements only. This module is the bridge
from the code's own data (lines, tokens, `ParsedLine` records, an image that is written word by
word) to the language of the sources (`Source/Statement.lean`), and nearly all results about the
assembler go over it.

Pass 1 puts the statements at their addresses and inserts their symbols (`foldl_pass1Line`), which
is an induction on the lines with the location counter as a number. Pass 2 assembles each statement
in the environment of the table pass 1 left (`pass2Line_emits`, one lemma for each kind of command).
Together: a source assembles exactly if its lines are statements that do
(`assembles_iff_statements`), and then to their words (`emitted_eq_stores`).
-/

namespace EduCpu16
namespace Proof

open CLib Source

/-- A line, read as a statement. The lexer delivers at most sixteen tokens, so a line with more is
no statement even if its tokens would read as one. -/
def ReadsAs (src : Bytes) (s : Stmt) : Prop :=
  ∃ ts, Lexes src ts ∧ ts.length ≤ maxTokensPerLine ∧ readStmt ts = some s

/-- What the table has for a name. `symtable_lookup` answers in 32 bits, so that `SYM_NOT_FOUND` is
no address; an answer that is one is cut back to a word. -/
def envOf (t : Symtable) : Env := fun n =>
  if symtableLookup t n = symNotFound then none else some ((symtableLookup t n).setWidth 16)

/-- The return codes of the insertions of pass 1, and the table after them. -/
def tableOf (ss : List Stmt) : List AsmError × Symtable := insertAll symtableReset (symbols ss)

/-- The words of a placed statement, at their addresses. -/
def storesOf (env : Env) (p : Word × Stmt) : List (Word × Word) :=
  let ws := (p.2.cmd.words env p.1).getD []
  (wordsFrom p.1 ws.length).zip ws

/-- All words of a source. -/
def stores (ss : List Stmt) : List (Word × Word) :=
  (placed 0 ss).flatMap (storesOf (envOf (tableOf ss).2))

/-- The statements assemble: the three places where a run counts an error, put as conditions. The
`.org` operands are addresses, every insertion is accepted, and each statement has its words in the
table that all insertions together leave. -/
structure Assembled (ss : List Stmt) : Prop where
  inRange : ∀ s ∈ ss, s.cmd.InRange
  codes : ∀ rc ∈ (tableOf ss).1, rc = .ok
  words : ∀ p ∈ placed 0 ss, (p.2.cmd.words (envOf (tableOf ss).2) p.1).isSome = true

/-! ## One line

The two ways to look at a line: as the record that the parser fills in, and as a statement.
Everything the passes use of the record can be had from the statement. -/

theorem ReadsAs.unique {src : Bytes} {s s' : Stmt} (h : ReadsAs src s) (h' : ReadsAs src s') :
    s = s' := by
  obtain ⟨ts, hts, -, hs⟩ := h
  obtain ⟨ts', hts', -, hs'⟩ := h'
  obtain rfl := hts.unique hts'
  exact Option.some.inj (hs.symm.trans hs')

theorem lexLine_text {src : Bytes} {lineNo : Nat} {tl : TokenLine}
    (h : lexLine src lineNo = (tl, none)) : ∀ t ∈ tl.tokens, t.text.length ≤ maxTokenLen := by
  have htext := lexLine_text_length src lineNo
  rwa [h] at htext

/-- An accepted line is a statement. -/
theorem Accepts.readsAs {src : Bytes} {lineNo : Nat} {pl : ParsedLine}
    (h : Accepts src lineNo pl) : ∃ s, ReadsAs src s ∧ StmtOf pl s := by
  obtain ⟨tl, hlex, hparse⟩ := h
  obtain ⟨hiff, hof⟩ := parseLine_readStmt (lexLine_text hlex)
  rw [hparse] at hiff hof
  obtain ⟨s, hs⟩ := Option.isSome_iff_exists.mp (hiff.mp rfl)
  obtain ⟨-, hts, hmax⟩ := lexLine_iff.mp hlex
  exact ⟨s, ⟨tl.tokens, hts, hmax, hs⟩, hof s hs⟩

/-- And a statement is accepted, on any line. -/
theorem ReadsAs.accepts {src : Bytes} {s : Stmt} (h : ReadsAs src s) (lineNo : Nat) :
    ∃ pl, Accepts src lineNo pl ∧ StmtOf pl s := by
  obtain ⟨ts, hts, hmax, hs⟩ := h
  have hlex : lexLine src lineNo = (⟨ts, lineNo⟩, none) := lexLine_iff.mpr ⟨rfl, hts, hmax⟩
  obtain ⟨hiff, hof⟩ := parseLine_readStmt (lexLine_text hlex)
  refine ⟨(parseLine ⟨ts, lineNo⟩).1, ⟨⟨ts, lineNo⟩, hlex, Prod.ext rfl ?_⟩, hof s hs⟩
  exact hiff.mpr (Option.isSome_iff_exists.mpr ⟨s, hs⟩)

section StmtOf

variable {pl : ParsedLine} {s : Stmt}

theorem StmtOf.isOrg (h : StmtOf pl s) : IsOrg pl ↔ ∃ v, s.cmd = .org v := by
  obtain ⟨label, cmd⟩ := s
  have hcmd := h.cmd
  cases cmd
  case nothing => rcases hcmd with hk | hk <;> simp [IsOrg, hk]
  case instr => simp [IsOrg, hcmd.1]
  all_goals simp [IsOrg, hcmd.1, hcmd.2.1]

theorem StmtOf.isEqu (h : StmtOf pl s) : IsEqu pl ↔ ∃ n v, s.cmd = .equ n v := by
  obtain ⟨label, cmd⟩ := s
  have hcmd := h.cmd
  cases cmd
  case nothing => rcases hcmd with hk | hk <;> simp [IsEqu, hk]
  case instr => simp [IsEqu, hcmd.1]
  all_goals simp [IsEqu, hcmd.1, hcmd.2.1]

/-- The counter sees the command. -/
theorem StmtOf.item (h : StmtOf pl s) : itemOf pl = s.cmd.item := by
  have horg := h.isOrg
  obtain ⟨label, cmd⟩ := s
  have hcmd := h.cmd
  cases cmd
  case nothing =>
    rcases hcmd with hk | hk <;> simp [itemOf, horg, lineSize, hk, Cmd.item]
  case instr => simp [itemOf, horg, lineSize, hcmd.1, Cmd.item]
  case org v => simp [itemOf, horg, hcmd.2.2, Cmd.item]
  case word => simp [itemOf, horg, lineSize, hcmd.1, hcmd.2.1, Cmd.item]
  case equ => simp [itemOf, horg, lineSize, hcmd.1, hcmd.2.1, Cmd.item]
  case ascii text =>
    obtain ⟨hk, hd, hmax, -, hlen⟩ := hcmd
    have hmax : text.length ≤ 127 := hmax
    simp only [itemOf, horg, reduceCtorEq, exists_false, if_false, lineSize, hk, hd, hlen,
      Cmd.item, BitVec.toNat_ofNat]
    congr 1
    omega

theorem StmtOf.inRange (h : StmtOf pl s) : (IsOrg pl → OrgInRange pl) ↔ s.cmd.InRange := by
  have horg := h.isOrg
  obtain ⟨label, cmd⟩ := s
  have hcmd := h.cmd
  cases cmd
  case org v => simp [horg, OrgInRange, hcmd.2.2, Cmd.InRange]
  all_goals simp [horg, Cmd.InRange]

/-- The symbols of the record are those of the statement. -/
theorem StmtOf.definitions (h : StmtOf pl s) : definitions pl = s.defs pl.address := by
  have hequ := h.isEqu
  obtain ⟨label, cmd⟩ := s
  have hlabel : pl.label = label := h.label
  have hcmd := h.cmd
  cases cmd
  case equ n v => simp [Proof.definitions, Stmt.defs, hequ, hlabel, hcmd.2.2.1, hcmd.2.2.2]
  all_goals simp [Proof.definitions, Stmt.defs, hequ, hlabel]

end StmtOf

/-! ## Pass 1

A record is not compared with the statement of its line outright, because `StmtOf` leaves open what
is in the fields that the statement does not use. `RecordAt` adds the address, and the lists of
records and of placed statements are related pairwise. -/

/-- A record holds a placed statement: the fields of the statement, and the address pass 1 has put
it at. -/
structure RecordAt (p : Word × Stmt) (pl : ParsedLine) : Prop where
  address : pl.address = p.1
  stmt : StmtOf pl p.2

theorem nErrors_le_foldl (lines : List Bytes) (st : Pass1) :
    st.nErrors ≤ (lines.foldl pass1Line st).nErrors := by
  induction lines generalizing st with
  | nil => exact Nat.le_refl _
  | cons src lines ih => exact Nat.le_trans (pass1Line_nErrors_le st src) (ih _)

/-- A statement, placed. -/
theorem pass1Line_of_readsAs {src : Bytes} {s : Stmt} (h : ReadsAs src s) (st : Pass1) :
    let r := insertAll st.sym (s.defs st.addr)
    let st' := pass1Line st src
    (st'.nErrors = st.nErrors ↔ s.cmd.InRange ∧ ∀ rc ∈ r.1, rc = .ok) ∧ st'.sym = r.2 ∧
    (∃ pl, st'.parsed = st.parsed ++ [pl] ∧ RecordAt (st.addr, s) pl) ∧
    ∀ c, s.cmd.InRange → st.addr = BitVec.ofNat 16 c →
      st'.addr = BitVec.ofNat 16 (s.cmd.item.next c) := by
  intro r st'
  obtain ⟨pl, hacc, hof⟩ := h.accepts (st.parsed.length + 1)
  have hst' : st' = st.place pl := pass1Line_of_accepts hacc
  obtain ⟨hparsed, hsym, haddr, hn⟩ := place_spec st pl
  have hof' : StmtOf { pl with address := st.addr } s := ⟨hof.label, hof.cmd⟩
  have hdefs : definitions { pl with address := st.addr } = s.defs st.addr := hof'.definitions
  rw [hdefs] at hsym hn
  refine ⟨?_, ?_, ?_, ?_⟩
  · have hrange := hof.inRange
    rw [hst', hn, ← hrange, ← failures_eq_zero, show r = insertAll st.sym (s.defs st.addr) from rfl]
    by_cases hbad : IsOrg pl ∧ ¬ OrgInRange pl
    · rw [if_pos hbad]
      exact iff_of_false (by omega) fun hall => hbad.2 (hall.1 hbad.1)
    · rw [if_neg hbad, Nat.add_zero]
      have hgood : IsOrg pl → OrgInRange pl := fun ho => by_contra fun hr => hbad ⟨ho, hr⟩
      constructor
      · intro heq
        exact ⟨hgood, by omega⟩
      · rintro ⟨-, hzero⟩
        omega
  · rw [hst', hsym]
  · exact ⟨_, hst' ▸ hparsed, rfl, hof'⟩
  · intro c hin hc
    rw [hst', haddr, hc, addrAfter_eq (hof.inRange.mpr hin), hof.item]

/-- **Pass 1 on statements.** -/
theorem foldl_pass1Line {lines : List Bytes} {ss : List Stmt} (h : List.Forall₂ ReadsAs lines ss) :
    ∀ (st : Pass1) (c : Nat), st.addr = BitVec.ofNat 16 c →
      let st' := lines.foldl pass1Line st
      let r := insertAll st.sym ((placed c ss).flatMap fun p => p.2.defs p.1)
      (st'.nErrors = st.nErrors ↔ (∀ s ∈ ss, s.cmd.InRange) ∧ ∀ rc ∈ r.1, rc = .ok) ∧
      (st'.nErrors = st.nErrors → st'.sym = r.2 ∧
        st'.addr = BitVec.ofNat 16 (Layout.counter c (ss.map fun s => s.cmd.item)) ∧
        ∃ recs, st'.parsed = st.parsed ++ recs ∧ List.Forall₂ RecordAt (placed c ss) recs) := by
  induction h with
  | nil =>
    intro st c hc
    refine ⟨iff_of_true rfl ⟨fun s hs => absurd hs List.not_mem_nil,
      fun rc hrc => absurd hrc List.not_mem_nil⟩, fun _ => ⟨rfl, hc, [], ?_, .nil⟩⟩
    exact (List.append_nil _).symm
  | @cons src s lines ss hs _ ih =>
    intro st c hc
    obtain ⟨hiff, hsym, ⟨pl, hparsed, hrec⟩, hnext⟩ := pass1Line_of_readsAs hs st
    have hle := pass1Line_nErrors_le st src
    have hle' := nErrors_le_foldl lines (pass1Line st src)
    -- The insertions of this line, then those of the rest.
    have hall : insertAll st.sym ((placed c (s :: ss)).flatMap fun p => p.2.defs p.1) =
        ((insertAll st.sym (s.defs st.addr)).1 ++ (insertAll (pass1Line st src).sym
          ((placed (s.cmd.item.next c) ss).flatMap fun p => p.2.defs p.1)).1,
        (insertAll (pass1Line st src).sym
          ((placed (s.cmd.item.next c) ss).flatMap fun p => p.2.defs p.1)).2) := by
      rw [placed, List.flatMap_cons, ← hc, insertAll_append, hsym]
    simp only [List.foldl_cons]
    rw [hall]
    by_cases hzero : (pass1Line st src).nErrors = st.nErrors
    · obtain ⟨hin, hcodes⟩ := hiff.mp hzero
      obtain ⟨hiff', hrest⟩ := ih (pass1Line st src) _ (hnext c hin hc)
      refine ⟨?_, ?_⟩
      · rw [← hzero, hiff', List.forall_mem_cons, List.forall_mem_append]
        exact ⟨fun h => ⟨⟨hin, h.1⟩, hcodes, h.2⟩, fun h => ⟨h.1.2, h.2.2⟩⟩
      · intro heq
        obtain ⟨hsym', haddr', recs, hparsed', hrecs⟩ := hrest (heq.trans hzero.symm)
        refine ⟨hsym', haddr', pl :: recs, ?_, ?_⟩
        · rw [hparsed', hparsed, List.append_assoc, List.singleton_append]
        · exact .cons (hc ▸ hrec) hrecs
    · refine ⟨iff_of_false (by omega) fun hboth => ?_, fun heq => absurd heq (by omega)⟩
      rw [List.forall_mem_cons, List.forall_mem_append] at hboth
      exact hzero (hiff.mpr ⟨hboth.1.1, hboth.2.1⟩)

section Pass1

variable {lines : List Bytes} {ss : List Stmt} (h : List.Forall₂ ReadsAs lines ss)
include h

theorem pass1_nErrors_iff : (pass1 lines).nErrors = 0 ↔
    (∀ s ∈ ss, s.cmd.InRange) ∧ ∀ rc ∈ (tableOf ss).1, rc = .ok :=
  (foldl_pass1Line h {} 0 rfl).1

/-- What pass 1 leaves of a source without errors. -/
theorem pass1_statements (hzero : (pass1 lines).nErrors = 0) :
    (pass1 lines).sym = (tableOf ss).2 ∧
    (pass1 lines).addr = BitVec.ofNat 16 (Layout.counter 0 (ss.map fun s => s.cmd.item)) ∧
    List.Forall₂ RecordAt (placed 0 ss) (pass1 lines).parsed := by
  obtain ⟨hsym, haddr, recs, hparsed, hrecs⟩ := (foldl_pass1Line h {} 0 rfl).2 hzero
  exact ⟨hsym, haddr, by rwa [pass1, hparsed, List.nil_append]⟩

end Pass1

/-- Without errors every line is a statement. -/
theorem readsAs_of_pass1 {lines : List Bytes} (hzero : (pass1 lines).nErrors = 0) :
    ∃ ss, List.Forall₂ ReadsAs lines ss := by
  have hone : ∀ src ∈ lines, ∃ s, ReadsAs src s := by
    intro src hsrc
    obtain ⟨pre, post, rfl⟩ := List.append_of_mem hsrc
    rcases pass1Line_cases (pass1 pre) src with ⟨d, pl, heq⟩ | ⟨pl, hacc, -⟩
    · -- The error of a rejected line stays.
      have hle := nErrors_le_foldl post (pass1Line (pass1 pre) src)
      rw [pass1, List.foldl_append, List.foldl_cons] at hzero
      have hstep : (pass1Line (pass1 pre) src).nErrors = (pass1 pre).nErrors + 1 := by
        rw [heq]
        rfl
      rw [pass1] at hstep hle
      omega
    · obtain ⟨s, hs, -⟩ := hacc.readsAs
      exact ⟨s, hs⟩
  clear hzero
  induction lines with
  | nil => exact ⟨[], .nil⟩
  | cons src lines ih =>
    obtain ⟨hsrc, hlines⟩ := List.forall_mem_cons.mp hone
    obtain ⟨s, hs⟩ := hsrc
    obtain ⟨ss, hss⟩ := ih hlines
    exact ⟨s :: ss, .cons hs hss⟩

/-! ## Pass 2

`Emits` says of a line in pass 2 that it counts an error exactly if the statement has no words, and
otherwise stores them. An instruction is resolved operand by operand and then encoded, where the
statement resolves its arguments and then encodes; `resolveOperand_argOf` is the step that carries
one to the other. -/

/-- A lookup answers an address or nothing. -/
theorem symtableLookup_cases (t : Symtable) (n : Bytes) :
    symtableLookup t n = symNotFound ∨ ∃ a : Word, symtableLookup t n = a.setWidth 32 := by
  by_cases hne : n = []
  · exact .inl (by rw [symtableLookup, if_pos hne])
  · rw [symtableLookup_eq hne]
    cases OpenAddressing.lookup (slots t) (OpenAddressing.entryKey n) (hashNat n) with
    | none => exact .inl rfl
    | some e => exact .inr ⟨e.2, rfl⟩

theorem envOf_eq_some {t : Symtable} {n : Bytes} {a : Word} :
    envOf t n = some a ↔ symtableLookup t n = a.setWidth 32 := by
  rw [envOf]
  rcases symtableLookup_cases t n with h | ⟨b, h⟩
  · rw [h, if_pos rfl]
    exact iff_of_false (fun hn => by cases hn) (setWidth_ne_symNotFound a).symm
  · rw [h, if_neg (setWidth_ne_symNotFound b), Option.some.injEq, setWidth_back]
    exact ⟨congrArg _, setWidth_injective⟩

theorem envOf_eq_none {t : Symtable} {n : Bytes} :
    envOf t n = none ↔ symtableLookup t n = symNotFound := by
  rw [envOf]
  split
  · rename_i h
    exact iff_of_true rfl h
  · rename_i h
    exact iff_of_false (Option.some_ne_none _) h

section Resolve

variable (sym : Symtable) (lineNo : Nat)

/-- An operand resolves as its argument does. -/
theorem resolveOperand_argOf {o : Operand} {a : Arg} (h : ArgOf o a) :
    ((resolveOperand sym lineNo o).2 = none ↔ (a.resolve (envOf sym)).isSome = true) ∧
    ∀ a', a.resolve (envOf sym) = some a' → ArgOf (resolveOperand sym lineNo o).1 a' := by
  cases a with
  | reg r =>
    rw [resolveOperand, if_pos (by rw [h.1]; decide)]
    exact ⟨iff_of_true rfl rfl, fun a' ha => Option.some.inj ha ▸ h⟩
  | imm v =>
    rw [resolveOperand, if_pos (by rw [h.1]; decide)]
    exact ⟨iff_of_true rfl rfl, fun a' ha => Option.some.inj ha ▸ h⟩
  | name n =>
    obtain ⟨hk, rfl⟩ := h
    cases henv : envOf sym o.label with
    | none =>
      have hres : (resolveOperand sym lineNo o).2 ≠ none := by
        simp [resolveOperand, hk, envOf_eq_none.mp henv]
      simp only [Arg.resolve, henv]
      exact ⟨iff_of_false hres Bool.false_ne_true, fun a' ha => by cases ha⟩
    | some w =>
      have hres : resolveOperand sym lineNo o =
          ({ o with kind := .imm, imm := w.setWidth 32 }, none) :=
        resolveOperand_of_lookup hk (envOf_eq_some.mp henv)
      rw [hres]
      simp only [Arg.resolve, henv]
      exact ⟨iff_of_true trivial rfl, fun a' ha => Option.some.inj ha ▸ ⟨rfl, rfl⟩⟩

theorem sameRead_of_argOf {o o' : Operand} {a : Arg} (h : ArgOf o a) (h' : ArgOf o' a) :
    SameRead o o' := by
  cases a with
  | reg r =>
    refine ⟨h.1.trans h'.1.symm, fun _ => h.2.trans h'.2.symm, fun hk => ?_⟩
    cases h.1.symm.trans hk
  | imm v =>
    refine ⟨h.1.trans h'.1.symm, fun hk => ?_, fun _ => h.2.trans h'.2.symm⟩
    cases h.1.symm.trans hk
  | name n =>
    refine ⟨h.1.trans h'.1.symm, fun hk => ?_, fun hk => ?_⟩
    · cases h.1.symm.trans hk
    · cases h.1.symm.trans hk

end Resolve

theorem instrOf_ops {m : Bytes} {args : List Arg} {k : Fin 3} {a : Arg}
    (h : args[k.val]? = some a) : ArgOf ((instrOf m args).ops k) a := by
  have hop : (instrOf m args).ops k = a.operand := by simp [instrOf, h]
  rw [hop]
  cases a <;> exact ⟨rfl, rfl⟩

theorem findOp_lower (text : Bytes) : findOp (text.map tolower) = findOp text := by
  have htwice : ∀ c : Byte, tolower (tolower c) = tolower c := by decide
  have hcmp : ∀ d : OpDef, strcasecmp d.name (text.map tolower) = 0 ↔
      strcasecmp d.name text = 0 := by
    intro d
    rw [strcasecmp_eq_zero_iff, strcasecmp_eq_zero_iff, List.map_map]
    simp only [Function.comp_def, htwice]
  simp only [findOp, hcmp]

section Pass2

variable {opt : AsmOptions} {sym : Symtable} {src : Bytes} {pl : ParsedLine}

/-- An instruction, resolved and encoded as its statement. -/
theorem encodeInstr_resolved {m : Bytes} {args args' : List Arg}
    (hof : CmdOf pl (.instr m args)) (hres : args.mapM (Arg.resolve (envOf sym)) = some args')
    (lineNo : Nat) (pc : Word) :
    encodeInstr (resolveOperands sym lineNo pl.instr).1 pc 0 =
      encodeInstr (instrOf m args') pc 0 := by
  obtain ⟨-, hmnem, hmax, hnops, hops⟩ := hof
  have hboth := Traverse.mapM_eq_some_iff.mp hres
  have hlen := hboth.length_eq
  have hn : (resolveOperands sym lineNo pl.instr).1.nops = pl.instr.nops := rfl
  refine encodeInstr_congr ?_ ?_ ?_ pc 0
  · show findOp pl.instr.mnemonic = findOp m
    rw [← hmnem, findOp_lower]
  · rw [hn, hnops, hlen]
    rfl
  · intro k hk
    rw [hn] at hk
    have hk' : k.val < args'.length := by omega
    have ha' := List.getElem?_eq_getElem hk'
    obtain ⟨a, ha, hresk⟩ := Traverse.forall₂_getElem? hboth ha'
    have hop : (resolveOperands sym lineNo pl.instr).1.ops k =
        (resolveOperand sym lineNo (pl.instr.ops k)).1 := if_pos hk
    rw [hop]
    have hread := (resolveOperand_argOf sym lineNo (hops k a ha)).2 _ hresk
    exact sameRead_of_argOf hread (instrOf_ops ha')

/-- Its operands resolve together. -/
theorem resolveOperands_isSome (sym : Symtable) {m : Bytes} {args : List Arg}
    (hof : CmdOf pl (.instr m args)) (lineNo : Nat) : (resolveOperands sym lineNo pl.instr).2 = [] ↔
      (args.mapM (Arg.resolve (envOf sym))).isSome = true := by
  rw [resolveOperands_nil_iff, Traverse.isSome_mapM_iff]
  constructor
  · intro h a ha
    obtain ⟨k, hk, harg⟩ := hof.exists_operand ha
    exact (resolveOperand_argOf sym lineNo harg).1.mp (h k hk)
  · intro h k hk
    obtain ⟨a, ha, harg⟩ := hof.exists_arg hk
    exact (resolveOperand_argOf sym lineNo harg).1.mpr (h a ha)

/-- The words of a string do not depend on where they go. -/
theorem asciiLoop_words (s : Bytes) (len : Nat) : ∀ (fuel b : Nat) (a a' : Word),
    (asciiLoop s len fuel b a).map Prod.snd = (asciiLoop s len fuel b a').map Prod.snd
  | 0, _, _, _ => rfl
  | fuel + 1, b, a, a' => by
    rw [asciiLoop, asciiLoop]
    split
    · rw [List.map_cons, List.map_cons, asciiLoop_words s len fuel (b + 2) (a + 1) (a' + 1)]
    · rfl

theorem storesOf_none {env : Env} {p : Word × Stmt} (h : p.2.cmd.words env p.1 = some []) :
    storesOf env p = [] := by
  simp [storesOf, h]

theorem storesOf_one {env : Env} {p : Word × Stmt} {w : Word}
    (h : p.2.cmd.words env p.1 = some [w]) : storesOf env p = [(p.1, w)] := by
  simp [storesOf, h, wordsFrom]

/-- The output of pass 2 for a line is what the statement assembles to. -/
def Emits (out : LineOut) (env : Env) (p : Word × Stmt) : Prop :=
  (out.nErrors = 0 ↔ (p.2.cmd.words env p.1).isSome = true) ∧
  (out.nErrors = 0 → out.stores = storesOf env p)

theorem emits_error {out : LineOut} {env : Env} {p : Word × Stmt} (herr : out.nErrors = 1)
    (hw : p.2.cmd.words env p.1 = none) : Emits out env p := by
  have hno : out.nErrors ≠ 0 := by rw [herr]; decide
  exact ⟨iff_of_false hno (by rw [hw]; decide), fun h => absurd h hno⟩

theorem emits_words {out : LineOut} {env : Env} {p : Word × Stmt} {ws : List Word}
    (herr : out.nErrors = 0) (hw : p.2.cmd.words env p.1 = some ws)
    (hst : out.stores = (wordsFrom p.1 ws.length).zip ws) : Emits out env p :=
  ⟨iff_of_true herr (by rw [hw]; rfl), fun _ => by rw [hst, storesOf, hw, Option.getD_some]⟩

/-- An instruction line. -/
theorem pass2Line_instr_emits {addr : Word} {label m : Bytes} {args : List Arg}
    (haddr : pl.address = addr) (hof : CmdOf pl (.instr m args)) :
    Emits (pass2Line opt sym src pl) (envOf sym) (addr, ⟨label, .instr m args⟩) := by
  have hnil := resolveOperands_isSome sym hof pl.lineNo
  -- An operand that does not resolve is reported, and then nothing is encoded.
  cases hres : args.mapM (Arg.resolve (envOf sym)) with
  | none =>
    rw [hres] at hnil
    have hdiags : (resolveOperands sym pl.lineNo pl.instr).2 ≠ [] :=
      fun h => Bool.false_ne_true (hnil.mp h)
    refine emits_error ?_ (by simp only [Cmd.words, hres, Option.bind_none])
    simp only [pass2Line, hof.1]
  | some args' =>
    rw [hres] at hnil
    have hok : resolveOperands sym pl.lineNo pl.instr =
        ((resolveOperands sym pl.lineNo pl.instr).1, []) := Prod.ext rfl (hnil.mpr rfl)
    have henc := encodeInstr_resolved hof hres pl.lineNo addr
    have hwords : Cmd.words (envOf sym) addr (.instr m args) =
        if (encodeInstr (instrOf m args') addr 0).1 = .ok then
          some [(encodeInstr (instrOf m args') addr 0).2] else none := by
      simp only [Cmd.words, hres, Option.bind_some]
    rw [← henc, ← haddr] at hwords
    by_cases hrc : (encodeInstr (resolveOperands sym pl.lineNo pl.instr).1 pl.address 0).1 = .ok
    · rw [if_pos hrc] at hwords
      have hpair : encodeInstr (resolveOperands sym pl.lineNo pl.instr).1 pl.address 0 =
          (.ok, (encodeInstr (resolveOperands sym pl.lineNo pl.instr).1 pl.address 0).2) :=
        Prod.ext hrc rfl
      refine emits_words ?_ (haddr ▸ hwords) ?_
      · simp only [pass2Line, hof.1]
        rw [hok]
        simp only
        rw [hpair]
      · simp only [pass2Line, hof.1]
        rw [hok]
        simp only
        rw [hpair]
        simp [wordsFrom, haddr]
    · rw [if_neg hrc] at hwords
      refine emits_error ?_ (haddr ▸ hwords)
      simp only [pass2Line, hof.1]
      rw [hok]
      simp only

/-- A `.word` line. -/
theorem pass2Line_word_emits {addr : Word} {label : Bytes} {v : Arg}
    (haddr : pl.address = addr) (hof : CmdOf pl (.word v)) :
    Emits (pass2Line opt sym src pl) (envOf sym) (addr, ⟨label, .word v⟩) := by
  obtain ⟨hk, hd, harg, hzero⟩ := hof
  obtain ⟨hnone, hres⟩ := resolveOperand_argOf sym pl.lineNo harg
  cases hv : v.resolve (envOf sym) with
  | none =>
    rw [hv] at hnone
    obtain ⟨d, hd'⟩ := Option.ne_none_iff_exists'.mp fun h => Bool.false_ne_true (hnone.mp h)
    refine emits_error ?_ (by simp only [Cmd.words, hv, Option.map_none])
    simp only [pass2Line, hk, hd]
    rw [show resolveOperand sym pl.lineNo pl.dir.value = (_, some d) from Prod.ext rfl hd']
  | some a =>
    rw [hv] at hnone
    have hok := hnone.mpr rfl
    have hword : (resolveOperand sym pl.lineNo pl.dir.value).1.imm = a.operand.imm := by
      have hof' := hres a hv
      cases v with
      | imm w =>
        obtain rfl := Option.some.inj hv
        exact hof'.2
      | reg r =>
        -- A register name gives the word zero.
        obtain rfl := Option.some.inj hv
        rw [resolveOperand, if_pos (by rw [harg.1]; decide)]
        exact hzero harg.1
      | name n =>
        obtain ⟨w, -, rfl⟩ := Option.map_eq_some_iff.mp hv
        exact hof'.2
    have hwords : Cmd.words (envOf sym) addr (.word v) = some [a.operand.imm.setWidth 16] := by
      simp only [Cmd.words, hv, Option.map_some]
    refine emits_words ?_ hwords ?_
    · simp only [pass2Line, hk, hd]
      rw [show resolveOperand sym pl.lineNo pl.dir.value = (_, none) from Prod.ext rfl hok]
    · simp only [pass2Line, hk, hd]
      rw [show resolveOperand sym pl.lineNo pl.dir.value = (_, none) from Prod.ext rfl hok]
      simp [wordsFrom, haddr, hword]

/-- An `.ascii` line. -/
theorem pass2Line_ascii_emits {addr : Word} {label text : Bytes} (haddr : pl.address = addr)
    (hof : CmdOf pl (.ascii text)) :
    Emits (pass2Line opt sym src pl) (envOf sym) (addr, ⟨label, .ascii text⟩) := by
  obtain ⟨hk, hd, hmax, hstr, hlen⟩ := hof
  have hst : (pass2Line opt sym src pl).stores =
      asciiLoop text text.length (text.length + 1) 0 addr := by
    simp [pass2Line, hk, hd, hstr, hlen, haddr]
  apply emits_words (by simp [pass2Line, hk, hd]) rfl
  have haddrs := asciiLoop_addrs text text.length (text.length + 1) 0 addr (by omega)
  have hwords := asciiLoop_words text text.length (text.length + 1) 0 addr 0
  have hcount : ((asciiLoop text text.length (text.length + 1) 0 0).map Prod.snd).length =
      (text.length + 2 - 0) / 2 := by
    rw [← hwords, List.length_map, ← List.length_map Prod.fst, haddrs, wordsFrom, List.length_map,
      List.length_range]
  rw [hst, hcount]
  exact (List.zip_of_prod haddrs hwords)

/-- **Pass 2 on a statement.** -/
theorem pass2Line_emits {p : Word × Stmt} (h : RecordAt p pl) :
    Emits (pass2Line opt sym src pl) (envOf sym) p := by
  obtain ⟨addr, label, cmd⟩ := p
  obtain ⟨haddr, -, hof⟩ := h
  have hof : CmdOf pl cmd := hof
  cases cmd with
  | nothing =>
    rcases hof with hk | hk
    · exact emits_words (by simp [pass2Line, hk]) rfl (by simp [pass2Line, hk])
    · exact emits_words (by simp [pass2Line, hk]) rfl (by simp [pass2Line, hk])
  | org v =>
    exact emits_words (by simp [pass2Line, hof.1, hof.2.1]) rfl
      (by simp [pass2Line, hof.1, hof.2.1])
  | equ n v =>
    exact emits_words (by simp [pass2Line, hof.1, hof.2.1]) rfl
      (by simp [pass2Line, hof.1, hof.2.1])
  | instr m args => exact pass2Line_instr_emits haddr hof
  | word v => exact pass2Line_word_emits haddr hof
  | ascii text => exact pass2Line_ascii_emits haddr hof

end Pass2

/-! ## Whole sources

The rows of pass 2 are the lines with their records, and by pass 1 these hold the placed statements.
So what is stored is said without records. -/

section Sources

variable {opt : AsmOptions} {lines : List Bytes} {ss : List Stmt}
  (h : List.Forall₂ ReadsAs lines ss)
include h

/-- The rows of pass 2 hold the placed statements. -/
theorem rows_statements (hzero : (pass1 lines).nErrors = 0) :
    List.Forall₂ (fun r p => RecordAt p r.2) (rows lines) (placed 0 ss) := by
  obtain ⟨-, -, hrecs⟩ := pass1_statements h hzero
  rw [← rows_snd, List.forall₂_map_right_iff] at hrecs
  exact hrecs.flip

theorem rowOut_emits (opt : AsmOptions) (hzero : (pass1 lines).nErrors = 0) :
    List.Forall₂ (fun r p => Emits (rowOut opt lines r) (envOf (tableOf ss).2) p)
      (rows lines) (placed 0 ss) := by
  have hsym := (pass1_statements h hzero).1
  apply (rows_statements h hzero).imp
  intro r p hrec
  rw [rowOut, hsym]
  exact pass2Line_emits hrec

theorem assembles_iff_assembled : Assembles opt lines ↔ Assembled ss := by
  rw [assembles_iff]
  constructor
  · rintro ⟨hzero, hrows⟩
    obtain ⟨hin, hcodes⟩ := (pass1_nErrors_iff h).mp hzero
    refine ⟨hin, hcodes, fun p hp => ?_⟩
    obtain ⟨r, hr, hemit⟩ := Traverse.exists_left_of_mem (rowOut_emits h opt hzero) hp
    exact hemit.1.mp (hrows r hr)
  · rintro ⟨hin, hcodes, hwords⟩
    have hzero := (pass1_nErrors_iff h).mpr ⟨hin, hcodes⟩
    refine ⟨hzero, fun r hr => ?_⟩
    obtain ⟨p, hp, hemit⟩ := Traverse.exists_right_of_mem (rowOut_emits h opt hzero) hr
    exact hemit.1.mpr (hwords p hp)

/-- The words pass 2 stores are those of the statements. -/
theorem emitted_eq_stores (hok : Assembles opt lines) : emitted opt lines = stores ss := by
  obtain ⟨hzero, hrows⟩ := assembles_iff.mp hok
  have hboth := (List.forall₂_and_left _ _).mpr ⟨hrows, rowOut_emits h opt hzero⟩
  exact Traverse.flatMap_eq_of_forall₂ (hboth.imp fun r p hr => hr.2.2 hr.1)

end Sources

/-- **What assembles**: a source whose lines are statements that assemble. The statements are those
of the lines and no others (`ReadsAs.unique`), so the right side is about the source as well. -/
theorem assembles_iff_statements {opt : AsmOptions} {lines : List Bytes} :
    Assembles opt lines ↔ ∃ ss, List.Forall₂ ReadsAs lines ss ∧ Assembled ss := by
  constructor
  · intro hok
    obtain ⟨ss, hss⟩ := readsAs_of_pass1 (assembles_iff.mp hok).1
    exact ⟨ss, hss, (assembles_iff_assembled hss).mp hok⟩
  · rintro ⟨ss, hss, hok⟩
    exact (assembles_iff_assembled hss).mpr hok

/-- Sources with the same words and the same layout give the same file. -/
theorem bin_of_statements {opt : AsmOptions} {lines lines' : List Bytes} {ss ss' : List Stmt}
    (h : List.Forall₂ ReadsAs lines ss) (h' : List.Forall₂ ReadsAs lines' ss')
    (hok : Assembles opt lines) (hok' : Assembles opt lines') (hstores : stores ss = stores ss')
    (hitems : (ss.map fun s => s.cmd.item) = ss'.map fun s => s.cmd.item) :
    (assembleLines opt lines).bin = (assembleLines opt lines').bin := by
  obtain ⟨-, haddr, -⟩ := pass1_statements h (assembles_iff.mp hok).1
  obtain ⟨-, haddr', -⟩ := pass1_statements h' (assembles_iff.mp hok').1
  rw [bin_eq hok, bin_eq hok', emitted_eq_stores h hok, emitted_eq_stores h' hok', hstores, haddr,
    haddr', hitems]

end Proof
end EduCpu16
