import EduCpu16.Proof.Assembly
import EduCpu16.Source.Edit

/-!
# A constant is its value

A name that `.equ` defines stands for the low 16 bits of its value. Writing those out as a literal
changes statements in their arguments only (`readStmt_replaceLine`): neither the layout nor the
symbols, and by the environment not the words.

It is the low 16 bits and not the literal of the definition: the table keeps a `uint16_t`, and a
constant is read back as a number from 0 to `0xFFFF`. In a `.word` this makes no difference, since
the value is cut to a word again; in an instruction `-1` fits an immediate and the constant that was
defined as `-1` does not (`equ_not_its_literal`). So the theorem has two literals, one for each
place a name can stand.
-/

namespace EduCpu16
namespace Proof

open CLib Source

/-! ## On statements

Lines are read as statements before and after, so what is changed in the text of a line is an
argument of its statement. -/

def replaceArg (name : Bytes) (v : I32) : Arg → Arg
  | .name n => if n = name then .imm v else .name n
  | a => a

def replaceInCmd (name : Bytes) (v w : I32) : Cmd → Cmd
  | .instr m args => .instr m (args.map (replaceArg name v))
  | .word a => .word (replaceArg name w a)
  | c => c

/-- Instructions get the literal `v`, `.word` lines the literal `w`. -/
def replaceStmt (name : Bytes) (v w : I32) (s : Stmt) : Stmt :=
  { s with cmd := replaceInCmd name v w s.cmd }

section Tokens

variable {name : Bytes} {v w : I32} {litV litW : Token}

theorem readArg_replace (hreg : parseRegister name = none) (hlit : IsLiteral litV v) (t : Token) :
    readArg (if t = ⟨.ident, name⟩ then litV else t) = (readArg t).map (replaceArg name v) := by
  by_cases ht : t = ⟨.ident, name⟩
  · subst ht
    rw [if_pos rfl]
    simp [readArg, hlit.1, hlit.2, hreg, replaceArg]
  · rw [if_neg ht]
    obtain ⟨kind, text⟩ := t
    cases kind
    case number => cases hv : parseNumber text <;> simp [readArg, hv, replaceArg]
    case ident =>
      have hne : text ≠ name := by
        rintro rfl
        exact ht rfl
      cases hr : parseRegister text <;> simp [readArg, hr, replaceArg, hne]
    all_goals rfl

theorem mapM_readArg_replace (hreg : parseRegister name = none) (hlit : IsLiteral litV v)
    (ts : List Token) : (replaceOperands name litV ts).mapM readArg =
      (ts.mapM readArg).map (List.map (replaceArg name v)) := by
  induction ts with
  | nil => rfl
  | cons t ts ih =>
    rw [replaceOperands] at ih ⊢
    rw [List.map_cons, List.mapM_cons, List.mapM_cons, ih, readArg_replace hreg hlit]
    cases readArg t <;> cases ts.mapM readArg <;> rfl

/-- No other directive has an argument that is replaced. -/
theorem readDir_replace {k : DirectiveKind} (hk : k ≠ .word) {args : List Token} {c : Cmd}
    (h : readDir k args = some c) : replaceInCmd name v w c = c := by
  cases k
  case word => exact absurd rfl hk
  case org =>
    cases args with
    | nil => cases h
    | cons t rest =>
      simp only [readDir] at h
      split at h
      · obtain rfl := Option.some.inj h
        rfl
      · cases h
  case ascii =>
    cases args with
    | nil => cases h
    | cons t rest =>
      obtain ⟨-, h⟩ := Option.ite_none_right_eq_some.mp h
      obtain rfl := Option.some.inj h
      rfl
  case equ =>
    cases args with
    | nil => cases h
    | cons n args =>
      cases args with
      | nil => cases h
      | cons t rest =>
        obtain ⟨-, h⟩ := Option.ite_none_right_eq_some.mp h
        obtain ⟨x, -, rfl⟩ := Option.map_eq_some_iff.mp h
        rfl

theorem readCmd_replaceCmd (hreg : parseRegister name = none) (hlitV : IsLiteral litV v)
    (hlitW : IsLiteral litW w) (ts : List Token) :
    readCmd (replaceCmd name litV litW ts) = (readCmd ts).map (replaceInCmd name v w) := by
  cases ts with
  | nil => rfl
  | cons head args =>
    rw [replaceCmd]
    by_cases hident : head.kind = .ident
    · have hlen : (replaceOperands name litV args).length = args.length := List.length_map _
      rw [if_pos hident]
      simp only [readCmd, hident, hlen, mapM_readArg_replace hreg hlitV]
      split
      · cases args.mapM readArg <;> rfl
      · rfl
    · rw [if_neg hident]
      by_cases hword : head.kind = .directive ∧ readDirName head.text = some .word
      · rw [if_pos hword]
        simp only [readCmd, hword.1, hword.2, Option.bind_some]
        cases args with
        | nil => rfl
        | cons t rest =>
          rw [replaceOperands, List.map_cons]
          simp only [readDir, readArg_replace hreg hlitW]
          cases readArg t <;> rfl
      · rw [if_neg hword]
        have hsame : ∀ c, readCmd (head :: args) = some c → replaceInCmd name v w c = c := by
          intro c hc
          simp only [readCmd] at hc
          split at hc
          · rename_i hk
            exact absurd hk hident
          · rename_i hk
            obtain ⟨k, hk', hdir⟩ := Option.bind_eq_some_iff.mp hc
            exact readDir_replace (fun h => hword ⟨hk, h ▸ hk'⟩) hdir
          · cases hc
        cases hc : readCmd (head :: args) with
        | none => rfl
        | some c => rw [Option.map_some, hsame c hc]

theorem readStmt_replaceLine (hreg : parseRegister name = none) (hlitV : IsLiteral litV v)
    (hlitW : IsLiteral litW w) (ts : List Token) :
    readStmt (replaceLine name litV litW ts) = (readStmt ts).map (replaceStmt name v w) := by
  have hsplit : splitLabel (replaceLine name litV litW ts) =
      ((splitLabel ts).1, replaceCmd name litV litW (splitLabel ts).2) := by
    cases ts with
    | nil => rfl
    | cons t rest =>
      by_cases hkind : t.kind = .label
      · simp only [replaceLine, splitLabel, if_pos hkind]
      · simp only [replaceLine, splitLabel, if_neg hkind]
        -- The head of a command is left alone.
        obtain ⟨args, hargs⟩ : ∃ args, replaceCmd name litV litW (t :: rest) = t :: args := by
          rw [replaceCmd]
          split
          · exact ⟨_, rfl⟩
          split
          · exact ⟨_, rfl⟩
          · exact ⟨_, rfl⟩
        simp only [hargs, if_neg hkind]
  rw [readStmt, readStmt, hsplit, readCmd_replaceCmd hreg hlitV hlitW, Option.map_map,
    Option.map_map]
  rfl

/-- A line with the constant written out is the statement with its arguments replaced. -/
theorem WrittenOut.readsAs_iff (hreg : parseRegister name = none) (hlitV : IsLiteral litV v)
    (hlitW : IsLiteral litW w) {src src' : Bytes} (h : WrittenOut name litV litW src src')
    {s' : Stmt} : ReadsAs src' s' ↔ ∃ s, ReadsAs src s ∧ s' = replaceStmt name v w s := by
  have hread := readStmt_replaceLine hreg hlitV hlitW
  rcases h with ⟨ts, hlex, hlex'⟩ | ⟨hno, rfl⟩
  · obtain ⟨-, hts, hmax⟩ := lexLine_iff.mp hlex
    obtain ⟨-, hts', hmax'⟩ := lexLine_iff.mp hlex'
    constructor
    · rintro ⟨us, hus, -, hs'⟩
      rw [hus.unique hts', hread] at hs'
      obtain ⟨s, hs, rfl⟩ := Option.map_eq_some_iff.mp hs'
      exact ⟨s, ⟨ts, hts, hmax, hs⟩, rfl⟩
    · rintro ⟨s, ⟨us, hus, -, hs⟩, rfl⟩
      rw [hus.unique hts] at hs
      exact ⟨_, hts', hmax', by rw [hread, hs, Option.map_some]⟩
  · -- A line that cannot be lexed is no statement.
    have hnone : ∀ s, ¬ ReadsAs src' s := by
      rintro s ⟨us, hus, hmax, -⟩
      have hlex : lexLine src' 0 = (⟨us, 0⟩, none) := lexLine_iff.mpr ⟨rfl, hus, hmax⟩
      exact hno (by rw [hlex])
    exact iff_of_false (hnone s') fun ⟨s, hs, _⟩ => hnone s hs

theorem writtenOut_readsAs_iff (hreg : parseRegister name = none) (hlitV : IsLiteral litV v)
    (hlitW : IsLiteral litW w) {lines lines' : List Bytes}
    (h : List.Forall₂ (WrittenOut name litV litW) lines lines') {ss' : List Stmt} :
    List.Forall₂ ReadsAs lines' ss' ↔
      ∃ ss, List.Forall₂ ReadsAs lines ss ∧ ss' = ss.map (replaceStmt name v w) := by
  induction h generalizing ss' with
  | nil =>
    rw [List.forall₂_nil_left_iff]
    constructor
    · rintro rfl
      exact ⟨[], .nil, rfl⟩
    · rintro ⟨ss, hss, rfl⟩
      rw [List.forall₂_nil_left_iff.mp hss, List.map_nil]
  | cons hline _ ih =>
    rw [List.forall₂_cons_left_iff]
    constructor
    · rintro ⟨s', ss', hs', hss', rfl⟩
      obtain ⟨s, hs, rfl⟩ := (WrittenOut.readsAs_iff hreg hlitV hlitW hline).mp hs'
      obtain ⟨ss, hss, rfl⟩ := ih.mp hss'
      exact ⟨s :: ss, .cons hs hss, rfl⟩
    · rintro ⟨ss, hss, rfl⟩
      obtain ⟨s, ss, hs, htail, rfl⟩ := List.forall₂_cons_left_iff.mp hss
      exact ⟨_, _, (WrittenOut.readsAs_iff hreg hlitV hlitW hline).mpr ⟨s, hs, rfl⟩,
        ih.mpr ⟨ss, htail, rfl⟩, rfl⟩

end Tokens

/-! ## The same layout, symbols and words

Commands keep their sizes and the names they define, so the two sources have the same table, and the
constant has its value in it. Then an argument that is replaced resolves to the same number as
before, and all words are the same. -/

section Replaced

variable (name : Bytes) (v w : I32)

theorem replaceStmt_item (s : Stmt) : (replaceStmt name v w s).cmd.item = s.cmd.item := by
  obtain ⟨label, cmd⟩ := s
  cases cmd <;> rfl

theorem replaceStmt_inRange (s : Stmt) :
    (replaceStmt name v w s).cmd.InRange ↔ s.cmd.InRange := by
  obtain ⟨label, cmd⟩ := s
  cases cmd <;> rfl

theorem replaceStmt_defs (s : Stmt) (addr : Word) :
    (replaceStmt name v w s).defs addr = s.defs addr := by
  obtain ⟨label, cmd⟩ := s
  cases cmd <;> rfl

theorem placed_map_replaceStmt (ss : List Stmt) (c : Nat) :
    placed c (ss.map (replaceStmt name v w)) =
      (placed c ss).map fun p => (p.1, replaceStmt name v w p.2) := by
  induction ss generalizing c with
  | nil => rfl
  | cons s ss ih => rw [List.map_cons, placed, placed, ih, replaceStmt_item, List.map_cons]

theorem symbols_map_replaceStmt (ss : List Stmt) :
    symbols (ss.map (replaceStmt name v w)) = symbols ss := by
  rw [symbols, symbols, placed_map_replaceStmt, List.flatMap_map]
  simp only [replaceStmt_defs]

theorem tableOf_map_replaceStmt (ss : List Stmt) :
    tableOf (ss.map (replaceStmt name v w)) = tableOf ss := by
  rw [tableOf, tableOf, symbols_map_replaceStmt]

variable {name v w} {env : Env} {u : Word}

/-- The environment gives the name the value its literal has. -/
theorem replaceArg_resolve (hname : env name = some u) (hv : v = u.setWidth 32) (a : Arg) :
    (replaceArg name v a).resolve env = a.resolve env := by
  cases a with
  | name n =>
    by_cases hn : n = name
    · subst hn
      simp [replaceArg, Arg.resolve, hname, hv]
    · simp [replaceArg, hn]
  | reg | imm => rfl

/-- Of the value in a `.word` the low 16 bits matter. -/
theorem replaceArg_word (hname : env name = some u) (hw : w.setWidth 16 = u) (a : Arg) :
    ((replaceArg name w a).resolve env).map (fun a => a.operand.imm.setWidth 16) =
      (a.resolve env).map fun a => (a.operand.imm.setWidth 16 : Word) := by
  cases a with
  | name n =>
    by_cases hn : n = name
    · subst hn
      simp [replaceArg, Arg.resolve, hname, hw, Arg.operand]
    · simp [replaceArg, hn]
  | reg | imm => rfl

theorem replaceStmt_words (hname : env name = some u) (hv : v = u.setWidth 32)
    (hw : w.setWidth 16 = u) (s : Stmt) (addr : Word) :
    (replaceStmt name v w s).cmd.words env addr = s.cmd.words env addr := by
  obtain ⟨label, cmd⟩ := s
  cases cmd with
  | instr m args =>
    have hargs : (args.map (replaceArg name v)).mapM (Arg.resolve env) =
        args.mapM (Arg.resolve env) := by
      rw [List.mapM_map]
      exact Traverse.mapM_congr fun a _ => replaceArg_resolve hname hv a
    simp only [replaceStmt, replaceInCmd, Cmd.words, hargs]
  | word a =>
    have hone : ∀ o : Option Arg, (o.map fun a => [a.operand.imm.setWidth 16]) =
        (o.map fun a => (a.operand.imm.setWidth 16 : Word)).map fun x => [x] := by
      intro o
      rw [Option.map_map]
      rfl
    simp only [replaceStmt, replaceInCmd, Cmd.words]
    rw [hone, hone, replaceArg_word hname hw]
  | nothing | ascii | org | equ => rfl

theorem assembled_map_replaceStmt {ss : List Stmt} (hname : envOf (tableOf ss).2 name = some u)
    (hv : v = u.setWidth 32) (hw : w.setWidth 16 = u) :
    Assembled (ss.map (replaceStmt name v w)) ↔ Assembled ss := by
  have htable := tableOf_map_replaceStmt name v w ss
  have hwords := replaceStmt_words hname hv hw
  have hplaced := placed_map_replaceStmt name v w ss 0
  constructor
  · rintro ⟨hin, hcodes, hsome⟩
    refine ⟨fun s hs => ?_, htable ▸ hcodes, fun p hp => ?_⟩
    · exact (replaceStmt_inRange name v w s).mp (hin _ (List.mem_map_of_mem hs))
    · rw [← hwords, ← htable]
      exact hsome (p.1, replaceStmt name v w p.2) (hplaced ▸ List.mem_map_of_mem hp)
  · rintro ⟨hin, hcodes, hsome⟩
    refine ⟨fun s hs => ?_, htable.symm ▸ hcodes, fun p hp => ?_⟩
    · obtain ⟨s₀, hs₀, rfl⟩ := List.mem_map.mp hs
      exact (replaceStmt_inRange name v w s₀).mpr (hin s₀ hs₀)
    · rw [hplaced] at hp
      obtain ⟨p₀, hp₀, rfl⟩ := List.mem_map.mp hp
      rw [htable, hwords]
      exact hsome p₀ hp₀

theorem stores_map_replaceStmt {ss : List Stmt} (hname : envOf (tableOf ss).2 name = some u)
    (hv : v = u.setWidth 32) (hw : w.setWidth 16 = u) :
    stores (ss.map (replaceStmt name v w)) = stores ss := by
  rw [stores, stores, tableOf_map_replaceStmt, placed_map_replaceStmt, List.flatMap_map]
  congr 1
  funext p
  simp only [storesOf, replaceStmt_words hname hv hw]

end Replaced

/-! ## Sources

The name has to fit the table, or its entry would be another one, and must not be a register's, or
it would not be looked up at all. -/

/-- An accepted `.equ` line is among the symbols. -/
theorem mem_symbols_of_equ {lines : List Bytes} {ss : List Stmt}
    (h : List.Forall₂ ReadsAs lines ss) {src : Bytes} (hmem : src ∈ lines) {n : Nat}
    {pl : ParsedLine} (hacc : Accepts src n pl) (hequ : IsEqu pl) :
    (pl.dir.name, pl.dir.value.imm.setWidth 16) ∈ symbols ss := by
  obtain ⟨s, hs, hread⟩ := Traverse.exists_right_of_mem h hmem
  obtain ⟨s', hread', hof⟩ := hacc.readsAs
  obtain rfl := hread.unique hread'
  obtain ⟨m, v, hcmd⟩ := hof.isEqu.mp hequ
  have hof' := hof.cmd
  rw [hcmd] at hof'
  obtain ⟨-, -, rfl, rfl⟩ := hof'
  -- The statement has some address.
  obtain ⟨addr, hp⟩ := exists_placed hs 0
  refine List.mem_flatMap.mpr ⟨_, hp, ?_⟩
  simp [Stmt.defs, hcmd]

/-- **A constant means its value**: the number its symbol has. Writing it out as a literal for
that number in the instructions, and in the `.word` lines as any literal with the same low 16
bits, changes neither whether the source assembles nor the file. -/
theorem equ_means_value {opt : AsmOptions} {lines lines' : List Bytes} {src : Bytes} {n : Nat}
    {pl : ParsedLine} {name : Bytes} {v w : I32} {litV litW : Token}
    (hmem : src ∈ lines) (hacc : Accepts src n pl) (hequ : IsEqu pl) (hname : pl.dir.name = name)
    (hlen : name.length ≤ symNameMax) (hreg : parseRegister name = none)
    (hlitV : IsLiteral litV v) (hv : v.toInt = (pl.dir.value.imm.setWidth 16).toNat)
    (hlitW : IsLiteral litW w) (hw : w.setWidth 16 = pl.dir.value.imm.setWidth 16)
    (hlines : List.Forall₂ (WrittenOut name litV litW) lines lines') :
    (Assembles opt lines ↔ Assembles opt lines') ∧
    (Assembles opt lines → (assembleLines opt lines).bin = (assembleLines opt lines').bin) := by
  have hread : ∀ {ss'}, List.Forall₂ ReadsAs lines' ss' ↔
      ∃ ss, List.Forall₂ ReadsAs lines ss ∧ ss' = ss.map (replaceStmt name v w) :=
    writtenOut_readsAs_iff hreg hlitV hlitW hlines
  have hvu : v = (pl.dir.value.imm.setWidth 16).setWidth 32 := by
    refine BitVec.eq_of_toInt_eq (hv.trans ?_)
    rw [← BitVec.setWidth'_eq (by decide : 16 ≤ 32), BitVec.toInt_setWidth'_of_lt (by decide)]
  -- Where all insertions succeed the name is in the table, with the low 16 bits of the value.
  have hkey : ∀ ss, List.Forall₂ ReadsAs lines ss →
      (∀ rc ∈ (tableOf ss).1, rc = .ok) →
        envOf (tableOf ss).2 name = some (pl.dir.value.imm.setWidth 16) := by
    intro ss hss hcodes
    rw [envOf_eq_some]
    exact symtableLookup_insertAll hcodes hlen (hname ▸ mem_symbols_of_equ hss hmem hacc hequ)
  -- Where one fails neither source assembles, since the literal changes no definition.
  have hiff : ∀ ss, List.Forall₂ ReadsAs lines ss →
      (Assembled (ss.map (replaceStmt name v w)) ↔ Assembled ss) := by
    intro ss hss
    by_cases hcodes : ∀ rc ∈ (tableOf ss).1, rc = .ok
    · exact assembled_map_replaceStmt (hkey ss hss hcodes) hvu hw
    · refine iff_of_false (fun hok => hcodes ?_) fun hok => hcodes hok.codes
      rw [← tableOf_map_replaceStmt name v w ss]
      exact hok.codes
  have hassembles : Assembles opt lines ↔ Assembles opt lines' := by
    rw [assembles_iff_statements, assembles_iff_statements]
    constructor
    · rintro ⟨ss, hss, hok⟩
      exact ⟨_, hread.mpr ⟨ss, hss, rfl⟩, (hiff ss hss).mpr hok⟩
    · rintro ⟨ss', hss', hok⟩
      obtain ⟨ss, hss, rfl⟩ := hread.mp hss'
      exact ⟨ss, hss, (hiff ss hss).mp hok⟩
  refine ⟨hassembles, fun hok => ?_⟩
  obtain ⟨ss, hss, hgood⟩ := assembles_iff_statements.mp hok
  refine bin_of_statements hss (hread.mpr ⟨ss, hss, rfl⟩) hok (hassembles.mp hok) ?_ ?_
  · exact (stores_map_replaceStmt (hkey ss hss hgood.codes) hvu hw).symm
  · rw [List.map_map]
    exact List.map_congr_left fun s _ => (replaceStmt_item name v w s).symm

/-- Used before and after its definition. -/
theorem equ_means_value_seven :
    let lines := [ascii "MOV R1, N", ascii ".equ N 7", ascii ".word N"]
    let lines' := [ascii "MOV R1, 7", ascii ".equ N 7", ascii ".word 0x10007"]
    (Assembles {} lines ↔ Assembles {} lines') ∧
    (Assembles {} lines → (assembleLines {} lines).bin = (assembleLines {} lines').bin) := by
  intro lines lines'
  have hlines : List.Forall₂
      (WrittenOut (ascii "N") ⟨.number, ascii "7"⟩ ⟨.number, ascii "0x10007"⟩) lines lines' := by
    refine .cons (.inl ⟨(lexLine (ascii "MOV R1, N") 0).1.tokens, ?_, ?_⟩)
      (.cons (.inl ⟨(lexLine (ascii ".equ N 7") 0).1.tokens, ?_, ?_⟩)
        (.cons (.inl ⟨(lexLine (ascii ".word N") 0).1.tokens, ?_, ?_⟩) .nil))
    all_goals decide +kernel
  have hacc : Accepts (ascii ".equ N 7") 2 (parseLine (lexLine (ascii ".equ N 7") 2).1).1 :=
    ⟨(lexLine (ascii ".equ N 7") 2).1, by decide +kernel, by decide +kernel⟩
  have hlit : IsLiteral ⟨.number, ascii "7"⟩ 7 := ⟨rfl, by decide +kernel⟩
  have hlit' : IsLiteral ⟨.number, ascii "0x10007"⟩ 0x10007 := ⟨rfl, by decide +kernel⟩
  exact equ_means_value (List.mem_cons_of_mem _ List.mem_cons_self) hacc
    (by unfold IsEqu; decide +kernel) (by decide +kernel) (by decide) (by decide) hlit
    (by decide +kernel) hlit' (by decide +kernel) hlines

/-- The literal of the definition itself will not do: the symbol keeps 16 bits and no sign, so a
negative constant is out of range where its literal is not. -/
theorem equ_not_its_literal : ¬ ∀ (opt : AsmOptions) (lines lines' : List Bytes) (src : Bytes)
    (n : Nat) (pl : ParsedLine) (lit : Token), src ∈ lines → Accepts src n pl → IsEqu pl →
    pl.dir.name.length ≤ symNameMax → parseRegister pl.dir.name = none →
    ((pass1 lines).parsed.flatMap definitions).countP (fun d => d.1 = pl.dir.name) = 1 →
    IsLiteral lit pl.dir.value.imm → List.Forall₂ (WrittenOut pl.dir.name lit lit) lines lines' →
    (Assembles opt lines ↔ Assembles opt lines') ∧
    (Assembles opt lines → (assembleLines opt lines).bin = (assembleLines opt lines').bin) := by
  intro hall
  let lines := [ascii ".equ N -1", ascii "ADDI R1, R1, N"]
  let lines' := [ascii ".equ N -1", ascii "ADDI R1, R1, -1"]
  let pl := (parseLine (lexLine (ascii ".equ N -1") 1).1).1
  have hname : pl.dir.name = ascii "N" := by decide +kernel
  have hlines : List.Forall₂ (WrittenOut (ascii "N") ⟨.number, ascii "-1"⟩ ⟨.number, ascii "-1"⟩)
      lines lines' := by
    refine .cons (.inl ⟨(lexLine (ascii ".equ N -1") 0).1.tokens, ?_, ?_⟩)
      (.cons (.inl ⟨(lexLine (ascii "ADDI R1, R1, N") 0).1.tokens, ?_, ?_⟩) .nil)
    all_goals decide +kernel
  have hacc : Accepts (ascii ".equ N -1") 1 pl :=
    ⟨(lexLine (ascii ".equ N -1") 1).1, by decide +kernel, by decide +kernel⟩
  obtain ⟨hiff, -⟩ := hall {} lines lines' (ascii ".equ N -1") 1 pl ⟨.number, ascii "-1"⟩
    List.mem_cons_self hacc (by unfold IsEqu; decide +kernel) (by decide +kernel)
    (by decide +kernel) (by decide +kernel) ⟨rfl, by decide +kernel⟩ (hname ▸ hlines)
  have hno : ¬ Assembles {} lines := by decide +kernel
  have hyes : Assembles {} lines' := by decide +kernel
  exact hno (hiff.mpr hyes)

end Proof
end EduCpu16
