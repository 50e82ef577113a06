import EduCpu16.Proof.Passes
import EduCpu16.Proof.Turns

/-!
# Defining a label and using it

A label line and a line that uses the label read the same word, but in two places: before a colon,
where any word is a label, and as an operand, where a word with a leading dot is a directive and one
that looks like a register is a register. A name that is neither is a label operand (`accepts_word`,
`accepts_jmp`), and if it fits the table, it resolves to the address of its definition whatever else
the source defines (`pass1_lookup_append`).

So not every label that can be defined can be used, and `label_use` says which can. It asks for a
definition whose insertion succeeded, in the table as it was then: a duplicate or a full table is
reported, and what the name means afterwards is another matter.
-/

namespace EduCpu16
namespace Proof

open CLib

/-! ## Lines of two words -/

theorem lexLine_two {w v : Bytes} (hw : WordText w) (hv : WordText v) (lineNo : Nat) :
    lexLine (w ++ ch ' ' :: v) lineNo =
      (⟨[⟨wordKind w, w⟩, ⟨wordKind v, v⟩], lineNo⟩, none) := by
  have hfirst : turn (w ++ ch ' ' :: v) = .token (wordKind w) w (ch ' ' :: v) :=
    turn_word hw (wordEnd_space v)
  have hsecond : turn (ch ' ' :: v) = .token (wordKind v) v [] := by
    rw [turn_skip (by decide) (.inl (by decide)), ← List.append_nil v, turn_word hv wordEnd_nil,
      List.append_nil]
  have hlex : Lexes (w ++ ch ' ' :: v) [⟨wordKind w, tokenText w⟩, ⟨wordKind v, tokenText v⟩] :=
    .token hfirst (.token hsecond (.stop rfl))
  rw [tokenText_word hw, tokenText_word hv] at hlex
  exact lexLine_iff.mpr ⟨rfl, hlex, show 2 ≤ maxTokensPerLine by decide⟩

/-- The operand a name is read as: a register, or a label. -/
def useOperand (name : Bytes) : Operand :=
  match parseRegister name with
  | some r => { kind := .reg, reg := r }
  | none => { kind := .label, label := name }

theorem fillValueOperand_name {name : Bytes} (hw : WordText name) :
    fillValueOperand ⟨.ident, name⟩ {} = some (useOperand name) := by
  simp only [fillValueOperand, useOperand, copyTok, List.take_of_length_le hw.length]
  cases parseRegister name with
  | some r => rfl
  | none => rfl

theorem wordText_dotWord : WordText (ascii ".word") :=
  ⟨by decide, by decide, by decide⟩

theorem wordText_jmp : WordText (ascii "JMP") :=
  ⟨by decide, by decide, by decide⟩

/-- The record of `.word NAME`. -/
def wordUse (name : Bytes) (lineNo : Nat) : ParsedLine where
  kind := .directive
  lineNo := lineNo
  dir := { kind := .word, value := useOperand name }

/-- The record of `JMP NAME`. -/
def jmpUse (name : Bytes) (lineNo : Nat) : ParsedLine where
  kind := .instr
  lineNo := lineNo
  instr :=
    { mnemonic := ascii "JMP"
      ops := Function.update (fun _ => {}) 0 (useOperand name)
      nops := 1 }

theorem accepts_word {name : Bytes} (hw : WordText name) (hdot : deref name ≠ ch '.')
    (lineNo : Nat) : Accepts (ascii ".word " ++ name) lineNo (wordUse name lineNo) := by
  have hlex := lexLine_two wordText_dotWord hw lineNo
  have hkind : wordKind name = .ident := if_neg hdot
  refine ⟨_, hlex, ?_⟩
  have hline : parseLine ⟨[⟨wordKind (ascii ".word"), ascii ".word"⟩, ⟨wordKind name, name⟩],
      lineNo⟩ = parseWord lineNo [⟨.ident, name⟩] { lineNo := lineNo, kind := .directive } := by
    rw [hkind]
    rfl
  rw [hline]
  simp only [parseWord, fillValueOperand_name hw]
  rfl

theorem accepts_jmp {name : Bytes} (hw : WordText name) (hdot : deref name ≠ ch '.')
    (lineNo : Nat) : Accepts (ascii "JMP " ++ name) lineNo (jmpUse name lineNo) := by
  have hlex := lexLine_two wordText_jmp hw lineNo
  have hkind : wordKind name = .ident := if_neg hdot
  refine ⟨_, hlex, ?_⟩
  have hline : parseLine ⟨[⟨wordKind (ascii "JMP"), ascii "JMP"⟩, ⟨wordKind name, name⟩],
      lineNo⟩ = parseOperands lineNo [⟨.ident, name⟩]
        { lineNo := lineNo, kind := .instr, instr := { mnemonic := ascii "JMP" } } 0 := by
    rw [hkind]
    rfl
  rw [hline]
  simp only [parseOperands, Nat.lt_add_one_iff, Nat.zero_le, dite_true, fillValueOperand_name hw]
  rfl

/-- A name with a leading dot lexes as a directive, which is no operand. -/
theorem not_accepts_dotted {name : Bytes} (hw : WordText name) (hdot : deref name = ch '.')
    (lineNo : Nat) (pl : ParsedLine) :
    ¬ Accepts (ascii ".word " ++ name) lineNo pl ∧ ¬ Accepts (ascii "JMP " ++ name) lineNo pl := by
  have hkind : wordKind name = .directive := if_pos hdot
  have hfill : ∀ op, fillValueOperand ⟨.directive, name⟩ op = none := fun _ => rfl
  constructor
  · rintro ⟨tl, hlex, hparse⟩
    have htl := (lexLine_two wordText_dotWord hw lineNo).symm.trans hlex
    obtain rfl : _ = tl := congrArg Prod.fst htl
    have hline : (parseLine ⟨[⟨wordKind (ascii ".word"), ascii ".word"⟩, ⟨wordKind name, name⟩],
        lineNo⟩).2 = (parseWord lineNo [⟨.directive, name⟩]
          { lineNo := lineNo, kind := .directive }).2 := by
      rw [hkind]
      rfl
    rw [hparse, parseWord] at hline
    simp only [hfill] at hline
    cases hline
  · rintro ⟨tl, hlex, hparse⟩
    have htl := (lexLine_two wordText_jmp hw lineNo).symm.trans hlex
    obtain rfl : _ = tl := congrArg Prod.fst htl
    have hline : (parseLine ⟨[⟨wordKind (ascii "JMP"), ascii "JMP"⟩, ⟨wordKind name, name⟩],
        lineNo⟩).2 = (parseOperands lineNo [⟨.directive, name⟩]
          { lineNo := lineNo, kind := .instr, instr := { mnemonic := ascii "JMP" } } 0).2 := by
      rw [hkind]
      rfl
    rw [hparse, parseOperands] at hline
    simp only [hfill, Nat.lt_add_one_iff, Nat.zero_le, dite_true] at hline
    cases hline

/-! ## The table across pass 1

Pass 1 only inserts, and an insertion never moves or changes an entry, so what is found once is
found later. The converse direction needs the lengths: a longer name is stored cut and would answer
for a name that the source never mentions. -/

/-- A line leaves the table as it is, or inserts what it defines. -/
theorem pass1Line_sym (st : Pass1) (src : Bytes) : ∃ ops, (pass1Line st src).sym =
    (insertAll st.sym ops).2 ∧ (ops = [] ∨ ∃ pl a, Accepts src (st.parsed.length + 1) pl ∧
      ops = definitions { pl with address := a }) := by
  rcases pass1Line_cases st src with ⟨d, pl, h⟩ | ⟨pl, ha, h⟩
  · exact ⟨[], by rw [h]; rfl, .inl rfl⟩
  · exact ⟨_, by rw [h]; exact (place_spec st pl).2.1, .inr ⟨pl, st.addr, ha, rfl⟩⟩

/-- **A symbol that is found after some lines is found after all of them.** -/
theorem pass1_lookup_append {pre : List Bytes} {name : Bytes} {a : Word}
    (h : symtableLookup (pass1 pre).sym name = a.setWidth 32) (post : List Bytes) :
    symtableLookup (pass1 (pre ++ post)).sym name = a.setWidth 32 := by
  induction post using List.reverseRecOn with
  | nil => rwa [List.append_nil]
  | append_singleton post src ih =>
    obtain ⟨ops, hsym, -⟩ := pass1Line_sym (pass1 (pre ++ post)) src
    rw [← List.append_assoc, pass1_snoc, hsym]
    exact symtableLookup_insertAll_mono ops ih

/-- A label whose insertion succeeded, and that fits, is found from its line on. -/
theorem pass1_lookup_label {pre : List Bytes} {src name : Bytes} {pl : ParsedLine}
    (ha : Accepts src (pre.length + 1) pl) (hname : pl.label = name) (hne : name ≠ [])
    (hok : (symtableInsert (pass1 pre).sym name (pass1 pre).addr).1 = .ok)
    (hlen : name.length ≤ symNameMax) (post : List Bytes) :
    symtableLookup (pass1 (pre ++ src :: post)).sym name = (pass1 pre).addr.setWidth 32 := by
  have hline : symtableLookup (pass1 (pre ++ [src])).sym name =
      (pass1 pre).addr.setWidth 32 := by
    rw [← pass1_length] at ha
    rw [pass1_snoc, pass1Line_of_accepts ha, (place_spec _ _).2.1, definitions]
    simp only [hname, if_pos hne, List.singleton_append, insertAll]
    exact symtableLookup_insertAll_mono _ (symtableLookup_insert_self hlen hok)
  have happ := pass1_lookup_append hline post
  rwa [List.append_assoc, List.singleton_append] at happ

/-- An accepted line of the source defines the name, by a label or a `.equ`. -/
def Defines (lines : List Bytes) (name : Bytes) : Prop :=
  ∃ i src pl, lines[i]? = some src ∧ Accepts src (i + 1) pl ∧
    ((pl.label = name ∧ name ≠ []) ∨ (IsEqu pl ∧ pl.dir.name = name))

theorem Defines.append {pre : List Bytes} {name : Bytes} (h : Defines pre name)
    (post : List Bytes) : Defines (pre ++ post) name := by
  obtain ⟨i, src, pl, hi, hrest⟩ := h
  have hlt : i < pre.length := by
    by_contra hge
    rw [List.getElem?_eq_none (Nat.not_lt.mp hge)] at hi
    cases hi
  exact ⟨i, src, pl, by rw [List.getElem?_append_left hlt, hi], hrest⟩

/-- Pass 1 inserts names the source defines and no others. -/
theorem pass1_sym (lines : List Bytes) : ∃ ops, (pass1 lines).sym =
    (insertAll symtableReset ops).2 ∧ ∀ op ∈ ops, Defines lines op.1 := by
  induction lines using List.reverseRecOn with
  | nil => exact ⟨[], rfl, fun op h => absurd h List.not_mem_nil⟩
  | append_singleton lines src ih =>
    obtain ⟨ops, hsym, hdef⟩ := ih
    obtain ⟨new, hnew, hcase⟩ := pass1Line_sym (pass1 lines) src
    refine ⟨ops ++ new, by rw [pass1_snoc, hnew, hsym, insertAll_append], ?_⟩
    intro op hop
    rcases List.mem_append.mp hop with hop | hop
    · exact (hdef op hop).append [src]
    · rcases hcase with rfl | ⟨pl, a, hacc, rfl⟩
      · exact absurd hop List.not_mem_nil
      · rw [pass1_length] at hacc
        refine ⟨lines.length, src, pl, by simp, hacc, ?_⟩
        rcases List.mem_append.mp hop with hop | hop
        · split at hop
          · rename_i hne
            obtain rfl := List.mem_singleton.mp hop
            exact .inl ⟨rfl, hne⟩
          · exact absurd hop List.not_mem_nil
        · split at hop
          · rename_i hequ
            obtain rfl := List.mem_singleton.mp hop
            exact .inr ⟨hequ, rfl⟩
          · exact absurd hop List.not_mem_nil

/-- A name the source does not define is not found, if those it defines fit. -/
theorem pass1_lookup_undefined {lines : List Bytes}
    (hfit : ∀ n, Defines lines n → n.length ≤ symNameMax) {name : Bytes}
    (hno : ¬ Defines lines name) : symtableLookup (pass1 lines).sym name = symNotFound := by
  obtain ⟨ops, hsym, hdef⟩ := pass1_sym lines
  rw [hsym]
  refine symtableLookup_insertAll_none (fun op hop => hfit op.1 (hdef op hop)) ?_
  intro op hop heq
  exact hno (heq ▸ hdef op hop)

/-! ## Uses

What the lines `.word NAME` and `JMP NAME` become in the two passes, for a name that is looked up
and for one that is taken for a register. -/

/-- The record of the line at index `i` of a source. -/
theorem pass1_record {lines : List Bytes} {i : Nat} {src : Bytes} {pl : ParsedLine}
    (hi : lines[i]? = some src) (ha : Accepts src (i + 1) pl) :
    ∃ a, (pass1 lines).parsed[i]? = some { pl with address := a } := by
  obtain ⟨hlt, hget⟩ := List.getElem?_eq_some_iff.mp hi
  have hlen : (lines.take i).length = i := by
    rw [List.length_take]
    omega
  have hsplit : lines = lines.take i ++ src :: lines.drop (i + 1) := by
    rw [← hget, List.getElem_cons_drop, List.take_append_drop]
  have hacc : Accepts src ((lines.take i).length + 1) pl := hlen.symm ▸ ha
  have hrec : (pass1 (lines.take i ++ src :: lines.drop (i + 1))).parsed[(lines.take i).length]? =
      some { pl with address := (pass1 (lines.take i)).addr } := pass1_parsed_get hacc
  rw [← hsplit, hlen] at hrec
  exact ⟨_, hrec⟩

/-- No register name has a leading dot. -/
theorem parseRegister_of_dot {name : Bytes} (h : deref name = ch '.') :
    parseRegister name = none := by
  cases name with
  | nil => rfl
  | cons c cs =>
    obtain rfl : c = ch '.' := h
    cases cs with
    | nil => rfl
    | cons d ds =>
      cases ds with
      | nil => rfl
      | cons e es => rfl

theorem useOperand_label {name : Bytes} (hreg : parseRegister name = none) :
    (useOperand name).kind = .label ∧ (useOperand name).label = name := by
  simp [useOperand, hreg]

theorem useOperand_reg {name : Bytes} {r : Byte} (hreg : parseRegister name = some r) :
    (useOperand name).kind = .reg ∧ (useOperand name).reg = r := by
  simp [useOperand, hreg]

theorem jmpUse_op (name : Bytes) (lineNo : Nat) :
    (jmpUse name lineNo).instr.ops 0 = useOperand name := by
  simp [jmpUse]

section Use

variable {sym : Symtable} {name : Bytes} {a : Word} (lineNo : Nat)
  (hreg : parseRegister name = none) (hl : symtableLookup sym name = a.setWidth 32)
include hreg hl

theorem resolveOperand_use : resolveOperand sym lineNo (useOperand name) =
    ({ useOperand name with kind := .imm, imm := a.setWidth 32 }, none) := by
  obtain ⟨hk, hlabel⟩ := useOperand_label hreg
  exact resolveOperand_of_lookup hk (hlabel.symm ▸ hl)

/-- The use of a name that resolves in `.word` stores its address. -/
theorem pass2Line_wordUse (addr : Word) (opt : AsmOptions) (src : Bytes) :
    (pass2Line opt sym src { wordUse name lineNo with address := addr }).stores = [(addr, a)] := by
  have himm : (a.setWidth 32 : I32).setWidth 16 = a := by simp
  simp only [pass2Line, wordUse, resolveOperand_use lineNo hreg hl, himm]

/-- The use of a name that resolves in JMP becomes its address. -/
theorem resolveOperands_jmpUse :
    ∃ i, resolveOperands sym lineNo (jmpUse name lineNo).instr = (i, []) ∧
      (i.ops 0).kind = .imm ∧ (i.ops 0).imm = a.setWidth 32 := by
  have hop := jmpUse_op name lineNo
  have hone : (jmpUse name lineNo).instr.nops = 1 := rfl
  have hres := resolveOperand_use lineNo hreg hl
  refine ⟨_, Prod.ext rfl ?_, ?_, ?_⟩
  · have htake : (List.finRange 3).take 1 = [0] := rfl
    simp only [resolveOperands, hone, htake, List.filterMap_cons, hop, hres, List.filterMap_nil]
  · simp only [resolveOperands, hone, Fin.val_zero, Nat.lt_one_iff, if_true, hop, hres]
  · simp only [resolveOperands, hone, Fin.val_zero, Nat.lt_one_iff, if_true, hop, hres]

end Use

/-! ## Labels

From the use of a name to its definition, through the table that pass 1 leaves. -/

/-- `.word NAME` and `JMP NAME`, wherever they stand in the source, are read with the label operand
NAME, which pass 2 turns into `a`. The records are those of pass 1 and the table is the one it
leaves, so a use before the definition is covered. -/
def Usable (lines : List Bytes) (name : Bytes) (a : Word) : Prop :=
  (∀ i : Nat, lines[i]? = some (ascii ".word " ++ name) →
    ∃ u : ParsedLine, (pass1 lines).parsed[i]? = some u ∧ u.kind = .directive ∧ u.dir.kind = .word ∧
      u.dir.value.kind = .label ∧ u.dir.value.label = name ∧
      ∀ opt src, (pass2Line opt (pass1 lines).sym src u).stores = [(u.address, a)]) ∧
  (∀ i : Nat, lines[i]? = some (ascii "JMP " ++ name) →
    ∃ u : ParsedLine, (pass1 lines).parsed[i]? = some u ∧ u.kind = .instr ∧ u.instr.nops = 1 ∧
      (u.instr.ops 0).kind = .label ∧ (u.instr.ops 0).label = name ∧
      ∃ instr, resolveOperands (pass1 lines).sym u.lineNo u.instr = (instr, []) ∧
        (instr.ops 0).kind = .imm ∧ (instr.ops 0).imm = a.setWidth 32)

theorem usable_of_lookup {lines : List Bytes} {name : Bytes} {a : Word} (hw : WordText name)
    (hdot : deref name ≠ ch '.') (hreg : parseRegister name = none)
    (hl : symtableLookup (pass1 lines).sym name = a.setWidth 32) : Usable lines name a := by
  obtain ⟨hk, hlabel⟩ := useOperand_label hreg
  constructor
  · intro i hi
    obtain ⟨addr, hrec⟩ := pass1_record hi (accepts_word hw hdot (i + 1))
    exact ⟨_, hrec, rfl, rfl, hk, hlabel, fun opt src => pass2Line_wordUse _ hreg hl addr opt src⟩
  · intro i hi
    obtain ⟨addr, hrec⟩ := pass1_record hi (accepts_jmp hw hdot (i + 1))
    have hop := jmpUse_op name (i + 1)
    exact ⟨_, hrec, rfl, rfl, by rw [hop, hk], by rw [hop, hlabel],
      resolveOperands_jmpUse (i + 1) hreg hl⟩

/-- **Which labels can be used.** Take a line that defines a label and whose insertion into the
table succeeded. A name that is no register name, has no leading dot and fits the table can be
used anywhere in the source and stands for the address pass 1 gave it. A jump to a register name is
accepted and reads the register, and a name with a leading dot is no operand at all. And where all
defined names fit the table, a name that is not defined is never resolved. -/
theorem label_use (lines : List Bytes) :
    (∀ pre src post pl name rest, lines = pre ++ src :: post → Accepts src (pre.length + 1) pl →
      (lexLine src (pre.length + 1)).1.tokens = ⟨.label, name⟩ :: rest →
      (symtableInsert (pass1 pre).sym name (pass1 pre).addr).1 = .ok →
      (parseRegister name = none → deref name ≠ ch '.' → name.length ≤ symNameMax →
        Usable lines name (pass1 pre).addr) ∧
      (∀ r, parseRegister name = some r → ∀ lineNo,
        Accepts (ascii "JMP " ++ name) lineNo (jmpUse name lineNo) ∧
        ((jmpUse name lineNo).instr.ops 0).kind = .reg ∧
        ((jmpUse name lineNo).instr.ops 0).reg = r) ∧
      (deref name = ch '.' → ∀ lineNo u, ¬ Accepts (ascii ".word " ++ name) lineNo u ∧
        ¬ Accepts (ascii "JMP " ++ name) lineNo u)) ∧
    ((∀ n, Defines lines n → n.length ≤ symNameMax) → ∀ name, ¬ Defines lines name →
      ∀ lineNo o, o.kind = .label → o.label = name →
        (resolveOperand (pass1 lines).sym lineNo o).2 ≠ none) := by
  refine ⟨?_, ?_⟩
  · intro pre src post pl name rest hlines ha htok hok
    -- The lexer made a token of the name, so it has the characters of a word.
    have hw : WordText name := by
      have htoken := lexLine_tokenOk src (pre.length + 1) ⟨.label, name⟩ (by rw [htok]; simp)
      exact htoken (.inr (.inr rfl))
    have hlabel : pl.label = name := by
      obtain ⟨tl, hlex, hparse⟩ := ha
      rw [hlex] at htok
      have hstored := parseLine_label rfl htok
      rw [hparse] at hstored
      rw [hstored, copyTok, List.take_of_length_le hw.length]
    refine ⟨?_, ?_, ?_⟩
    · intro hreg hdot hlen
      apply usable_of_lookup hw hdot hreg
      rw [hlines]
      exact pass1_lookup_label ha hlabel hw.ne_nil hok hlen post
    · intro r hreg lineNo
      -- A register name begins with a letter, so the lexer reads it as a word too.
      have hdot : deref name ≠ ch '.' := by
        intro hdot
        rw [parseRegister_of_dot hdot] at hreg
        cases hreg
      obtain ⟨hk, hr⟩ := useOperand_reg hreg
      rw [jmpUse_op]
      exact ⟨accepts_jmp hw hdot lineNo, hk, hr⟩
    · intro hdot lineNo u
      exact not_accepts_dotted hw hdot lineNo u
  · intro hfit name hno lineNo o hk ho
    have hl := pass1_lookup_undefined hfit hno
    simp [resolveOperand, hk, ho, hl]

/-- A label that is used before it is defined. -/
theorem label_use_done :
    Usable [ascii "JMP DONE", ascii "HALT", ascii "DONE: HALT"] (ascii "DONE") 2 :=
  ((label_use [ascii "JMP DONE", ascii "HALT", ascii "DONE: HALT"]).1
    [ascii "JMP DONE", ascii "HALT"] (ascii "DONE: HALT") [] _ (ascii "DONE") _ rfl
    ⟨_, rfl, rfl⟩ rfl (by decide +kernel)).1 (by decide) (by decide) (by decide)

/-- A label named like a register is defined, and the jump to it reads a register. -/
theorem label_R3_not_usable :
    let lines := [ascii "R3: HALT", ascii "JMP R3"]
    (∃ pl, Accepts (ascii "R3: HALT") 1 pl ∧ pl.label = ascii "R3") ∧
    (symtableInsert (pass1 []).sym (ascii "R3") (pass1 []).addr).1 = .ok ∧
    ¬ Usable lines (ascii "R3") 0 := by
  intro lines
  refine ⟨⟨_, ⟨_, rfl, rfl⟩, rfl⟩, by decide +kernel, ?_⟩
  intro h
  obtain ⟨u, hu, -, -, hk, -⟩ := h.2 1 rfl
  have hreg : (pass1 lines).parsed[1]?.map (fun u => (u.instr.ops 0).kind) = some .reg := by
    decide +kernel
  rw [hu, Option.map_some, hk] at hreg
  cases hreg

end Proof
end EduCpu16
