import EduCpu16.Assembler.Parser

/-!
# What the parser stores

`LineOk` holds of the zeroed record and every step of the parser keeps it, whether or not the line
parses in the end. The passes also read records of lines that did not parse, so it is not enough to
know it of those that did.

The rest is about the parser's frame: which fields a helper stores and which it leaves alone. A line
that fails keeps the fields stored before the failure, and pass 2 goes by them (`Rejected.lean`).
-/

namespace EduCpu16
namespace Proof

open CLib

/-- Register operands name a register. -/
def OperandOk (o : Operand) : Prop := o.kind = .reg → o.reg.toNat < numRegs

/-- Every register operand names a register, and a string has the length stored with it. -/
structure LineOk (pl : ParsedLine) : Prop where
  ops : ∀ k, OperandOk (pl.instr.ops k)
  strLen : pl.dir.strLen = pl.dir.str.length
  strMax : pl.dir.strLen ≤ maxTokenLen

theorem lineOk_zero (lineNo : Nat) : LineOk { lineNo := lineNo } where
  ops := fun k h => by cases h
  strLen := rfl
  strMax := Nat.zero_le _

theorem parseRegister_lt {tok : Bytes} {r : Byte} (h : parseRegister tok = some r) :
    r.toNat < numRegs := by
  unfold parseRegister at h
  split at h
  · split at h
    · simp only [Option.ite_none_right_eq_some, Option.some.injEq] at h
      exact h.2 ▸ h.1
    · cases h
  · cases h

/-- The operands `fill_value_operand` fills in. -/
theorem fillValueOperand_cases {t : Token} {op o : Operand} (h : fillValueOperand t op = some o) :
    (t.kind = .number ∧ ∃ v, parseNumber t.text = some v ∧ o = { op with kind := .imm, imm := v }) ∨
    (t.kind = .ident ∧ ∃ r, parseRegister t.text = some r ∧
      o = { op with kind := .reg, reg := r }) ∨
    (t.kind = .ident ∧ parseRegister t.text = none ∧
      o = { op with kind := .label, label := copyTok t.text }) := by
  unfold fillValueOperand at h
  split at h
  · rename_i hk
    split at h
    · rename_i v hv
      exact .inl ⟨hk, v, hv, (Option.some.inj h).symm⟩
    · cases h
  · rename_i hk
    split at h
    · rename_i r hr
      exact .inr (.inl ⟨hk, r, hr, (Option.some.inj h).symm⟩)
    · rename_i hr
      exact .inr (.inr ⟨hk, hr, (Option.some.inj h).symm⟩)
  · cases h

theorem fillValueOperand_ok {t : Token} {op o : Operand} (h : fillValueOperand t op = some o) :
    OperandOk o := by
  intro hk
  rcases fillValueOperand_cases h with ⟨-, v, -, rfl⟩ | ⟨-, r, hr, rfl⟩ | ⟨-, -, rfl⟩
  · cases hk
  · exact parseRegister_lt hr
  · cases hk

/-- Storing an operand. -/
theorem LineOk.setOp {out : ParsedLine} (h : LineOk out) (k : Fin 3) {o : Operand}
    (ho : OperandOk o) :
    LineOk { out with instr.ops := Function.update out.instr.ops k o } where
  ops := by
    intro j
    by_cases hj : j = k
    · subst hj
      simpa using ho
    · simpa [Function.update_of_ne hj] using h.ops j
  strLen := h.strLen
  strMax := h.strMax

theorem parseOperands_ok (lineNo : Nat) : ∀ (ts : List Token) {out : ParsedLine} {n : Nat},
    LineOk out → LineOk (parseOperands lineNo ts out n).1
  | [], _, _, h => ⟨h.ops, h.strLen, h.strMax⟩
  | t :: ts, out, n, h => by
    unfold parseOperands
    split
    · split
      · exact h
      · rename_i hn _ o ho
        exact parseOperands_ok lineNo ts (h.setOp ⟨n, hn⟩ (fillValueOperand_ok ho))
    · exact h

/-! ## Directives

One statement for the four of them, `StoresDir`: they store into the directive of the record, and of
the string and its length both or neither. -/

/-- What the parser of a directive makes of a record: it stores a directive, and no string but
one of the length stored with it. -/
def StoresDir (out r : ParsedLine) : Prop :=
  ∃ d, r = { out with dir := d } ∧
    (LineOk out → d.strLen = d.str.length ∧ d.strLen ≤ maxTokenLen)

/-- The string is left alone. -/
theorem storesDir_of_str {out : ParsedLine} {d : Directive} (hs : d.str = out.dir.str)
    (hl : d.strLen = out.dir.strLen) : StoresDir out { out with dir := d } := by
  refine ⟨d, rfl, ?_⟩
  intro h
  rw [hs, hl]
  exact ⟨h.strLen, h.strMax⟩

section Directives

variable (lineNo : Nat) (args : List Token) (out : ParsedLine)

theorem parseOrg_stores : StoresDir out (parseOrg lineNo args out).1 := by
  cases args with
  | nil => exact storesDir_of_str rfl rfl
  | cons t rest =>
    simp only [parseOrg]
    cases fillValueOperand t out.dir.value with
    | none => exact storesDir_of_str rfl rfl
    | some v =>
      simp only
      split
      · exact storesDir_of_str rfl rfl
      · exact storesDir_of_str rfl rfl

theorem parseWord_stores : StoresDir out (parseWord lineNo args out).1 := by
  cases args with
  | nil => exact storesDir_of_str rfl rfl
  | cons t rest =>
    simp only [parseWord]
    cases fillValueOperand t out.dir.value with
    | none => exact storesDir_of_str rfl rfl
    | some v => exact storesDir_of_str rfl rfl

theorem parseAscii_stores : StoresDir out (parseAscii lineNo args out).1 := by
  unfold parseAscii
  split
  · -- The string is cut to the buffer, and its length with it.
    refine ⟨_, rfl, fun _ => ⟨?_, Nat.min_le_right _ _⟩⟩
    simp
  · exact storesDir_of_str rfl rfl

theorem parseEqu_stores : StoresDir out (parseEqu lineNo args out).1 := by
  unfold parseEqu
  split
  · rename_i name text rest
    cases parseNumber text with
    | none => exact storesDir_of_str rfl rfl
    | some v => exact storesDir_of_str rfl rfl
  · exact storesDir_of_str rfl rfl

theorem parseDirective_stores (d : Token) :
    StoresDir { out with kind := .directive } (parseDirective lineNo d args out).1 := by
  unfold parseDirective
  simp only
  split
  · exact parseOrg_stores lineNo args _
  split
  · exact parseWord_stores lineNo args _
  split
  · exact parseAscii_stores lineNo args _
  split
  · exact parseEqu_stores lineNo args _
  · exact storesDir_of_str rfl rfl

theorem parseDirective_ok (d : Token) {out : ParsedLine} (h : LineOk out) :
    LineOk (parseDirective lineNo d args out).1 := by
  obtain ⟨dir, heq, hstr⟩ := parseDirective_stores lineNo args out d
  obtain ⟨hlen, hmax⟩ := hstr ⟨h.ops, h.strLen, h.strMax⟩
  rw [heq]
  exact ⟨h.ops, hlen, hmax⟩

end Directives

/-! ## Whole lines -/

theorem parseHead_ok (lineNo : Nat) (head : Token) (args : List Token) {out : ParsedLine}
    (h : LineOk out) : LineOk (parseHead lineNo head args out).1 := by
  unfold parseHead
  split
  · exact parseDirective_ok lineNo args head h
  · exact parseOperands_ok lineNo args ⟨h.ops, h.strLen, h.strMax⟩
  · exact h

/-- **Every record the parser leaves is in order.** -/
theorem parseLine_ok (tl : TokenLine) : LineOk (parseLine tl).1 := by
  have hzero := lineOk_zero tl.lineNo
  unfold parseLine
  simp only
  split
  · exact hzero
  · split
    · exact ⟨hzero.ops, hzero.strLen, hzero.strMax⟩
    · exact parseHead_ok _ _ _ ⟨hzero.ops, hzero.strLen, hzero.strMax⟩
  · exact parseHead_ok _ _ _ hzero

/-! ## What the parser leaves alone -/

theorem parseOperands_frame (lineNo : Nat) : ∀ (ts : List Token) (out : ParsedLine) (n : Nat),
    ∃ i, (parseOperands lineNo ts out n).1 = { out with instr := i }
  | [], _, _ => ⟨_, rfl⟩
  | t :: ts, out, n => by
    unfold parseOperands
    split
    · split
      · exact ⟨_, rfl⟩
      · obtain ⟨i, hi⟩ := parseOperands_frame lineNo ts _ (n + 1)
        exact ⟨i, hi⟩
    · exact ⟨_, rfl⟩

theorem parseOperands_mnemonic (lineNo : Nat) : ∀ (ts : List Token) (out : ParsedLine) (n : Nat),
    (parseOperands lineNo ts out n).1.instr.mnemonic = out.instr.mnemonic
  | [], _, _ => rfl
  | t :: ts, out, n => by
    unfold parseOperands
    split
    · split
      · rfl
      · exact parseOperands_mnemonic lineNo ts _ (n + 1)
    · rfl

/-- The count of the operands is stored last, so a line that fails keeps the old one. -/
theorem parseOperands_nops (lineNo : Nat) : ∀ (ts : List Token) (out : ParsedLine) (n : Nat),
    (parseOperands lineNo ts out n).2 = none ∨
      (parseOperands lineNo ts out n).1.instr.nops = out.instr.nops
  | [], _, _ => .inl rfl
  | t :: ts, out, n => by
    unfold parseOperands
    split
    · split
      · exact .inr rfl
      · exact parseOperands_nops lineNo ts _ (n + 1)
    · exact .inr rfl

/-- After the optional label only the kind, the instruction and the directive are stored. -/
theorem parseHead_frame (lineNo : Nat) (head : Token) (args : List Token) (out : ParsedLine) :
    ∃ k i d, (parseHead lineNo head args out).1 =
      { out with kind := k, instr := i, dir := d } := by
  unfold parseHead
  split
  · obtain ⟨d, hd, -⟩ := parseDirective_stores lineNo args out head
    exact ⟨_, _, d, hd⟩
  · obtain ⟨i, hi⟩ := parseOperands_frame lineNo args
      { out with kind := .instr, instr.mnemonic := copyTok head.text } 0
    exact ⟨_, i, _, hi⟩
  · exact ⟨_, _, _, rfl⟩

theorem parseHead_nops (lineNo : Nat) (head : Token) (args : List Token) (out : ParsedLine) :
    (parseHead lineNo head args out).2 = none ∨
      (parseHead lineNo head args out).1.instr.nops = out.instr.nops := by
  unfold parseHead
  split
  · obtain ⟨d, hd, -⟩ := parseDirective_stores lineNo args out head
    rw [hd]
    exact .inr rfl
  · exact parseOperands_nops lineNo args _ 0
  · exact .inr rfl

theorem parseHead_label (lineNo : Nat) (head : Token) (args : List Token) (out : ParsedLine) :
    (parseHead lineNo head args out).1.label = out.label := by
  obtain ⟨k, i, d, h⟩ := parseHead_frame lineNo head args out
  rw [h]

/-! ## The shapes of a line -/

section Shapes

variable {t : Token} (lineNo : Nat)

theorem parseLine_unlabelled (hkind : t.kind ≠ .label) (args : List Token) :
    parseLine ⟨t :: args, lineNo⟩ = parseHead lineNo t args { lineNo := lineNo } := by
  obtain ⟨kind, text⟩ := t
  cases kind
  case label => exact absurd rfl hkind
  all_goals rfl

theorem parseLine_labelled (hkind : t.kind = .label) (head : Token) (args : List Token) :
    parseLine ⟨t :: head :: args, lineNo⟩ =
      parseHead lineNo head args { lineNo := lineNo, label := copyTok t.text } := by
  obtain ⟨kind, text⟩ := t
  obtain rfl : kind = .label := hkind
  rfl

/-- A label on its own. -/
theorem parseLine_alone (hkind : t.kind = .label) :
    parseLine ⟨[t], lineNo⟩ =
      ({ kind := .label, lineNo := lineNo, label := copyTok t.text }, none) := by
  obtain ⟨kind, text⟩ := t
  obtain rfl : kind = .label := hkind
  rfl

end Shapes

/-- A leading label token is stored as the label. -/
theorem parseLine_label {tl : TokenLine} {t : Token} {rest : List Token} (hkind : t.kind = .label)
    (h : tl.tokens = t :: rest) : (parseLine tl).1.label = copyTok t.text := by
  obtain ⟨tokens, lineNo⟩ := tl
  obtain rfl : tokens = t :: rest := h
  cases rest with
  | nil => rw [parseLine_alone lineNo hkind]
  | cons head args => rw [parseLine_labelled lineNo hkind, parseHead_label]

end Proof
end EduCpu16
