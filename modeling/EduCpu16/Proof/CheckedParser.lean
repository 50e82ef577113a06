import EduCpu16.Checked.Parser
import EduCpu16.Proof.CheckedLexer
import EduCpu16.Proof.Number
import EduCpu16.Proof.Parser

/-!
# The parser stays inside its arrays

On a token line in order every token that `parse_line` asks for is there, no operand is filled
beyond the third, every text it copies has room, and it leaves what `Assembler/Parser.lean` says
(`checked_parseLine`). The index `i` stands for the tokens from it on (`tokensFrom`).

With `checked_lexLine` this gives `front_end_safe`: no line, whatever its bytes, makes the front end
leave its arrays. The condition between the two is what the lexer promises and the parser needs,
`InOrder`: not more tokens than the array has, and a NUL in every text.
-/

namespace EduCpu16
namespace Proof

open CLib CheckedC Checked

/-! ## Tokens and texts

The parser reads tokens by their index and copies texts up to their NUL. In a token line in order
both are there. -/

section Tokens

variable {tl : RawTokenLine} {i : Nat}

/-- The tokens from `i` on. -/
def tokensFrom (tl : RawTokenLine) (i : Nat) : List Token := tl.tokenLine.tokens.drop i

theorem tokensFrom_nil (h : InOrder tl) (hi : tl.count ≤ i) : tokensFrom tl i = [] := by
  apply List.drop_eq_nil_of_le
  rw [tokens_length h]
  exact hi

theorem tokensFrom_succ (tl : RawTokenLine) (i : Nat) :
    tokensFrom tl (i + 1) = (tokensFrom tl i).tail := List.tail_drop.symm

theorem index_ends (h : InOrder tl) (hi : i < tl.count) :
    Ends (index tl.tokens i) fun t => (0 : Byte) ∈ t.text.toList ∧
      tokensFrom tl i = t.token :: tokensFrom tl (i + 1) := by
  have hmax : i < maxTokensPerLine := Nat.lt_of_lt_of_le hi h.count
  have hused : i < tl.used.length := by
    rw [used_length h]
    exact hi
  have hget : tl.used[i] = tl.tokens[i] := by
    simp [RawTokenLine.used]
  rw [index_of_lt hmax, ← hget]
  refine ⟨_, rfl, h.ended _ (List.getElem_mem hused), ?_⟩
  rw [tokensFrom, tokensFrom, RawTokenLine.tokenLine, ← List.map_drop, ← List.map_drop,
    List.drop_eq_getElem_cons hused, List.map_cons]

end Tokens

section Token

variable {t : RawToken}

theorem token_text_length (h : (0 : Byte) ∈ t.text.toList) : t.token.text.length ≤ maxTokenLen :=
  Nat.le_of_lt_succ (cstr_length_lt h)

theorem textOf_ends (h : (0 : Byte) ∈ t.text.toList) : Ends (textOf t) (· = t.token.text) := by
  rw [textOf, strlen_of_mem h]
  exact Ends.pure (take_cstr _)

theorem copyTok_ends {s : Bytes} (h : s.length ≤ maxTokenLen) :
    Ends (Checked.copyTok s) (· = EduCpu16.copyTok s) := by
  refine ⟨s, snprintf_of_lt (Nat.lt_succ_of_le h), ?_⟩
  exact (List.take_of_length_le h).symm

theorem fillValueOperand_ends (h : (0 : Byte) ∈ t.text.toList) (op : Operand) :
    Ends (Checked.fillValueOperand t op) (· = EduCpu16.fillValueOperand t.token op) := by
  have hkind : t.token.kind = t.kind := rfl
  rw [Checked.fillValueOperand, EduCpu16.fillValueOperand, hkind]
  cases t.kind with
  | number =>
    apply (textOf_ends h).bind
    rintro _ rfl
    cases parseNumber t.token.text with
    | none => exact Ends.pure rfl
    | some v => exact Ends.pure rfl
  | ident =>
    apply (textOf_ends h).bind
    rintro _ rfl
    cases parseRegister t.token.text with
    | some r => exact Ends.pure rfl
    | none =>
      apply (copyTok_ends (token_text_length h)).bind
      rintro _ rfl
      exact Ends.pure rfl
  | none | label | string | directive => exact Ends.pure rfl

end Token

/-- The token at `i`, or that there is none. -/
theorem token_ends {tl : RawTokenLine} (h : InOrder tl) {i : Nat} {β : Type} {missing : β}
    {body : RawToken → Run β} {Q : β → Prop} (hnone : tokensFrom tl i = [] → Q missing)
    (hsome : ∀ t : RawToken, (0 : Byte) ∈ t.text.toList →
      tokensFrom tl i = t.token :: tokensFrom tl (i + 1) → Ends (body t) Q) :
    Ends (if tl.count ≤ i then pure missing else index tl.tokens i >>= body) Q := by
  split
  · rename_i hend
    exact Ends.pure (hnone (tokensFrom_nil h hend))
  · rename_i hlt
    apply (index_ends h (Nat.not_le.mp hlt)).bind
    intro t ht
    exact hsome t ht.1 ht.2

/-! ## Directives

Each asks whether its argument is there before it looks at it. -/

theorem kind_of_cons_eq {t : Token} {kind : TokenKind} {text : Bytes} {ts rest : List Token}
    (h : t :: ts = ⟨kind, text⟩ :: rest) : t.kind = kind :=
  congrArg Token.kind (List.cons.inj h).1

section Directives

variable {tl : RawTokenLine} {start : Nat}

theorem parseOrg_ends (h : InOrder tl) (out : ParsedLine) : Ends (Checked.parseOrg tl start out)
    (· = EduCpu16.parseOrg tl.lineNo (tokensFrom tl (start + 1)) out) := by
  rw [Checked.parseOrg]
  apply token_ends h
  · intro hnil
    rw [hnil]
    rfl
  · intro t ht htokens
    rw [htokens, EduCpu16.parseOrg]
    apply (fillValueOperand_ends ht _).bind
    rintro _ rfl
    simp only
    cases EduCpu16.fillValueOperand t.token out.dir.value with
    | none => exact Ends.pure rfl
    | some v =>
      simp only
      split
      · exact Ends.pure rfl
      · exact Ends.pure rfl

theorem parseWord_ends (h : InOrder tl) (out : ParsedLine) : Ends (Checked.parseWord tl start out)
    (· = EduCpu16.parseWord tl.lineNo (tokensFrom tl (start + 1)) out) := by
  rw [Checked.parseWord]
  apply token_ends h
  · intro hnil
    rw [hnil]
    rfl
  · intro t ht htokens
    rw [htokens, EduCpu16.parseWord]
    apply (fillValueOperand_ends ht _).bind
    rintro _ rfl
    simp only
    cases EduCpu16.fillValueOperand t.token out.dir.value with
    | none => exact Ends.pure rfl
    | some v => exact Ends.pure rfl

theorem parseAscii_ends (h : InOrder tl) (out : ParsedLine) :
    Ends (Checked.parseAscii tl start out)
      (· = EduCpu16.parseAscii tl.lineNo (tokensFrom tl (start + 1)) out) := by
  rw [Checked.parseAscii]
  apply token_ends h
  · intro hnil
    rw [hnil]
    rfl
  · intro t ht htokens
    have htoken : t.token = ⟨t.kind, t.token.text⟩ := rfl
    rw [htokens, htoken]
    split
    · rename_i hkind
      rw [EduCpu16.parseAscii]
      · exact Ends.pure rfl
      · intro s rest heq
        exact hkind (kind_of_cons_eq heq)
    · rename_i hkind
      rw [not_not.mp hkind, EduCpu16.parseAscii]
      apply (textOf_ends ht).bind
      rintro _ rfl
      have hlen := token_text_length ht
      simp only [if_neg (Nat.not_lt.mpr hlen), Nat.min_eq_left hlen]
      rw [copyString_of_lt (Nat.lt_succ_of_le hlen), List.take_length]
      exact Ends.pure rfl

theorem parseEqu_ends (h : InOrder tl) (out : ParsedLine) : Ends (Checked.parseEqu tl start out)
    (· = EduCpu16.parseEqu tl.lineNo (tokensFrom tl (start + 1)) out) := by
  rw [Checked.parseEqu]
  split
  · rename_i hnone
    have hnil := tokensFrom_nil h hnone
    rw [tokensFrom_succ] at hnil
    rw [EduCpu16.parseEqu]
    · exact Ends.pure rfl
    · intro name text rest heq
      rw [heq] at hnil
      cases hnil
  · rename_i htwo
    have hlt := Nat.not_le.mp htwo
    apply (index_ends h (Nat.lt_of_succ_lt hlt)).bind
    rintro t ⟨ht, htokens⟩
    have htoken : t.token = ⟨t.kind, t.token.text⟩ := rfl
    rw [htokens, htoken]
    split
    · rename_i hkind
      rw [EduCpu16.parseEqu]
      · exact Ends.pure rfl
      · intro name text rest heq
        exact hkind (kind_of_cons_eq heq)
    · rename_i hkind
      apply (index_ends h hlt).bind
      rintro u ⟨hu, hrest⟩
      have hutoken : u.token = ⟨u.kind, u.token.text⟩ := rfl
      rw [hrest, hutoken, not_not.mp hkind]
      split
      · rename_i hnumber
        rw [EduCpu16.parseEqu]
        · exact Ends.pure rfl
        · intro name text rest heq
          exact hnumber (kind_of_cons_eq (List.cons.inj heq).2)
      · rename_i hnumber
        rw [not_not.mp hnumber, EduCpu16.parseEqu]
        apply (textOf_ends ht).bind
        rintro _ rfl
        apply (copyTok_ends (token_text_length ht)).bind
        rintro _ rfl
        apply (textOf_ends hu).bind
        rintro _ rfl
        cases parseNumber u.token.text with
        | none => exact Ends.pure rfl
        | some v => exact Ends.pure rfl

theorem parseDirective_ends (h : InOrder tl) {t : RawToken} (hi : index tl.tokens start = .ok t)
    (ht : (0 : Byte) ∈ t.text.toList) (out : ParsedLine) :
    Ends (Checked.parseDirective tl start out)
      (· = EduCpu16.parseDirective tl.lineNo t.token (tokensFrom tl (start + 1)) out) := by
  rw [Checked.parseDirective, hi, EduCpu16.parseDirective]
  apply (textOf_ends ht).bind
  rintro _ rfl
  simp only
  split
  · exact parseOrg_ends h _
  split
  · exact parseWord_ends h _
  split
  · exact parseAscii_ends h _
  split
  · exact parseEqu_ends h _
  · exact Ends.pure rfl

end Directives

/-! ## Instructions

The operand loop is the one place where an index is not bounded by the number of tokens: there are
three operands and up to sixteen tokens. The check for a fourth operand comes before the access; the
induction is on the tokens that are left. -/

section Instructions

variable {tl : RawTokenLine}

/-- The operand loop, with `k` tokens left. -/
theorem parseOperands_ends (h : InOrder tl) {k i : Nat} (hk : i + k = tl.count) (out : ParsedLine)
    (n : Nat) : Ends (Checked.parseOperands tl (List.range' i k) out n)
      (· = EduCpu16.parseOperands tl.lineNo (tokensFrom tl i) out n) := by
  induction k generalizing i out n with
  | zero =>
    have hend : tl.count ≤ i := hk.ge
    rw [tokensFrom_nil h hend]
    exact Ends.pure rfl
  | succ k ih =>
    obtain ⟨t, hindex, ht, htokens⟩ := index_ends h (i := i) (by omega)
    rw [List.range'_succ, htokens, Checked.parseOperands, EduCpu16.parseOperands]
    by_cases hn : n < 3
    · have hoperand : operandAt n = .ok ⟨n, hn⟩ := dif_pos hn
      rw [if_neg (Nat.not_le.mpr hn), dif_pos hn, hindex, hoperand]
      apply (fillValueOperand_ends ht _).bind
      rintro _ rfl
      cases EduCpu16.fillValueOperand t.token (out.instr.ops ⟨n, hn⟩) with
      | none =>
        apply (textOf_ends ht).bind
        rintro _ rfl
        exact Ends.pure rfl
      | some op => exact ih (by omega) _ (n + 1)
    · rw [if_pos (Nat.not_lt.mp hn), dif_neg hn]
      exact Ends.pure rfl

variable {t : RawToken} {start : Nat}

theorem parseInstruction_ends (h : InOrder tl) (hlt : start < tl.count)
    (hi : index tl.tokens start = .ok t) (ht : (0 : Byte) ∈ t.text.toList) (out : ParsedLine) :
    Ends (Checked.parseInstruction tl start out)
      (· = EduCpu16.parseInstruction tl.lineNo t.token (tokensFrom tl (start + 1)) out) := by
  rw [Checked.parseInstruction, hi, EduCpu16.parseInstruction]
  apply (textOf_ends ht).bind
  rintro _ rfl
  apply (copyTok_ends (token_text_length ht)).bind
  rintro _ rfl
  exact parseOperands_ends h (Nat.add_sub_cancel' hlt) _ 0

theorem parseHead_ends (h : InOrder tl) (hlt : start < tl.count)
    (hi : index tl.tokens start = .ok t) (ht : (0 : Byte) ∈ t.text.toList) (out : ParsedLine) :
    Ends (Checked.parseHead tl start out)
      (· = EduCpu16.parseHead tl.lineNo t.token (tokensFrom tl (start + 1)) out) := by
  have hkind : t.token.kind = t.kind := rfl
  have hhead : Ends (index tl.tokens start) (t = ·) := ⟨t, hi, rfl⟩
  rw [Checked.parseHead, EduCpu16.parseHead, hkind]
  apply hhead.bind
  rintro _ rfl
  cases t.kind with
  | directive => exact parseDirective_ends h hi ht out
  | ident => exact parseInstruction_ends h hlt hi ht out
  | none | label | number | string =>
    apply (textOf_ends ht).bind
    rintro _ rfl
    exact Ends.pure rfl

/-- **The parser**: no fault, and what the list model says. -/
theorem checked_parseLine (h : InOrder tl) :
    Checked.parseLine tl = .ok (EduCpu16.parseLine tl.tokenLine) := by
  have hends : Ends (Checked.parseLine tl) (· = EduCpu16.parseLine tl.tokenLine) := by
    have htokens : tl.tokenLine = ⟨tokensFrom tl 0, tl.lineNo⟩ := rfl
    rw [Checked.parseLine, htokens]
    simp only
    split
    · rename_i hzero
      rw [tokensFrom_nil h (Nat.le_of_eq hzero)]
      exact Ends.pure rfl
    · rename_i hzero
      have hpos := Nat.pos_of_ne_zero hzero
      obtain ⟨t, hindex, ht, hfrom⟩ := index_ends h hpos
      rw [hindex, hfrom]
      show Ends (if t.kind = .label then _ else _) _
      split
      · rename_i hlabel
        apply (textOf_ends ht).bind
        rintro _ rfl
        apply (copyTok_ends (token_text_length ht)).bind
        rintro _ rfl
        split
        · rename_i hone
          rw [tokensFrom_nil h hone.le, parseLine_alone tl.lineNo hlabel]
          exact Ends.pure rfl
        · rename_i hone
          have hlt : 1 < tl.count := Nat.lt_of_le_of_ne hpos (Ne.symm hone)
          obtain ⟨u, hindex', hu, hfrom'⟩ := index_ends h hlt
          rw [hfrom', parseLine_labelled tl.lineNo hlabel]
          exact parseHead_ends h hlt hindex' hu _
      · rename_i hlabel
        rw [parseLine_unlabelled tl.lineNo hlabel]
        exact parseHead_ends h hpos hindex ht _
  obtain ⟨_, hrun, rfl⟩ := hends
  exact hrun

end Instructions

/-! ## The front end

The lexer leaves what the parser needs, on every line. -/

/-- What the lexer may leave: sixteen tokens at most, all of them strings with room for their NUL,
and no empty text but that of a string literal. -/
structure TokensFit (tl : RawTokenLine) : Prop where
  count : tl.count ≤ maxTokensPerLine
  ended : ∀ t ∈ tl.used, (0 : Byte) ∈ t.text.toList
  length : ∀ t ∈ tl.used, t.token.text.length ≤ maxTokenLen
  nonempty : ∀ t ∈ tl.used, t.kind ≠ .string → t.token.text ≠ []

theorem lexLine_nonempty (src : Bytes) (lineNo : Nat) :
    ∀ t ∈ (EduCpu16.lexLine src lineNo).1.tokens, t.kind ≠ .string → t.text ≠ [] := by
  refine lexLine_forall (fun hturn => ?_) src lineNo
  have hat := turn_token_iff.mp hturn
  generalize EduCpu16.skipSeparators _ = p at hat
  intro hkind
  cases hat with
  | string => exact absurd rfl hkind
  | number hw =>
    rw [tokenText_number hw]
    exact hw.ne_nil
  | label hw | word hw =>
    rw [tokenText_word hw]
    exact hw.ne_nil

/-- **No line breaks the front end.** On every line the lexer comes to an end without a fault, the
tokens it leaves fit their arrays, and the parser runs on them without a fault; both leave what the
list model says. -/
theorem front_end_safe (line : CStr) (lineNo fuel : Nat) (buf : Buf) (out : RawTokenLine)
    (hfuel : line.bytes.length < fuel) :
    ∃ tl err, Checked.lexLine line lineNo fuel buf out = .ok (tl, err) ∧ TokensFit tl ∧
      (tl.tokenLine, err) = EduCpu16.lexLine line.bytes lineNo ∧
      Checked.parseLine tl = .ok (EduCpu16.parseLine tl.tokenLine) := by
  obtain ⟨⟨tl, err⟩, hrun, hin, hsame⟩ := checked_lexLine hfuel lineNo buf out
  refine ⟨tl, err, hrun, ⟨hin.count, hin.ended, ?_, ?_⟩, hsame, checked_parseLine hin⟩
  · intro t ht
    exact token_text_length (hin.ended t ht)
  · intro t ht
    apply lexLine_nonempty line.bytes lineNo t.token
    rw [← hsame]
    exact List.mem_map_of_mem ht

/-- A literal that ends in the middle of an escape. -/
theorem front_end_safe_escape : ∃ tl err,
    Checked.lexLine ⟨ascii ".ascii \"a\\", by decide⟩ 1 16 (Vector.replicate _ 0)
      ⟨Vector.replicate _ ⟨.none, Vector.replicate _ 0⟩, 0, 0⟩ = .ok (tl, err) ∧ TokensFit tl ∧
    (tl.tokenLine, err) = EduCpu16.lexLine (ascii ".ascii \"a\\") 1 ∧
    Checked.parseLine tl = .ok (EduCpu16.parseLine tl.tokenLine) :=
  front_end_safe _ 1 16 _ _ (by decide)

end Proof
end EduCpu16
