import EduCpu16.Proof.Assembly
import EduCpu16.Proof.Print
import EduCpu16.Proof.Summary
import EduCpu16.Source.Format

/-!
# Reading undoes writing

A statement that was read from a line is read again from the text it is written out as
(`readsAs_printStmt`): the tokens of a line can be written (`wellSpelled_of_lexes`), and what is
read from tokens that can be written has such tokens (`readStmt_tokens`). So a source may be written
out afresh and assembles to what it did.

Written out is not the same as copied. A mnemonic changes its case, a number its notation, a string
its escapes; each time it is reading that identifies the two, and the lemmas are about one kind of
token each. The last section lifts them to sources; files are the matter of `Formatter.lean`.
-/

namespace EduCpu16
namespace Proof

open CLib Source

/-! ## Tokens of a line

What the lexer stores in a token is of the form that a token of its kind is written with. -/

theorem spelled_of_word {w : Bytes} (hw : WordText w) : Spelled (wordKind w) w := by
  have hstart : ∀ c : Byte, isIdentStart c = true → c ≠ ch '.' → isalpha c = true ∨ c = ch '_' := by
    decide
  cases w with
  | nil => exact absurd rfl hw.ne_nil
  | cons c cs =>
    have hcs : ∀ b ∈ cs, IsWordChar b := fun b hb => isIdentCont_iff.mp (hw.cont b hb)
    by_cases hdot : c = ch '.'
    · subst hdot
      have hkind : wordKind (ch '.' :: cs) = .directive := if_pos rfl
      exact hkind ▸ .directive hcs
    · have hkind : wordKind (c :: cs) = .ident := if_neg hdot
      exact hkind ▸ .ident (hstart c hw.start hdot) hcs

theorem spelled_signed {sign p : Bytes} {s : Int} (hsign : (sign, s) ∈ signs)
    (hdigit : isdigit (deref p) = true) (hall : ∀ c ∈ p, isalnum c = true) :
    Spelled .number (sign ++ p) := by
  cases p with
  | nil => exact absurd hdigit (by decide)
  | cons d ds =>
    refine .number ?_ hdigit fun b hb => hall b (List.mem_cons_of_mem d hb)
    exact List.mem_map_of_mem (f := Prod.fst) hsign

theorem spelled_of_number {w : Bytes} (hw : NumberText w) : Spelled .number w := by
  obtain ⟨sign, s, p, hsign, rfl, hdigit, hall⟩ := hw.split
  exact spelled_signed hsign hdigit hall

/-- A token that was read can be written. -/
theorem wellSpelled_of_turn {p text rest : Bytes} {kind : TokenKind}
    (h : turn p = .token kind text rest) : WellSpelled ⟨kind, tokenText text⟩ := by
  refine ⟨?_, tokenText_length text⟩
  have hat := turn_token_iff.mp h
  generalize skipSeparators p = q at hat
  cases hat with
  | string =>
    refine .string fun b hb hzero => ?_
    exact not_mem_cstr text (hzero ▸ List.mem_of_mem_take hb)
  | number htext =>
    rw [tokenText_number htext]
    exact spelled_of_number htext
  | label hw =>
    rw [tokenText_word hw]
    refine .label ?_ (spelled_of_word hw)
    rw [wordKind]
    split
    · exact .inr rfl
    · exact .inl rfl
  | word hw =>
    rw [tokenText_word hw]
    exact spelled_of_word hw

theorem wellSpelled_of_lexes {src : Bytes} {ts : List Token} (h : Lexes src ts) :
    ∀ t ∈ ts, WellSpelled t := by
  induction h with
  | stop => exact fun _ ht => absurd ht List.not_mem_nil
  | token hturn _ ih => exact List.forall_mem_cons.mpr ⟨wellSpelled_of_turn hturn, ih⟩

/-! ## Tokens of a statement

The cases of `readCmd`: a mnemonic with its arguments, and the four directives. An argument is
printed as a register, a decimal number or its name, all of which read as the argument. -/

theorem registerName_spec : ∀ r : Byte, r.toNat < 8 →
    Spelled .ident (registerName r) ∧ (registerName r).length ≤ maxTokenLen ∧
    parseRegister (registerName r) = some r := by
  have hall : ∀ r : Byte, r.toNat < 8 → isalnum (ch '0' + r) = true ∧
      parseRegister (registerName r) = some r := by decide
  intro r hr
  obtain ⟨halnum, hparse⟩ := hall r hr
  have hlen : 2 ≤ maxTokenLen := by decide
  refine ⟨.ident (.inl (by decide)) ?_, hlen, hparse⟩
  exact List.forall_mem_singleton.mpr (.inl halnum)

/-- Sign and digits. -/
theorem signedDecimal_split (v : Int) : ∃ sign s, (sign, s) ∈ signs ∧
    signedDecimal v = sign ++ decimal v.natAbs ∧ v = s * v.natAbs := by
  rw [signedDecimal]
  split
  · exact ⟨ascii "-", -1, by decide, rfl, by omega⟩
  · exact ⟨[], 1, by decide, rfl, by omega⟩

/-- A number is read from what it is printed as. -/
theorem parseNumber_signedDecimal (v : I32) : WellSpelled ⟨.number, signedDecimal v.toInt⟩ ∧
    parseNumber (signedDecimal v.toInt) = some v := by
  have hlo := BitVec.two_mul_toInt_lt (x := v)
  have hhi := BitVec.le_two_mul_toInt (x := v)
  obtain ⟨sign, s, hsign, htext, hv⟩ := signedDecimal_split v.toInt
  have hmarked : Marked (decimal v.toInt.natAbs) .decimal [] (decimal v.toInt.natAbs) :=
    { text := ⟨[], List.mem_singleton.mpr rfl, rfl⟩, again := .inl rfl
      digits := decimal_digits _ }
  have hlen := decimal_length_le (n := v.toInt.natAbs) (k := 9) (by omega)
  have hsignLen : sign.length ≤ 1 := by
    simp only [signs, List.mem_cons, Prod.mk.injEq, List.not_mem_nil, or_false] at hsign
    rcases hsign with ⟨rfl, -⟩ | ⟨rfl, -⟩ | ⟨rfl, -⟩
    · exact Nat.zero_le 1
    · exact Nat.le_refl 1
    · exact Nat.le_refl 1
  have hmax : maxTokenLen = 127 := rfl
  rw [htext]
  refine ⟨⟨spelled_signed hsign hmarked.alnum.1 hmarked.alnum.2, ?_⟩, ?_⟩
  · show (sign ++ decimal v.toInt.natAbs).length ≤ maxTokenLen
    rw [List.length_append]
    omega
  · rw [parseNumber_marked hsign hmarked]
    congr 1
    apply BitVec.eq_of_toInt_eq
    have hpos : positional Radix.decimal.base (decimal v.toInt.natAbs) = v.toInt.natAbs :=
      positional_decimal _
    rw [hpos, toInt_of_fits hsign, ← hv]
    rw [← hv]
    unfold FitsI32
    omega

/-- A register or a number. -/
def Plain (a : Arg) : Prop := (∃ r, a = .reg r ∧ r.toNat < 8) ∨ ∃ v, a = .imm v

theorem Plain.token {a : Arg} (h : Plain a) : WellSpelled a.token ∧ readArg a.token = some a := by
  rcases h with ⟨r, rfl, hr⟩ | ⟨v, rfl⟩
  · obtain ⟨hspelled, hlen, hparse⟩ := registerName_spec r hr
    refine ⟨⟨hspelled, hlen⟩, ?_⟩
    show some ((parseRegister (registerName r)).elim (.name _) .reg) = some (Arg.reg r)
    rw [hparse]
    rfl
  · obtain ⟨hspelled, hread⟩ := parseNumber_signedDecimal v
    refine ⟨hspelled, ?_⟩
    show (parseNumber (signedDecimal v.toInt)).map Arg.imm = some (.imm v)
    rw [hread]
    rfl

theorem readArg_token {t : Token} (ht : WellSpelled t) {a : Arg} (h : readArg t = some a) :
    WellSpelled a.token ∧ readArg a.token = some a := by
  obtain ⟨kind, text⟩ := t
  cases kind with
  | number =>
    obtain ⟨v, -, rfl⟩ := Option.map_eq_some_iff.mp h
    exact Plain.token (.inr ⟨v, rfl⟩)
  | ident =>
    obtain rfl : (parseRegister text).elim (.name text) .reg = a := Option.some.inj h
    cases hreg : parseRegister text with
    | none =>
      refine ⟨ht, ?_⟩
      show some ((parseRegister text).elim (.name text) .reg) = some (Arg.name text)
      rw [hreg]
      rfl
    | some r => exact Plain.token (.inl ⟨r, rfl, parseRegister_lt hreg⟩)
  | none | label | string | directive => cases h

theorem mapM_readArg_tokens {ts : List Token} (hts : ∀ t ∈ ts, WellSpelled t) {as : List Arg}
    (h : ts.mapM readArg = some as) : (∀ t ∈ as.map Arg.token, WellSpelled t) ∧
      (as.map Arg.token).mapM readArg = some as := by
  have hall : ∀ a ∈ as, WellSpelled a.token ∧ readArg a.token = some a := by
    intro a ha
    obtain ⟨t, ht, hread⟩ := Traverse.exists_left_of_mem (Traverse.mapM_eq_some_iff.mp h) ha
    exact readArg_token (hts t ht) hread
  refine ⟨List.forall_mem_map.mpr fun a ha => (hall a ha).1, Traverse.mapM_eq_some_iff.mpr ?_⟩
  rw [List.forall₂_map_left_iff]
  exact List.forall₂_same.mpr fun a ha => (hall a ha).2

/-- Lower case is written with the same characters. -/
theorem spelled_lower {text : Bytes} (h : WellSpelled ⟨.ident, text⟩) :
    WellSpelled ⟨.ident, text.map tolower⟩ := by
  have hfirst : ∀ c : Byte, isalpha c = true ∨ c = ch '_' →
      isalpha (tolower c) = true ∨ tolower c = ch '_' := by decide
  have hrest : ∀ c : Byte, isalnum c = true ∨ c = ch '_' →
      isalnum (tolower c) = true ∨ tolower c = ch '_' := by decide
  obtain ⟨hspelled, hlen⟩ := h
  refine ⟨?_, by rwa [List.length_map]⟩
  cases hspelled with
  | ident hc hcs =>
    exact .ident (hfirst _ hc) (List.forall_mem_map.mpr fun b hb => hrest b (hcs b hb))

theorem wellSpelled_dirName (k : DirectiveKind) : WellSpelled ⟨.directive, dirName k⟩ := by
  have hchars : ∀ b ∈ (dirName k).tail, isalnum b = true ∨ b = ch '_' := by
    cases k
    all_goals decide
  refine ⟨?_, by cases k <;> decide⟩
  cases k
  all_goals exact .directive hchars

theorem readDirName_dirName (k : DirectiveKind) : readDirName (dirName k) = some k :=
  readDirName_eq_some.mpr (dirName_tolower k)

/-- A directive and its arguments. -/
theorem readDir_tokens {k : DirectiveKind} {args : List Token} (hargs : ∀ t ∈ args, WellSpelled t)
    {c : Cmd} (h : readDir k args = some c) :
    (∀ t ∈ c.tokens, WellSpelled t) ∧ readCmd c.tokens = some c := by
  have hname := wellSpelled_dirName k
  have hdir := readDirName_dirName k
  unfold readDir at h
  -- One case for each pair of directive and number of arguments that is accepted.
  split at h
  · rename_i t _
    split at h
    · rename_i v harg
      obtain rfl := Option.some.inj h
      obtain ⟨hspelled, hread⟩ := readArg_token (hargs t List.mem_cons_self) harg
      refine ⟨List.forall_mem_cons.mpr ⟨hname, List.forall_mem_singleton.mpr hspelled⟩, ?_⟩
      simp only [Cmd.tokens, readCmd, hdir, Option.bind_some, readDir, hread]
    · cases h
  · rename_i t _
    obtain ⟨a, harg, rfl⟩ := Option.map_eq_some_iff.mp h
    obtain ⟨hspelled, hread⟩ := readArg_token (hargs t List.mem_cons_self) harg
    refine ⟨List.forall_mem_cons.mpr ⟨hname, List.forall_mem_singleton.mpr hspelled⟩, ?_⟩
    simp only [Cmd.tokens, readCmd, hdir, Option.bind_some, readDir, hread, Option.map_some]
  · rename_i t _
    split at h
    · rename_i hkind
      obtain rfl := Option.some.inj h
      obtain ⟨kind, text⟩ := t
      obtain rfl : kind = .string := hkind
      refine ⟨List.forall_mem_cons.mpr ⟨hname, List.forall_mem_singleton.mpr ?_⟩, ?_⟩
      · exact hargs _ List.mem_cons_self
      · simp only [Cmd.tokens, readCmd, hdir, Option.bind_some, readDir, if_true]
    · cases h
  · rename_i n t _
    split at h
    · rename_i hkinds
      obtain ⟨v, -, rfl⟩ := Option.map_eq_some_iff.mp h
      obtain ⟨kind, text⟩ := n
      obtain rfl : kind = .ident := hkinds.1
      obtain ⟨hspelled, hread⟩ := parseNumber_signedDecimal v
      refine ⟨List.forall_mem_cons.mpr ⟨hname, List.forall_mem_cons.mpr ⟨?_,
        List.forall_mem_singleton.mpr hspelled⟩⟩, ?_⟩
      · exact hargs _ List.mem_cons_self
      · simp only [Cmd.tokens, readCmd, hdir, Option.bind_some, readDir, Arg.token, and_self,
          if_true, hread, Option.map_some]
    · cases h
  · cases h

theorem readCmd_tokens {ts : List Token} (hts : ∀ t ∈ ts, WellSpelled t) {c : Cmd}
    (h : readCmd ts = some c) :
    (∀ t ∈ c.tokens, WellSpelled t) ∧ readCmd c.tokens = some c := by
  cases ts with
  | nil =>
    obtain rfl := Option.some.inj h
    exact ⟨fun _ ht => absurd ht List.not_mem_nil, rfl⟩
  | cons head args =>
    obtain ⟨kind, text⟩ := head
    obtain ⟨hhead, hargs⟩ := List.forall_mem_cons.mp hts
    cases kind with
    | ident =>
      have htwice : ∀ c : Byte, tolower (tolower c) = tolower c := by decide
      simp only [readCmd] at h
      split at h
      · rename_i hlen
        obtain ⟨as, has, rfl⟩ := Option.map_eq_some_iff.mp h
        obtain ⟨hspelled, hread⟩ := mapM_readArg_tokens hargs has
        have hlen' : (as.map Arg.token).length ≤ 3 := by
          rw [List.length_map, ← (Traverse.mapM_eq_some_iff.mp has).length_eq]
          exact hlen
        refine ⟨List.forall_mem_cons.mpr ⟨spelled_lower hhead, hspelled⟩, ?_⟩
        simp only [Cmd.tokens, readCmd, if_pos hlen', hread, Option.map_some, List.map_map,
          Function.comp_def, htwice]
      · cases h
    | directive =>
      obtain ⟨k, -, hdir⟩ := Option.bind_eq_some_iff.mp h
      exact readDir_tokens hargs hdir
    | none | label | number | string => cases h

/-- A command does not start with a label. -/
theorem splitLabel_tokens (c : Cmd) : splitLabel c.tokens = ([], c.tokens) := by
  cases c <;> rfl

theorem readStmt_unlabelled {ts : List Token} (hts : ∀ t ∈ ts, WellSpelled t) {c : Cmd}
    (h : readCmd ts = some c) : (∀ t ∈ (⟨[], c⟩ : Stmt).tokens, WellSpelled t) ∧
      readStmt (⟨[], c⟩ : Stmt).tokens = some ⟨[], c⟩ := by
  obtain ⟨hspelled, hread⟩ := readCmd_tokens hts h
  have htokens : (⟨[], c⟩ : Stmt).tokens = c.tokens := rfl
  rw [htokens, readStmt, splitLabel_tokens, hread]
  exact ⟨hspelled, rfl⟩

/-- **What was read can be written**, and is read again. -/
theorem readStmt_tokens {ts : List Token} (hts : ∀ t ∈ ts, WellSpelled t) {s : Stmt}
    (h : readStmt ts = some s) :
    (∀ t ∈ s.tokens, WellSpelled t) ∧ readStmt s.tokens = some s := by
  obtain ⟨c, hc, rfl⟩ := Option.map_eq_some_iff.mp h
  cases ts with
  | nil => exact readStmt_unlabelled hts hc
  | cons t ts =>
    obtain ⟨ht, hrest⟩ := List.forall_mem_cons.mp hts
    by_cases hlabel : t.kind = .label
    · rw [splitLabel, if_pos hlabel] at hc ⊢
      obtain ⟨kind, text⟩ := t
      obtain rfl : kind = .label := hlabel
      obtain ⟨hspelled, hread⟩ := readCmd_tokens hrest hc
      have hne : text ≠ [] := by
        rintro rfl
        cases ht.spelled with
        | label hkind hw =>
          rcases hkind with rfl | rfl
          · cases hw
          · cases hw
      have htokens : (⟨text, c⟩ : Stmt).tokens = ⟨.label, text⟩ :: c.tokens := by
        rw [Stmt.tokens, if_neg hne]
        rfl
      rw [htokens, readStmt, splitLabel, if_pos rfl, hread]
      exact ⟨List.forall_mem_cons.mpr ⟨ht, hspelled⟩, rfl⟩
    · rw [splitLabel, if_neg hlabel] at hc ⊢
      exact readStmt_unlabelled hts hc

theorem readCmd_length {ts : List Token} {c : Cmd} (h : readCmd ts = some c) :
    c.tokens.length ≤ 4 := by
  cases c with
  | instr m args =>
    cases ts with
    | nil => cases h
    | cons head rest =>
      simp only [readCmd] at h
      split at h
      · split at h
        · rename_i hlen
          obtain ⟨as, has, hcmd⟩ := Option.map_eq_some_iff.mp h
          obtain ⟨-, rfl⟩ := Cmd.instr.inj hcmd
          rw [(Traverse.mapM_eq_some_iff.mp has).length_eq] at hlen
          simp only [Cmd.tokens, List.length_cons, List.length_map]
          omega
        · cases h
      · obtain ⟨k, -, hdir⟩ := Option.bind_eq_some_iff.mp h
        unfold readDir at hdir
        split at hdir
        · split at hdir
          · cases hdir
          · cases hdir
        · obtain ⟨a, -, habs⟩ := Option.map_eq_some_iff.mp hdir
          cases habs
        · split at hdir
          · cases hdir
          · cases hdir
        · split at hdir
          · obtain ⟨a, -, habs⟩ := Option.map_eq_some_iff.mp hdir
            cases habs
          · cases hdir
        · cases hdir
      · cases h
  | nothing | word | ascii | org | equ => simp [Cmd.tokens]

/-! ## Lines

A statement has at most five tokens, so what is written never has too many for the token array.
Behind each token stands a blank: no two of them run together, whatever they are. -/

theorem gap_blank : Gap (ascii " ") := by
  unfold Gap
  decide

/-- The line breaks a string may denote are escaped, as the backslashes and quotes are. -/
theorem denotes_written : ∀ {s : Bytes}, (∀ b ∈ s, b ≠ 0) → Denotes (s.flatMap writeByte) s
  | [], _ => .nil
  | c :: s, h => by
    obtain ⟨hc, hs⟩ := List.forall_mem_cons.mp h
    have hrest := denotes_written hs
    have hescape : ∀ e, e ≠ 0 → escapeChar e = c → writeByte c = [backslash, e] →
        Denotes ((c :: s).flatMap writeByte) (c :: s) := by
      intro e he hchar hwrite
      rw [List.flatMap_cons, hwrite, ← hchar]
      exact .escape he hrest
    by_cases hlf : c = newline
    · subst hlf
      exact hescape (ch 'n') (by decide) rfl rfl
    by_cases hcr : c = 13
    · subst hcr
      exact hescape (ch 'r') (by decide) rfl rfl
    by_cases hself : c = backslash ∨ c = quote
    · have hchar : escapeChar c = c := by
        rcases hself with rfl | rfl
        · rfl
        · rfl
      refine hescape c hc hchar ?_
      rw [writeByte, if_neg hlf, if_neg hcr, if_pos hself]
    · obtain ⟨hback, hquote⟩ := not_or.mp hself
      rw [List.flatMap_cons, writeByte, if_neg hlf, if_neg hcr, if_neg hself]
      exact .char hc hquote hback hrest

/-- A token that is written is read back. -/
theorem lexes_writeToken {t : Token} (h : WellSpelled t) {q : Bytes} {ts : List Token}
    (hq : Ends q) (hrest : Lexes q ts) : Lexes (writeToken t ++ q) (t :: ts) := by
  obtain ⟨kind, w⟩ := t
  cases kind with
  | string =>
    cases h.spelled with
    | string hs =>
      obtain ⟨hat, htext⟩ := tokenAt_literal (denotes_written hs) hs h.length q
      exact lexes_tokenAt hat htext hrest
  | none | ident | label | number | directive => exact lexes_printToken h hq hrest

theorem lexes_writeTokens : ∀ {ts : List Token}, (∀ t ∈ ts, WellSpelled t) →
    Lexes (ts.flatMap fun t => writeToken t ++ ascii " ") ts
  | [], _ => .stop rfl
  | t :: ts, h => by
    obtain ⟨ht, hts⟩ := List.forall_mem_cons.mp h
    rw [List.flatMap_cons, List.append_assoc]
    exact lexes_writeToken ht (ends_gap gap_blank (.inl (List.cons_ne_nil _ _)))
      (lexes_gap gap_blank (lexes_writeTokens hts))

theorem tokens_length_le {s : Stmt} {ts : List Token} (h : readStmt ts = some s) :
    s.tokens.length ≤ 5 := by
  obtain ⟨c, hc, rfl⟩ := Option.map_eq_some_iff.mp h
  have hlen := readCmd_length hc
  rw [Stmt.tokens, List.length_append]
  refine Nat.add_le_add (b := 1) ?_ hlen
  split
  · exact Nat.zero_le 1
  · exact Nat.le_refl 1

/-- A statement is read from what it is written out as if its tokens can be written and spell it. -/
theorem readsAs_of_tokens {s : Stmt} (hspelled : ∀ t ∈ s.tokens, WellSpelled t)
    (hread : readStmt s.tokens = some s) : ReadsAs (printStmt s) s := by
  have hmax : 5 ≤ maxTokensPerLine := by decide
  exact ⟨s.tokens, lexes_writeTokens hspelled, (tokens_length_le hread).trans hmax, hread⟩

theorem readsAs_of_readCmd {ts : List Token} (hts : ∀ t ∈ ts, WellSpelled t) {c : Cmd}
    (h : readCmd ts = some c) : ReadsAs (printStmt { cmd := c }) { cmd := c } := by
  obtain ⟨hspelled, hread⟩ := readStmt_unlabelled hts h
  exact readsAs_of_tokens hspelled hread

/-- A statement that was read is read again. -/
theorem readsAs_printStmt {src : Bytes} {s : Stmt} (h : ReadsAs src s) :
    ReadsAs (printStmt s) s := by
  obtain ⟨ts, hts, -, hread⟩ := h
  obtain ⟨hspelled, hagain⟩ := readStmt_tokens (wellSpelled_of_lexes hts) hread
  exact readsAs_of_tokens hspelled hagain

theorem formatLine_of_readsAs {src : Bytes} {s : Stmt} (h : ReadsAs src s) :
    formatLine src = printStmt s := by
  obtain ⟨ts, hts, hmax, hread⟩ := h
  have hlex : lexLine src 1 = (⟨ts, 1⟩, none) := lexLine_iff.mpr ⟨rfl, hts, hmax⟩
  simp only [formatLine, hlex, hread, Option.elim_some]

/-- What is no statement is not touched. -/
theorem formatLine_of_not_readsAs {src : Bytes} (h : ∀ s, ¬ ReadsAs src s) :
    formatLine src = src := by
  rw [formatLine]
  split
  · rename_i tl hlex
    obtain ⟨-, hts, hmax⟩ := lexLine_iff.mp hlex
    cases hread : readStmt tl.tokens with
    | none => rfl
    | some s => exact absurd ⟨tl.tokens, hts, hmax, hread⟩ (h s)
  · rfl

theorem readsAs_formatLine_iff {src : Bytes} {s : Stmt} :
    ReadsAs (formatLine src) s ↔ ReadsAs src s := by
  by_cases hsome : ∃ s', ReadsAs src s'
  · obtain ⟨s', hs'⟩ := hsome
    rw [formatLine_of_readsAs hs']
    constructor
    · intro h
      rwa [h.unique (readsAs_printStmt hs')]
    · intro h
      rw [h.unique hs']
      exact readsAs_printStmt hs'
  · rw [formatLine_of_not_readsAs (not_exists.mp hsome)]

theorem formatLine_formatLine (src : Bytes) : formatLine (formatLine src) = formatLine src := by
  by_cases hsome : ∃ s, ReadsAs src s
  · obtain ⟨s, hs⟩ := hsome
    rw [formatLine_of_readsAs (readsAs_formatLine_iff.mpr hs), formatLine_of_readsAs hs]
  · rw [formatLine_of_not_readsAs fun s hs => hsome ⟨s, readsAs_formatLine_iff.mp hs⟩]

/-! ## Sources

A source written out afresh has the same statements, and its results are those of its statements. -/

theorem forall₂_formatLine {lines : List Bytes} {ss : List Stmt} :
    List.Forall₂ ReadsAs (lines.map formatLine) ss ↔ List.Forall₂ ReadsAs lines ss := by
  rw [List.forall₂_map_left_iff]
  constructor
  · intro h
    exact h.imp fun _ _ => readsAs_formatLine_iff.mp
  · intro h
    exact h.imp fun _ _ => readsAs_formatLine_iff.mpr

theorem assembles_formatLine {opt : AsmOptions} {lines : List Bytes} :
    Assembles opt (lines.map formatLine) ↔ Assembles opt lines := by
  rw [assembles_iff_statements, assembles_iff_statements]
  simp only [forall₂_formatLine]

theorem layout_of_statements {lines : List Bytes} {ss : List Stmt}
    (h : List.Forall₂ ReadsAs lines ss) (hzero : (pass1 lines).nErrors = 0) :
    layoutOf lines = ss.map fun s => s.cmd.item := by
  obtain ⟨-, -, hrecs⟩ := pass1_statements h hzero
  have hitems : (placed 0 ss).map (fun p => p.2.cmd.item) = (pass1 lines).parsed.map itemOf := by
    rw [← List.forall₂_eq_eq_eq, List.forall₂_map_left_iff, List.forall₂_map_right_iff]
    exact hrecs.imp fun p pl hrec => hrec.stmt.item.symm
  rw [← parsed_layout hzero, ← hitems]
  exact map_placed (fun s => s.cmd.item) ss 0

/-- The summary is that of the statements. -/
theorem result_of_statements {opt : AsmOptions} {lines lines' : List Bytes} {ss : List Stmt}
    (h : List.Forall₂ ReadsAs lines ss) (h' : List.Forall₂ ReadsAs lines' ss)
    (hok : Assembles opt lines) (hok' : Assembles opt lines') :
    (assembleLines opt lines').result = (assembleLines opt lines).result := by
  have hzero := (assembles_iff.mp hok).1
  have hzero' := (assembles_iff.mp hok').1
  have hlayout := layout_of_statements h hzero
  have hlayout' := layout_of_statements h' hzero'
  have horigin : (pass1 lines').origin = (pass1 lines).origin := by
    rw [(pass1_originOf hzero).origin, (pass1_originOf hzero').origin, hlayout, hlayout']
  have hwords : (assembleLines opt lines').result.nWords =
      (assembleLines opt lines).result.nWords := by
    rw [pass2_nWords, pass2_nWords, emitted_eq_stores h hok, emitted_eq_stores h' hok']
  have herrors : (assembleLines opt lines').result.nErrors =
      (assembleLines opt lines).result.nErrors := Eq.trans hok' (Eq.symm hok)
  show AsmResult.mk _ _ _ = AsmResult.mk _ _ _
  rw [AsmResult.mk.injEq]
  exact ⟨horigin, hwords, herrors⟩

end Proof
end EduCpu16
