import EduCpu16.Proof.Lexer

/-!
# The lexer, a turn at a time

A turn of the main loop of `lex_line` skips separators and then stops, fails or reads one token
(`turn`). It does not look at the tokens read so far, and it always moves on, so a line is lexed
without an error exactly if turn after turn reads a token until one stops (`Lexes`), and there are
at most `MAX_TOKENS_PER_LINE` of them (`lexLine_iff`).

So the loop, its fuel and the token array are dealt with here once. What is proved of lines
afterwards goes by induction on `Lexes`, with one turn for a step, and a turn is described by the
text at its position (`TokenAt`, `turn_token_iff`).
-/

namespace EduCpu16
namespace Proof

open CLib Source

/-- What one turn comes to. -/
inductive Turn
  | stop
  | fail (msg : Bytes)
  | token (kind : TokenKind) (text rest : Bytes)

/-- A turn at `p`, up to the call of `push_token`. -/
def turn (p : Bytes) : Turn :=
  let p := skipSeparators p
  if deref p = 0 ∨ deref p = ch ';' then .stop
  else if deref p = quote then
    match scanString p.tail [] with
    | none => .fail (ascii "string literal too long")
    | some (q, buf) =>
        if deref q ≠ quote then .fail (ascii "unterminated string literal")
        else .token .string buf q.tail
  else if startsNumber p then .token .number (scanNumber p).2 (scanNumber p).1
  else if isIdentStart (deref p) then
    if deref (scanIdent p).1 = ch ':' then .token .label (scanIdent p).2 (scanIdent p).1.tail
    else .token (if deref p = ch '.' then .directive else .ident) (scanIdent p).2 (scanIdent p).1
  else .fail (unexpectedCharacter (deref p))

/-- The text `push_token` stores. -/
def tokenText (text : Bytes) : Bytes := (cstr text).take maxTokenLen

theorem tokenText_length (text : Bytes) : (tokenText text).length ≤ maxTokenLen := by
  rw [tokenText, List.length_take]
  exact Nat.min_le_left _ _

theorem tokenText_word {w : Bytes} (hw : WordText w) : tokenText w = w := by
  rw [tokenText, hw.cstr_eq, List.take_of_length_le hw.length]

theorem pushToken_eq (toks : List Token) (kind : TokenKind) (text : Bytes) :
    pushToken toks kind text =
      if maxTokensPerLine ≤ toks.length then none else some (toks ++ [⟨kind, tokenText text⟩]) :=
  rfl

/-- The main loop takes one turn after the other. -/
theorem lexLoop_succ (lineNo fuel : Nat) (p : Bytes) (toks : List Token) :
    lexLoop lineNo (fuel + 1) p toks =
      match turn p with
      | .stop => (toks, none)
      | .fail msg => (toks, some ⟨lineNo, .internal, msg⟩)
      | .token kind text rest =>
          if maxTokensPerLine ≤ toks.length then
            (toks, some ⟨lineNo, .internal, ascii "too many tokens"⟩)
          else lexLoop lineNo fuel rest (toks ++ [⟨kind, tokenText text⟩]) := by
  rw [lexLoop, turn]
  by_cases hstop : deref (skipSeparators p) = 0 ∨ deref (skipSeparators p) = ch ';'
  · simp only [if_pos hstop]
  by_cases hfull : maxTokensPerLine ≤ toks.length
  all_goals
    by_cases hquote : deref (skipSeparators p) = quote
    · cases scanString (skipSeparators p).tail [] with
      | none => simp only [if_neg hstop, if_pos hquote]
      | some r =>
        by_cases hend : deref r.1 ≠ quote
        · simp only [if_neg hstop, if_pos hquote, if_pos hend]
        · simp only [if_neg hstop, if_pos hquote, if_neg hend, pushToken_eq, hfull, if_true,
            if_false]
    by_cases hnum : startsNumber (skipSeparators p) = true
    · simp only [if_neg hstop, if_neg hquote, if_pos hnum, pushToken_eq, hfull, if_true, if_false]
    by_cases hident : isIdentStart (deref (skipSeparators p)) = true
    · by_cases hcolon : deref (scanIdent (skipSeparators p)).1 = ch ':'
      · simp only [if_neg hstop, if_neg hquote, if_neg hnum, if_pos hident, if_pos hcolon,
          pushToken_eq, hfull, if_true, if_false]
      · simp only [if_neg hstop, if_neg hquote, if_neg hnum, if_pos hident, if_neg hcolon,
          pushToken_eq, hfull, if_true, if_false]
    · simp only [if_neg hstop, if_neg hquote, if_neg hnum, if_neg hident]

/-! ## Separators

They are skipped before every token and nowhere else, so any others may stand in their place. -/

theorem skipSeparators_skip {c : Byte} (hzero : c ≠ 0) (hsep : isspace c = true ∨ c = ch ',')
    (p : Bytes) : skipSeparators (c :: p) = skipSeparators p := by
  rw [skipSeparators, if_pos ⟨hzero, hsep⟩]

theorem turn_skip {c : Byte} (hzero : c ≠ 0) (hsep : isspace c = true ∨ c = ch ',') (p : Bytes) :
    turn (c :: p) = turn p := by
  rw [turn, turn, skipSeparators_skip hzero hsep]

/-- White space and commas. -/
def Separators (s : Bytes) : Prop := ∀ c ∈ s, c ≠ 0 ∧ (isspace c = true ∨ c = ch ',')

theorem turn_separators {s : Bytes} (hs : Separators s) (p : Bytes) : turn (s ++ p) = turn p := by
  induction s with
  | nil => rfl
  | cons c cs ih =>
    obtain ⟨hc, hcs⟩ := List.forall_mem_cons.mp hs
    rw [List.cons_append, turn_skip hc.1 hc.2, ih hcs]

theorem skipSeparators_length : ∀ p : Bytes, (skipSeparators p).length ≤ p.length
  | [] => Nat.le_refl _
  | c :: cs => by
    rw [skipSeparators]
    split
    · exact Nat.le_succ_of_le (skipSeparators_length cs)
    · exact Nat.le_refl _

theorem skipSeparators_eq_self {p : Bytes} (h : skipSeparators p = p) {c : Byte} {cs : Bytes}
    (hp : p = c :: cs) (cs' : Bytes) : skipSeparators (c :: cs') = c :: cs' := by
  subst hp
  rw [skipSeparators] at h ⊢
  split at h
  · have hlen := skipSeparators_length cs
    rw [h, List.length_cons] at hlen
    omega
  · rename_i hc
    rw [if_neg hc]

theorem skipSeparators_split (p : Bytes) : ∃ s, Separators s ∧ p = s ++ skipSeparators p ∧
    skipSeparators (skipSeparators p) = skipSeparators p := by
  induction p with
  | nil => exact ⟨[], fun _ h => absurd h List.not_mem_nil, rfl, rfl⟩
  | cons c cs ih =>
    by_cases hc : c ≠ 0 ∧ (isspace c = true ∨ c = ch ',')
    · obtain ⟨s, hs, heq, hidem⟩ := ih
      rw [skipSeparators, if_pos hc]
      exact ⟨c :: s, List.forall_mem_cons.mpr ⟨hc, hs⟩, congrArg (c :: ·) heq, hidem⟩
    · have hself : skipSeparators (c :: cs) = c :: cs := by rw [skipSeparators, if_neg hc]
      exact ⟨[], fun _ h => absurd h List.not_mem_nil, hself.symm, by rw [hself, hself]⟩

/-! ## The token at a position

Which branch a turn takes is decided by one or two characters, so the four kinds exclude each other.
The second part is locality: a token needs of what follows only that it ends there (`EndsLike`). -/

/-- The token that starts a text, and what is behind it. Each constructor gives the text of its
kind, as it stands in the line, with the condition under which it ends there: a number or a word
ends where its class of characters does, unless the buffer is full. No scanning function is
mentioned, and that a turn reads just this is `turn_token_iff`. -/
inductive TokenAt : Bytes → TokenKind → Bytes → Bytes → Prop
  | string {body s rest : Bytes} (hs : Denotes body s) (hfits : s.length ≤ maxTokenLen) :
      TokenAt (quote :: (body ++ quote :: rest)) .string s rest
  | number {w rest : Bytes} (hw : NumberText w)
      (hlong : isalnum (deref rest) = true → w.length = maxTokenLen) :
      TokenAt (w ++ rest) .number w rest
  /-- The colon goes with the label. -/
  | label {w rest : Bytes} (hw : WordText w) : TokenAt (w ++ ch ':' :: rest) .label w rest
  | word {w rest : Bytes} (hw : WordText w)
      (hlong : isIdentCont (deref rest) = true → w.length = maxTokenLen)
      (hcolon : deref rest ≠ ch ':') : TokenAt (w ++ rest) (wordKind w) w rest

theorem exists_cons_of_deref {p : Bytes} {c : Byte} (h : deref p = c) (hc : c ≠ 0) :
    ∃ cs, p = c :: cs := by
  cases p with
  | nil => exact absurd h.symm hc
  | cons d ds => exact ⟨ds, congrArg (· :: ds) h⟩

theorem WordText.deref_append {w : Bytes} (hw : WordText w) (rest : Bytes) :
    deref (w ++ rest) = deref w := by
  cases w with
  | nil => exact absurd rfl hw.ne_nil
  | cons c cs => rfl

/-- A word starts no other token. -/
theorem WordText.not_startsNumber {w : Bytes} (hw : WordText w) (rest : Bytes) :
    startsNumber (w ++ rest) = false := by
  obtain ⟨-, -, -, -, -, hdigit, hminus, hplus⟩ := isIdentStart_cases _ hw.start
  simp [startsNumber, hw.deref_append, hdigit, hminus, hplus]

theorem startsNumber_cases {p : Bytes} (h : startsNumber p = true) :
    deref p ≠ 0 ∧ deref p ≠ ch ';' ∧ deref p ≠ quote := by
  have hfirst : isdigit (deref p) = true ∨ deref p = ch '-' ∨ deref p = ch '+' := by
    simp only [startsNumber, Bool.or_eq_true, Bool.and_eq_true, decide_eq_true_eq] at h
    rcases h with (h | h) | h
    · exact .inl h
    · exact .inr (.inl h.1)
    · exact .inr (.inr h.1)
  have hall : ∀ c : Byte, isdigit c = true ∨ c = ch '-' ∨ c = ch '+' →
      c ≠ 0 ∧ c ≠ ch ';' ∧ c ≠ quote := by decide
  exact hall _ hfirst

/-- **What a turn reads.** -/
theorem turn_token_iff {p text rest : Bytes} {kind : TokenKind} :
    turn p = .token kind text rest ↔ TokenAt (skipSeparators p) kind text rest := by
  unfold turn
  generalize skipSeparators p = p
  simp only
  constructor
  · intro h
    split at h
    · cases h
    rename_i hstop
    split at h
    · -- A string literal has to be closed by a quote.
      rename_i hquote
      split at h
      · cases h
      rename_i q buf hscan
      split at h
      · cases h
      rename_i hend
      cases h
      obtain ⟨cs, rfl⟩ := exists_cons_of_deref hquote (by decide)
      obtain ⟨q, rfl⟩ := exists_cons_of_deref (not_not.mp hend) (by decide)
      obtain ⟨body, rfl, hs, hfits⟩ := scanString_iff.mp hscan
      exact .string hs hfits
    split at h
    · rename_i hnum
      cases h
      obtain ⟨hp, hw, hlong⟩ := scanNumber_iff.mp ⟨hnum, (rfl : scanNumber p = (_, _))⟩
      have hnumber := TokenAt.number hw hlong
      rwa [← hp] at hnumber
    split at h
    · rename_i hident
      -- A word is a label if a colon follows it, and the colon is consumed.
      have hpair : scanIdent p = ((scanIdent p).1, (scanIdent p).2) := rfl
      obtain ⟨hp, hw, hlong⟩ := scanIdent_iff.mp ⟨hident, hpair⟩
      split at h
      · rename_i hcolon
        cases h
        obtain ⟨q, hq⟩ := exists_cons_of_deref hcolon (by decide)
        have hlabel : TokenAt ((scanIdent p).2 ++ ch ':' :: q) .label (scanIdent p).2 q :=
          .label hw
        rw [← hq, ← hp] at hlabel
        rwa [hq]
      · rename_i hcolon
        cases h
        have hword := TokenAt.word hw hlong hcolon
        have hderef : deref p = deref (scanIdent p).2 := by
          rw [← hw.deref_append (scanIdent p).1, ← hp]
        rw [← hp, wordKind, ← hderef] at hword
        exact hword
    · cases h
  · intro h
    -- Conversely the first character of the text decides which branch is taken.
    cases h with
    | @string body text rest hs hfits =>
      have hscan := (scanString_iff (q := rest)).mpr ⟨body, rfl, hs, hfits⟩
      have hderef : deref (quote :: (body ++ quote :: rest)) = quote := rfl
      have hstop : ¬ (quote = 0 ∨ quote = ch ';') := by decide
      simp only [hderef, if_neg hstop, if_true, List.tail_cons, hscan]
      rfl
    | number hw hlong =>
      obtain ⟨hstart, hscan⟩ := scanNumber_iff.mpr ⟨rfl, hw, hlong⟩
      obtain ⟨hzero, hsemi, hquote⟩ := startsNumber_cases hstart
      simp only [hzero, hsemi, hquote, or_self, if_false, hstart, hscan, if_true]
    | label hw =>
      obtain ⟨hzero, hsemi, hquote, -⟩ := isIdentStart_cases _ hw.start
      have hcolon : isIdentCont (deref (ch ':' :: rest)) = true → text.length = maxTokenLen :=
        fun hc => absurd hc (show ¬ isIdentCont (ch ':') = true by decide)
      obtain ⟨-, hscan⟩ := scanIdent_iff.mpr ⟨rfl, hw, hcolon⟩
      simp only [hw.deref_append, hzero, hsemi, hquote, or_self, hw.not_startsNumber, hw.start,
        hscan, if_true, if_false, Bool.false_eq_true]
      rfl
    | word hw hlong hcolon =>
      obtain ⟨hzero, hsemi, hquote, -⟩ := isIdentStart_cases _ hw.start
      obtain ⟨-, hscan⟩ := scanIdent_iff.mpr ⟨rfl, hw, hlong⟩
      simp only [hw.deref_append, hzero, hsemi, hquote, or_self, hw.not_startsNumber, hw.start,
        hscan, hcolon, if_true, if_false, Bool.false_eq_true, wordKind]

theorem skipSeparators_cons {c : Byte} (hspace : isspace c = false) (hcomma : c ≠ ch ',')
    (cs : Bytes) : skipSeparators (c :: cs) = c :: cs := by
  rw [skipSeparators, if_neg]
  rintro ⟨-, hc | hc⟩
  · exact absurd hc (by rw [hspace]; decide)
  · exact hcomma hc

/-- No token starts with a separator. -/
theorem TokenAt.skipSeparators_eq {p text q : Bytes} {kind : TokenKind}
    (h : TokenAt p kind text q) : skipSeparators p = p := by
  cases h with
  | string => exact skipSeparators_cons (by decide) (by decide) _
  | number hw =>
    cases text with
    | nil => exact absurd rfl hw.ne_nil
    | cons c cs =>
      have hall : ∀ c : Byte, isdigit c = true ∨ c = ch '-' ∨ c = ch '+' →
          isspace c = false ∧ c ≠ ch ',' := by decide
      obtain ⟨hspace, hcomma⟩ := hall c ((startsNumber_iff.mp hw.start).imp_right And.left)
      exact skipSeparators_cons hspace hcomma _
  | label hw => exact skipSeparators_word hw _
  | word hw => exact skipSeparators_word hw _

/-- A turn stops at the end of the line or at a comment. -/
theorem turn_stop_iff {p : Bytes} : turn p = .stop ↔
    deref (skipSeparators p) = 0 ∨ deref (skipSeparators p) = ch ';' := by
  constructor
  · intro h
    by_contra hgo
    unfold turn at h
    simp only [if_neg hgo] at h
    repeat' split at h
    all_goals cases h
  · intro h
    rw [turn]
    simp only [if_pos h]

/-- A token that ends at `q` ends at `q'`. -/
structure EndsLike (q' q : Bytes) : Prop where
  alnum : isalnum (deref q') = true → isalnum (deref q) = true
  cont : isIdentCont (deref q') = true → isIdentCont (deref q) = true
  colon : deref q' = ch ':' → deref q = ch ':'

theorem endsLike_of_wordEnd {q' : Bytes} (h : WordEnd q') (q : Bytes) : EndsLike q' q where
  alnum := fun hc => absurd (isIdentCont_of_isalnum hc) (by rw [h.1]; decide)
  cont := fun hc => absurd hc (by rw [h.1]; decide)
  colon := fun hc => absurd hc h.2

theorem endsLike_of_deref {q' q : Bytes} (h : deref q' = deref q) : EndsLike q' q where
  alnum := fun hc => h ▸ hc
  cont := fun hc => h ▸ hc
  colon := fun hc => h ▸ hc

theorem EndsLike.append {q' q : Bytes} (h : EndsLike q' q) (u : Bytes) :
    EndsLike (u ++ q') (u ++ q) := by
  cases u with
  | nil => exact h
  | cons c cs => exact endsLike_of_deref rfl

theorem TokenAt.local {p text q : Bytes} {kind : TokenKind} (h : TokenAt p kind text q) :
    ∃ u, u ≠ [] ∧ p = u ++ q ∧ ∀ q', EndsLike q' q → TokenAt (u ++ q') kind text q' := by
  cases h with
  | @string body _ _ hs hfits =>
    have hassoc : ∀ q' : Bytes,
        quote :: body ++ [quote] ++ q' = quote :: (body ++ quote :: q') := by
      intro q'
      rw [List.append_assoc, List.singleton_append, List.cons_append]
    refine ⟨quote :: body ++ [quote], List.cons_ne_nil _ _, (hassoc q).symm, fun q' _ => ?_⟩
    rw [hassoc]
    exact .string hs hfits
  | number hw hlong =>
    exact ⟨text, hw.ne_nil, rfl, fun q' hq' => .number hw fun hc => hlong (hq'.alnum hc)⟩
  | label hw =>
    have hassoc : ∀ q' : Bytes, text ++ [ch ':'] ++ q' = text ++ ch ':' :: q' := by
      intro q'
      rw [List.append_assoc, List.singleton_append]
    refine ⟨text ++ [ch ':'], List.append_ne_nil_of_right_ne_nil _ (List.cons_ne_nil _ _),
      (hassoc q).symm, fun q' _ => ?_⟩
    rw [hassoc]
    exact .label hw
  | word hw hlong hcolon =>
    exact ⟨text, hw.ne_nil, rfl,
      fun q' hq' => .word hw (fun hc => hlong (hq'.cont hc)) (mt hq'.colon hcolon)⟩

/-- **A token does not depend on what follows it**, as long as it ends there. -/
theorem turn_local {p text q : Bytes} {kind : TokenKind} (h : turn p = .token kind text q) :
    ∃ u, u ≠ [] ∧ p = u ++ q ∧ ∀ q', EndsLike q' q → turn (u ++ q') = .token kind text q' := by
  obtain ⟨s, hs, hp, hidem⟩ := skipSeparators_split p
  obtain ⟨u, hne, hu, hlocal⟩ := (turn_token_iff.mp h).local
  refine ⟨s ++ u, List.append_ne_nil_of_right_ne_nil _ hne, ?_, fun q' hq' => ?_⟩
  · rw [List.append_assoc, ← hu]
    exact hp
  · -- The token is where the separators end, before and after.
    have hself : skipSeparators (u ++ q') = u ++ q' := by
      cases u with
      | nil => exact absurd rfl hne
      | cons c u => exact skipSeparators_eq_self hidem hu _
    rw [List.append_assoc, turn_separators hs, turn_token_iff, hself]
    exact hlocal q' hq'

theorem turn_length {p text rest : Bytes} {kind : TokenKind}
    (h : turn p = .token kind text rest) : rest.length < p.length := by
  obtain ⟨u, hne, rfl, -⟩ := turn_local h
  rw [List.length_append]
  exact Nat.lt_add_of_pos_left (List.length_pos_iff.mpr hne)

/-- A word is read whole, as an identifier or, with a leading dot, a directive. -/
theorem turn_word {w rest : Bytes} (hw : WordText w) (hrest : WordEnd rest) :
    turn (w ++ rest) = .token (wordKind w) w rest := by
  rw [turn_token_iff, skipSeparators_word hw]
  exact .word hw (fun hc => absurd hc (by rw [hrest.1]; decide)) hrest.2

theorem isspace_separator : ∀ b : Byte, isspace b = true → b ≠ 0 := by decide

theorem wordEnd_semicolon (text : Bytes) : WordEnd (ch ';' :: text) :=
  ⟨show isIdentCont (ch ';') = false by decide, show ch ';' ≠ ch ':' by decide⟩

theorem separator_ends : ∀ c : Byte, c ≠ 0 ∧ (isspace c = true ∨ c = ch ',') →
    isIdentCont c = false ∧ c ≠ ch ':' := by decide

theorem wordEnd_separators {s : Bytes} (hs : Separators s) (hne : s ≠ []) (q : Bytes) :
    WordEnd (s ++ q) := by
  cases s with
  | nil => exact absurd rfl hne
  | cons c cs => exact separator_ends c (hs c List.mem_cons_self)

/-! ## Whole lines

Fuel and array disappear in `lexLoop_iff`. Each turn shortens the text, so fuel beyond the length of
the line is never used up. -/

/-- The line from `p` on is lexed without an error as `ts`, however many tokens these are. -/
inductive Lexes : Bytes → List Token → Prop
  | stop {p : Bytes} (hturn : turn p = .stop) : Lexes p []
  | token {p text rest : Bytes} {kind : TokenKind} {ts : List Token}
      (hturn : turn p = .token kind text rest) (hrest : Lexes rest ts) :
      Lexes p (⟨kind, tokenText text⟩ :: ts)

theorem Lexes.unique {p : Bytes} {ts ts' : List Token} (h : Lexes p ts) (h' : Lexes p ts') :
    ts = ts' := by
  induction h generalizing ts' with
  | stop hturn =>
    cases h' with
    | stop _ => rfl
    | token hturn' _ => cases hturn.symm.trans hturn'
  | token hturn _ ih =>
    cases h' with
    | stop hturn' => cases hturn.symm.trans hturn'
    | token hturn' hrest' =>
      cases hturn.symm.trans hturn'
      rw [ih hrest']

/-- Fuel beyond the length of the line is enough. -/
theorem lexLoop_iff (lineNo : Nat) : ∀ (fuel : Nat) (p : Bytes) (toks out : List Token),
    p.length < fuel → toks.length ≤ maxTokensPerLine →
    (lexLoop lineNo fuel p toks = (out, none) ↔
      ∃ ts, Lexes p ts ∧ out = toks ++ ts ∧ out.length ≤ maxTokensPerLine)
  | 0, p, _, _, hfuel, _ => absurd hfuel (Nat.not_lt_zero _)
  | fuel + 1, p, toks, out, hfuel, hlen => by
    rw [lexLoop_succ]
    cases hturn : turn p with
    | stop =>
      constructor
      · intro h
        obtain rfl : toks = out := congrArg Prod.fst h
        exact ⟨[], .stop hturn, (List.append_nil _).symm, hlen⟩
      · rintro ⟨ts, hts, rfl, -⟩
        rw [hts.unique (.stop hturn), List.append_nil]
    | fail msg =>
      constructor
      · intro h
        cases congrArg Prod.snd h
      · rintro ⟨ts, hts, -, -⟩
        cases hts with
        | stop hturn' => cases hturn.symm.trans hturn'
        | token hturn' _ => cases hturn.symm.trans hturn'
    | token kind text rest =>
      simp only
      by_cases hfull : maxTokensPerLine ≤ toks.length
      · -- The array is full, and there is one more token.
        rw [if_pos hfull]
        constructor
        · intro h
          cases congrArg Prod.snd h
        · rintro ⟨ts, hts, rfl, hmax⟩
          cases hts with
          | stop hturn' => cases hturn.symm.trans hturn'
          | token _ _ =>
            rw [List.length_append, List.length_cons] at hmax
            omega
      · have hrest := turn_length hturn
        have hlen' : (toks ++ [(⟨kind, tokenText text⟩ : Token)]).length ≤ maxTokensPerLine := by
          rw [List.length_append, List.length_singleton]
          omega
        rw [if_neg hfull, lexLoop_iff lineNo fuel rest _ out (by omega) hlen']
        constructor
        · rintro ⟨ts, hts, rfl, hmax⟩
          refine ⟨⟨kind, tokenText text⟩ :: ts, .token hturn hts, ?_, hmax⟩
          rw [List.append_assoc, List.singleton_append]
        · rintro ⟨ts, hts, rfl, hmax⟩
          cases hts with
          | stop hturn' => cases hturn.symm.trans hturn'
          | token hturn' hrest' =>
            cases hturn.symm.trans hturn'
            exact ⟨_, hrest', List.append_cons _ _ _, hmax⟩

/-- **When a line is lexed**: turn after turn reads a token, and there is room for them all. -/
theorem lexLine_iff {src : Bytes} {lineNo : Nat} {tl : TokenLine} :
    lexLine src lineNo = (tl, none) ↔
      tl.lineNo = lineNo ∧ Lexes src tl.tokens ∧ tl.tokens.length ≤ maxTokensPerLine := by
  have hloop := lexLoop_iff lineNo (src.length + 1) src [] tl.tokens (Nat.lt_succ_self _)
    (Nat.zero_le _)
  simp only [List.nil_append] at hloop
  constructor
  · intro h
    have hfst : (lexLine src lineNo).1 = tl := congrArg Prod.fst h
    have hsnd : (lexLine src lineNo).2 = none := congrArg Prod.snd h
    subst hfst
    obtain ⟨ts, hts, heq, hmax⟩ := hloop.mp (Prod.ext rfl hsnd)
    rw [heq]
    exact ⟨rfl, hts, heq ▸ hmax⟩
  · rintro ⟨rfl, hts, hmax⟩
    have hrun := hloop.mpr ⟨tl.tokens, hts, rfl, hmax⟩
    rw [lexLine, hrun]

/-- What holds of the token of every turn holds of every token, error or not. -/
theorem lexLine_forall {P : Token → Prop} (hP : ∀ {p kind text rest},
    turn p = .token kind text rest → P ⟨kind, tokenText text⟩) (src : Bytes) (lineNo : Nat) :
    ∀ t ∈ (lexLine src lineNo).1.tokens, P t := by
  have hloop : ∀ (fuel : Nat) (p : Bytes) (toks : List Token), (∀ t ∈ toks, P t) →
      ∀ t ∈ (lexLoop lineNo fuel p toks).1, P t := by
    intro fuel
    induction fuel with
    | zero => exact fun _ _ h => h
    | succ fuel ih =>
      intro p toks h
      rw [lexLoop_succ]
      cases hturn : turn p with
      | stop => exact h
      | fail msg => exact h
      | token kind text rest =>
        simp only
        split
        · exact h
        · exact ih _ _ (List.forall_mem_append.mpr ⟨h, List.forall_mem_singleton.mpr (hP hturn)⟩)
  exact hloop (src.length + 1) src [] fun _ ht => absurd ht List.not_mem_nil

/-- No token is longer than its buffer. -/
theorem lexLine_text_length (src : Bytes) (lineNo : Nat) :
    ∀ t ∈ (lexLine src lineNo).1.tokens, t.text.length ≤ maxTokenLen :=
  lexLine_forall (fun _ => tokenText_length _) src lineNo

/-- **Every identifier, directive and label of a line is a word.** -/
theorem lexLine_tokenOk (src : Bytes) (lineNo : Nat) :
    ∀ t ∈ (lexLine src lineNo).1.tokens, TokenOk t := by
  refine lexLine_forall (fun hturn => ?_) src lineNo
  have hat := turn_token_iff.mp hturn
  generalize skipSeparators _ = p at hat
  cases hat with
  | string | number => rintro (hk | hk | hk) <;> cases hk
  | label hw | word hw =>
    intro _
    rw [tokenText_word hw]
    exact hw

end Proof
end EduCpu16
