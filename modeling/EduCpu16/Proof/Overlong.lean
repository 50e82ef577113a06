import EduCpu16.Proof.Ascii
import EduCpu16.Proof.Restyle
import EduCpu16.Proof.Scan

/-!
# Tokens longer than the buffer

The loops of numbers and identifiers stop when the buffer is full, and what is left of the run is
scanned as another token. `lexer.h` says that a token that is too long is an error. The line is
rejected only if it has an error of another kind, one that the pieces leave in place
(`lexLine_defect_iff`, `overlong_rejected_iff`).

`Overlong` and `Defect` are about the text of the line. A run that is too long is found behind
tokens and a gap; an error is a character that starts no token, a literal that is not closed or too
long, or a token that there is no room for. That a line has such a run exactly if some token is a
piece of it is `overlong_iff_cut`.
-/

namespace EduCpu16
namespace Proof

open CLib Source

/-! ## Long runs

A piece of a run is a token that stops where its class of characters goes on (`Cut`). For a label
this cannot be, since its colon is no such character. -/

/-- A text starts with a run longer than a token: a number, or a word. -/
def LongRun (p : Bytes) : Prop := ∃ w q, p = w ++ q ∧ maxTokenLen < w.length ∧
  (startsNumber w = true ∧ (∀ b ∈ w.tail, isalnum b = true) ∧ isalnum (deref q) = false ∨
    isIdentStart (deref w) = true ∧ (∀ b ∈ w.tail, isIdentCont b = true) ∧
      isIdentCont (deref q) = false)

/-- Behind some tokens of the line and a gap such a run stands. The tokens in front are those of the
lexer, since a quote or a semicolon further left decides on what a run is. -/
def Overlong (line : Bytes) : Prop := ∃ ts p, Scans line ts p ∧ LongRun (skipSeparators p)

/-- A token that stops inside its run. A colon ends a label. -/
def Cut : TokenKind → Bytes → Prop
  | .number, q => isalnum (deref q) = true
  | .ident, q | .directive, q => isIdentCont (deref q) = true
  | _, _ => False

/-- Where a class of characters goes on and where it ends. -/
theorem deref_dropWhile {cls : Byte → Bool} (hzero : cls 0 = false) :
    ∀ q : Bytes, cls (deref (q.dropWhile cls)) = false
  | [] => hzero
  | c :: cs => by
    rw [List.dropWhile_cons]
    split
    · exact deref_dropWhile hzero cs
    · rename_i hc
      exact Bool.eq_false_iff.mpr hc

theorem takeWhile_ne_nil {cls : Byte → Bool} (hzero : cls 0 = false) {q : Bytes}
    (hq : cls (deref q) = true) : q.takeWhile cls ≠ [] := by
  cases q with
  | nil => exact absurd hq (by rw [show deref [] = 0 from rfl, hzero]; decide)
  | cons c cs =>
    rw [List.takeWhile_cons_of_pos (show cls c = true from hq)]
    exact List.cons_ne_nil _ _

/-- What a shorter text leaves of a run starts inside it. -/
theorem deref_of_shorter {cls : Byte → Bool} {w q text rest : Bytes}
    (h : w ++ q = text ++ rest) (hne : text ≠ []) (hlt : text.length < w.length)
    (hall : ∀ b ∈ w.tail, cls b = true) : cls (deref rest) = true := by
  rcases List.append_eq_append_iff.mp h with ⟨u, rfl, -⟩ | ⟨u, rfl, rfl⟩
  · rw [List.length_append] at hlt
    omega
  · cases u with
    | nil =>
      rw [List.append_nil] at hlt
      exact absurd hlt (Nat.lt_irrefl _)
    | cons c u =>
      apply hall c
      rw [List.tail_append_of_ne_nil hne]
      exact List.mem_append_right _ List.mem_cons_self

theorem LongRun.cut {p : Bytes} (h : LongRun p) :
    ∃ kind text rest, TokenAt p kind text rest ∧ Cut kind rest := by
  obtain ⟨w, q, rfl, hlong, hrun⟩ := h
  rcases hrun with ⟨hstart, hall, -⟩ | ⟨hstart, hall, -⟩
  · have hnum := startsNumber_append hstart q
    obtain ⟨rest, text, hscan⟩ : ∃ rest text, scanNumber (w ++ q) = (rest, text) := ⟨_, _, rfl⟩
    obtain ⟨hp, htext, hfull⟩ := scanNumber_iff.mp ⟨hnum, hscan⟩
    exact ⟨.number, text, rest, hp ▸ .number htext hfull,
      deref_of_shorter hp htext.ne_nil (Nat.lt_of_le_of_lt htext.length hlong) hall⟩
  · have hident : isIdentStart (deref (w ++ q)) = true := by
      cases w with
      | nil => exact absurd hstart (by decide)
      | cons c cs => exact hstart
    obtain ⟨rest, text, hscan⟩ : ∃ rest text, scanIdent (w ++ q) = (rest, text) := ⟨_, _, rfl⟩
    obtain ⟨hp, htext, hfull⟩ := scanIdent_iff.mp ⟨hident, hscan⟩
    have hcont : isIdentCont (deref rest) = true :=
      deref_of_shorter hp htext.ne_nil (Nat.lt_of_le_of_lt htext.length hlong) hall
    have hcolon : deref rest ≠ ch ':' := fun hc =>
      absurd hcont (by rw [hc]; decide)
    refine ⟨wordKind text, text, rest, hp ▸ .word htext hfull hcolon, ?_⟩
    rw [wordKind]
    split
    · exact hcont
    · exact hcont

theorem TokenAt.longRun {p text rest : Bytes} {kind : TokenKind} (h : TokenAt p kind text rest)
    (hcut : Cut kind rest) : LongRun p := by
  -- The run is the token and what follows it of its class.
  have hrun : ∀ {cls : Byte → Bool}, cls 0 = false → cls (deref rest) = true →
      text.length = maxTokenLen → (∀ b ∈ text.tail, cls b = true) → text ≠ [] →
      maxTokenLen < (text ++ rest.takeWhile cls).length ∧
      (∀ b ∈ (text ++ rest.takeWhile cls).tail, cls b = true) ∧
      cls (deref (rest.dropWhile cls)) = false := by
    intro cls hzero hcls hlen hall hne
    refine ⟨?_, ?_, deref_dropWhile hzero rest⟩
    · have hpos := List.length_pos_iff.mpr (takeWhile_ne_nil hzero hcls)
      rw [List.length_append]
      omega
    · rw [List.tail_append_of_ne_nil hne]
      exact List.forall_mem_append.mpr ⟨hall, fun b hb => List.mem_takeWhile_imp hb⟩
  cases h with
  | string | label => exact hcut.elim
  | number htext hfull =>
    obtain ⟨hlong, hall, hend⟩ := hrun (by decide) hcut (hfull hcut) htext.cont htext.ne_nil
    refine ⟨_, _, ?_, hlong, .inl ⟨startsNumber_append htext.start _, hall, hend⟩⟩
    rw [List.append_assoc, List.takeWhile_append_dropWhile]
  | word hw hfull hcolon =>
    have hcont : isIdentCont (deref rest) = true := by
      rw [wordKind] at hcut
      split at hcut
      · exact hcut
      · exact hcut
    obtain ⟨hlong, hall, hend⟩ := hrun (by decide) hcont (hfull hcont) hw.cont hw.ne_nil
    refine ⟨_, _, ?_, hlong, .inr ⟨?_, hall, hend⟩⟩
    · rw [List.append_assoc, List.takeWhile_append_dropWhile]
    · rw [hw.deref_append]
      exact hw.start

theorem turn_of_tokenAt {p text rest : Bytes} {kind : TokenKind} (h : TokenAt p kind text rest) :
    turn p = .token kind text rest := by
  rw [turn_token_iff, h.skipSeparators_eq]
  exact h

/-- **A line has a run longer than a token exactly if a token is a piece of it.** -/
theorem overlong_iff_cut (line : Bytes) : Overlong line ↔ ∃ ts p kind text rest,
    Scans line ts p ∧ turn p = .token kind text rest ∧ Cut kind rest := by
  constructor
  · rintro ⟨ts, p, hscan, hlong⟩
    obtain ⟨kind, text, rest, hat, hcut⟩ := hlong.cut
    exact ⟨ts, p, kind, text, rest, hscan, turn_token_iff.mpr hat, hcut⟩
  · rintro ⟨ts, p, kind, text, rest, hscan, hturn, hcut⟩
    exact ⟨ts, p, hscan, (turn_token_iff.mp hturn).longRun hcut⟩

/-! ## What else is wrong

The errors of `lex_line`, said of the text. None of them asks how long a word or a number is. -/

/-- A character that starts no token. -/
def Unexpected (p : Bytes) : Prop :=
  ¬ (deref p = 0 ∨ deref p = ch ';') ∧ deref p ≠ quote ∧ startsNumber p = false ∧
    isIdentStart (deref p) = false ∧ skipSeparators p = p

/-- Behind its quote a literal is closed and fits a token. -/
def Closed (p : Bytes) : Prop :=
  ∃ body s rest, p = body ++ quote :: rest ∧ Denotes body s ∧ s.length ≤ maxTokenLen

/-- With `n` tokens read, the text has an error; the pieces of a run are tokens. It is an inductive
reading of the line from the left: a gap is skipped, a token may be passed over if there is an error
behind it, and the other constructors are the errors themselves. Nothing in it computes tokens; what
is a token at some place is `TokenAt`, and that the lexer fails on just these lines is a theorem
(`lexLine_defect_iff`). -/
inductive Defect : Nat → Bytes → Prop
  | gap {n : Nat} {s p : Bytes} (hs : Separators s) (h : Defect n p) : Defect n (s ++ p)
  | unexpected {n : Nat} {p : Bytes} (h : Unexpected p) : Defect n p
  | string {n : Nat} {p : Bytes} (h : ¬ Closed p) : Defect n (quote :: p)
  | full {p text rest : Bytes} {kind : TokenKind} (h : TokenAt p kind text rest) :
      Defect maxTokensPerLine p
  | token {n : Nat} {p text rest : Bytes} {kind : TokenKind} (h : TokenAt p kind text rest)
      (hrest : Defect (n + 1) rest) : Defect n p

/-! ## Strings

A literal is not cut. If it is too long the line is rejected, so a quote starts a token or is an
error. -/

/-- **When a quote starts a token.** -/
theorem tokenAt_quote_iff {p : Bytes} :
    (∃ kind text rest, TokenAt (quote :: p) kind text rest) ↔ Closed p := by
  constructor
  · rintro ⟨kind, text, rest, h⟩
    generalize hr : quote :: p = r at h
    have hquote : deref r = quote := hr ▸ rfl
    cases h with
    | @string body _ _ hs hfits => exact ⟨body, _, _, (List.cons.inj hr).2, hs, hfits⟩
    | @number w rest hw =>
      exact absurd hquote (startsNumber_cases (startsNumber_append hw.start rest)).2.2
    | label hw | word hw =>
      rw [hw.deref_append] at hquote
      exact absurd hquote (isIdentStart_cases _ hw.start).2.2.1
  · rintro ⟨body, s, rest, rfl, hden, hlen⟩
    exact ⟨.string, _, rest, .string hden hlen⟩

/-! ## Errors

From left to right, as the line is read: what is at a position is the end, a token or an error. -/

/-- What starts no token but something else than the end of the line is an error. -/
theorem turn_cases (p : Bytes) : turn p = .stop ∨
    (∃ kind text rest, turn p = .token kind text rest) ∨
    Unexpected (skipSeparators p) ∨ ∃ q, skipSeparators p = quote :: q ∧ ¬ Closed q := by
  obtain ⟨-, -, -, hidem⟩ := skipSeparators_split p
  by_cases hstop : deref (skipSeparators p) = 0 ∨ deref (skipSeparators p) = ch ';'
  · exact .inl (turn_stop_iff.mpr hstop)
  refine .inr ?_
  by_cases hquote : deref (skipSeparators p) = quote
  · obtain ⟨q, hq⟩ := exists_cons_of_deref hquote (by decide)
    by_cases hclosed : Closed q
    · obtain ⟨kind, text, rest, hat⟩ := tokenAt_quote_iff.mpr hclosed
      exact .inl ⟨kind, text, rest, turn_token_iff.mpr (hq ▸ hat)⟩
    · exact .inr (.inr ⟨q, hq, hclosed⟩)
  by_cases hnum : startsNumber (skipSeparators p) = true
  · obtain ⟨q, w, hscan⟩ : ∃ q w, scanNumber (skipSeparators p) = (q, w) := ⟨_, _, rfl⟩
    obtain ⟨hp, hw, hlong⟩ := scanNumber_iff.mp ⟨hnum, hscan⟩
    exact .inl ⟨.number, w, q, turn_token_iff.mpr (hp ▸ .number hw hlong)⟩
  by_cases hident : isIdentStart (deref (skipSeparators p)) = true
  · obtain ⟨q, w, hscan⟩ : ∃ q w, scanIdent (skipSeparators p) = (q, w) := ⟨_, _, rfl⟩
    obtain ⟨hp, hw, hlong⟩ := scanIdent_iff.mp ⟨hident, hscan⟩
    left
    by_cases hcolon : deref q = ch ':'
    · obtain ⟨q, rfl⟩ := exists_cons_of_deref hcolon (by decide)
      exact ⟨.label, w, q, turn_token_iff.mpr (hp ▸ .label hw)⟩
    · exact ⟨wordKind w, w, q, turn_token_iff.mpr (hp ▸ .word hw hlong hcolon)⟩
  · refine .inr (.inl ⟨hstop, hquote, ?_, ?_, hidem⟩)
    · exact Bool.eq_false_iff.mpr hnum
    · exact Bool.eq_false_iff.mpr hident

/-- A text with an error is no line of tokens that there is room for. -/
theorem Defect.lexes {n : Nat} {p : Bytes} (h : Defect n p) {ts : List Token} (hts : Lexes p ts) :
    maxTokensPerLine < n + ts.length := by
  have hnone : ∀ {p : Bytes} {ts : List Token}, Lexes p ts → turn p ≠ .stop →
      (∀ kind text rest, turn p ≠ .token kind text rest) → False := by
    intro p ts hts hstop htoken
    -- The text has one token more than there is room for.
    cases hts with
    | stop hturn => exact hstop hturn
    | token hturn _ => exact htoken _ _ _ hturn
  induction h generalizing ts with
  | gap hs _ ih =>
    have hnil : Separators [] := fun _ hc => absurd hc List.not_mem_nil
    exact ih (lexes_separators hs hnil hts)
  | unexpected h =>
    obtain ⟨hstop, hquote, hnum, hident, hself⟩ := h
    refine (hnone hts (fun hturn => ?_) fun kind text rest hturn => ?_).elim
    · exact hstop (hself ▸ turn_stop_iff.mp hturn)
    · have hat := turn_token_iff.mp hturn
      rw [hself] at hat
      cases hat with
      | string => exact hquote rfl
      | @number w rest hw =>
        exact absurd (startsNumber_append hw.start rest) (by rw [hnum]; decide)
      | label hw | word hw =>
        rw [hw.deref_append, hw.start] at hident
        cases hident
  | @string n p h =>
    have hself : skipSeparators (quote :: p) = quote :: p :=
      skipSeparators_cons (by decide) (by decide) p
    refine (hnone hts (fun hturn => ?_) fun kind text rest hturn => ?_).elim
    · rw [turn_stop_iff, hself] at hturn
      exact absurd hturn (show ¬ (quote = 0 ∨ quote = ch ';') by decide)
    · have hat := turn_token_iff.mp hturn
      rw [hself] at hat
      exact h (tokenAt_quote_iff.mp ⟨kind, text, rest, hat⟩)
  | full h =>
    cases hts with
    | stop hturn => cases hturn.symm.trans (turn_of_tokenAt h)
    | token _ _ =>
      rw [List.length_cons]
      omega
  | token h _ ih =>
    cases hts with
    | stop hturn => cases hturn.symm.trans (turn_of_tokenAt h)
    | token hturn hrest =>
      cases hturn.symm.trans (turn_of_tokenAt h)
      have hlen := ih hrest
      rw [List.length_cons]
      omega

/-- A text that is not such a line has an error. -/
theorem defect_of_not_lexes : ∀ (n : Nat) (p : Bytes), n ≤ maxTokensPerLine →
    (∀ ts, Lexes p ts → maxTokensPerLine < n + ts.length) → Defect n p := by
  intro n p
  induction hlen : p.length using Nat.strong_induction_on generalizing n p with
  | _ len ih =>
    intro hn hnone
    obtain ⟨s, hs, hp, -⟩ := skipSeparators_split p
    rw [hp]
    refine .gap hs ?_
    rcases turn_cases p with hturn | ⟨kind, text, rest, hturn⟩ | hbad | ⟨q, hq, hopen⟩
    · have := hnone [] (.stop hturn)
      rw [List.length_nil] at this
      omega
    · have hat := turn_token_iff.mp hturn
      by_cases hfull : n = maxTokensPerLine
      · rw [hfull]
        exact .full hat
      · refine .token hat (ih rest.length (hlen ▸ turn_length hturn) (n + 1) rest rfl (by omega) ?_)
        intro ts hts
        have := hnone _ (.token hturn hts)
        rw [List.length_cons] at this
        omega
    · exact .unexpected hbad
    · rw [hq]
      exact .string hopen

/-- **When `lex_line` fails**, in terms of the line. -/
theorem lexLine_defect_iff (line : Bytes) (lineNo : Nat) :
    (lexLine line lineNo).2 ≠ none ↔ Defect 0 line := by
  have hok : (lexLine line lineNo).2 = none ↔
      ∃ ts, Lexes line ts ∧ ts.length ≤ maxTokensPerLine := by
    constructor
    · intro h
      obtain ⟨-, hlexes, hroom⟩ := lexLine_iff.mp (Prod.ext rfl h :
        lexLine line lineNo = ((lexLine line lineNo).1, none))
      exact ⟨_, hlexes, hroom⟩
    · rintro ⟨ts, hts, hroom⟩
      exact congrArg Prod.snd
        (lexLine_iff.mpr (show _ ∧ _ from ⟨rfl, hts, hroom⟩) :
          lexLine line lineNo = (⟨ts, lineNo⟩, none))
  constructor
  · intro h
    apply defect_of_not_lexes 0 line (Nat.zero_le _)
    intro ts hts
    rw [Nat.zero_add]
    exact Nat.lt_of_not_le fun hroom => h (hok.mpr ⟨ts, hts, hroom⟩)
  · intro h hnone
    obtain ⟨ts, hts, hroom⟩ := hok.mp hnone
    have := h.lexes hts
    omega

/-- **When a line with a run longer than a token is rejected**: when it has some other error as
well. The run itself is none to the lexer, which delivers it in pieces. -/
theorem overlong_rejected_iff (line : Bytes) (lineNo : Nat) :
    (Overlong line → (lexLine line lineNo).2 ≠ none) ↔ ¬ Overlong line ∨ Defect 0 line := by
  rw [lexLine_defect_iff, imp_iff_not_or]

/-- A number of 128 digits is two numbers, and `.word` takes the first. -/
theorem overlong_accepted :
    Overlong (ascii ".word " ++ (List.replicate 127 (ch '0') ++ ascii "1")) ∧
    lexLine (ascii ".word " ++ (List.replicate 127 (ch '0') ++ ascii "1")) 1 =
      (⟨[⟨.directive, ascii ".word"⟩, ⟨.number, List.replicate 127 (ch '0')⟩,
        ⟨.number, ascii "1"⟩], 1⟩, none) := by
  have hword : WordText (ascii ".word") := ⟨by decide, by decide, by decide⟩
  have hscan : Scans (ascii ".word " ++ (List.replicate 127 (ch '0') ++ ascii "1"))
      [⟨.directive, ascii ".word"⟩] (ch ' ' :: (List.replicate 127 (ch '0') ++ ascii "1")) :=
    .token (turn_word hword (wordEnd_space _)) .here
  refine ⟨⟨_, _, hscan, List.replicate 127 (ch '0') ++ ascii "1", [], ?_, by decide +kernel,
    .inl ?_⟩, by decide +kernel⟩
  · rw [skipSeparators_skip (by decide) (.inl (by decide)), List.append_nil]
    exact skipSeparators_cons (by decide) (by decide) _
  · exact ⟨by decide, by decide +kernel, by decide⟩

end Proof
end EduCpu16
