import EduCpu16.Proof.Ascii
import EduCpu16.Proof.Number
import EduCpu16.Proof.Restyle
import EduCpu16.Source.Print

/-!
# Lexing undoes printing

A token that can be written is read back from its spelling before anything that ends it, a gap, a
comment or the end of the line (`tokenAt_printToken`), and so is a line of them
(`lexes_printItems`).

What a token may be written with is `Spelled`, by kind; that what the lexer reads is of this form is
shown elsewhere (`wellSpelled_of_lexes`), so printing and lexing are inverse on lines. Between two
tokens some gap is needed unless the first ends by itself, as a label and a string do (`Spaced`).
-/

namespace EduCpu16
namespace Proof

open CLib Source

/-! ## What a printed token is followed by

A word or a number goes on while its characters do, so what is printed behind it has to begin with
something else. `Ends` is the condition the printer can meet, and it gives `WordEnd`, the one the
lexer asks for. -/

/-- A gap, a comment or the end of the line. -/
def Ends (q : Bytes) : Prop :=
  q = [] ∨ ∃ c cs, q = c :: cs ∧ (isspace c = true ∨ c = ch ',' ∨ c = ch ';')

theorem Ends.wordEnd {q : Bytes} (h : Ends q) : WordEnd q := by
  have hall : ∀ c : Byte, isspace c = true ∨ c = ch ',' ∨ c = ch ';' →
      isIdentCont c = false ∧ c ≠ ch ':' := by decide
  rcases h with rfl | ⟨c, cs, rfl, hc⟩
  · exact wordEnd_nil
  · exact hall c hc

theorem gap_separators {s : Bytes} (h : Gap s) : Separators s := by
  have hall : ∀ c : Byte, isspace c = true ∨ c = ch ',' → c ≠ 0 := by decide
  exact fun c hc => ⟨hall c (h c hc), h c hc⟩

theorem comment_ends {s : Bytes} (h : Comment s) : Ends s :=
  h.imp_right fun ⟨text, htext⟩ => ⟨ch ';', text, htext, .inr (.inr rfl)⟩

theorem ends_gap {s : Bytes} (h : Gap s) {q : Bytes} (hq : s ≠ [] ∨ Ends q) : Ends (s ++ q) := by
  cases s with
  | nil => exact hq.resolve_left fun hne => hne rfl
  | cons c cs =>
    refine .inr ⟨c, cs ++ q, rfl, ?_⟩
    exact (h c List.mem_cons_self).imp_right .inl

/-! ## A token

By the form of its text. A word and a number are written as they are read; a string is escaped, and
`denotes_escaped` says that the escapes denote it. -/

theorem isIdentCont_iff {c : Byte} : isIdentCont c = true ↔ IsWordChar c := by
  rw [isIdentCont, Bool.or_eq_true, decide_eq_true_eq]
  rfl

/-- Identifiers and directives are words, told apart by the dot. -/
theorem spelled_word {kind : TokenKind} {w : Bytes} (h : Spelled kind w)
    (hkind : kind = .ident ∨ kind = .directive) (hlen : w.length ≤ maxTokenLen) :
    WordText w ∧ wordKind w = kind := by
  cases h with
  | @ident c cs hc hcs =>
    have hfirst : ∀ c : Byte, isalpha c = true ∨ c = ch '_' →
        isIdentStart c = true ∧ c ≠ ch '.' := by decide
    obtain ⟨hstart, hdot⟩ := hfirst c hc
    exact ⟨⟨hstart, fun b hb => isIdentCont_iff.mpr (hcs b hb), hlen⟩, if_neg hdot⟩
  | directive hcs =>
    have hstart : isIdentStart (ch '.') = true := by decide
    exact ⟨⟨hstart, fun b hb => isIdentCont_iff.mpr (hcs b hb), hlen⟩, if_pos rfl⟩
  | label | number | string => rcases hkind with hk | hk <;> cases hk

theorem spelled_numberText {w : Bytes} (h : Spelled .number w) (hlen : w.length ≤ maxTokenLen) :
    NumberText w := by
  cases h with
  | @number sign cs d hsign hd hcs =>
    have hall : ∀ b ∈ d :: cs, isalnum b = true :=
      List.forall_mem_cons.mpr ⟨(isdigit_cases d hd).2, hcs⟩
    simp only [List.mem_cons, List.not_mem_nil, or_false] at hsign
    rcases hsign with rfl | rfl | rfl
    · exact ⟨startsNumber_iff.mpr (.inl hd), hcs, hlen⟩
    · exact ⟨startsNumber_iff.mpr (.inr ⟨.inr rfl, hd⟩), hall, hlen⟩
    · exact ⟨startsNumber_iff.mpr (.inr ⟨.inl rfl, hd⟩), hall, hlen⟩

/-- What is escaped denotes what it was. -/
theorem denotes_escaped : ∀ {s : Bytes}, (∀ b ∈ s, b ≠ 0) → Denotes (escaped s) s
  | [], _ => .nil
  | c :: s, h => by
    obtain ⟨hc, hs⟩ := List.forall_mem_cons.mp h
    have hrest := denotes_escaped hs
    by_cases hesc : c = backslash ∨ c = quote
    · have hself : escapeChar c = c := by
        rcases hesc with rfl | rfl
        · decide
        · decide
      have hcons : escaped (c :: s) = backslash :: c :: escaped s := by
        rw [escaped, List.flatMap_cons, if_pos hesc]
        rfl
      have hstep : Denotes (backslash :: c :: escaped s) (escapeChar c :: s) := .escape hc hrest
      rwa [hself, ← hcons] at hstep
    · have hcons : escaped (c :: s) = c :: escaped s := by
        rw [escaped, List.flatMap_cons, if_neg hesc]
        rfl
      obtain ⟨hback, hquote⟩ := not_or.mp hesc
      rw [hcons]
      exact .char hc hquote hback hrest

/-- A literal is read as the bytes it denotes, if the buffer holds them. -/
theorem tokenAt_literal {body s : Bytes} (h : Denotes body s) (hs : ∀ b ∈ s, b ≠ 0)
    (hlen : s.length ≤ maxTokenLen) (q : Bytes) :
    TokenAt (quote :: (body ++ [quote]) ++ q) .string s q ∧ tokenText s = s := by
  refine ⟨?_, ?_⟩
  · rw [List.cons_append, List.append_assoc, List.singleton_append]
    exact .string h hlen
  · rw [tokenText, cstr_of_not_mem fun hzero => hs 0 hzero rfl, List.take_of_length_le hlen]

/-- **A printed token is read back**, whatever ends it. -/
theorem tokenAt_printToken {t : Token} (h : WellSpelled t) {q : Bytes} (hq : Ends q) :
    TokenAt (printToken t ++ q) t.kind t.text q ∧ tokenText t.text = t.text := by
  obtain ⟨kind, w⟩ := t
  obtain ⟨hspelled, hlen⟩ := h
  have hword : ∀ {kind}, kind = .ident ∨ kind = .directive → Spelled kind w →
      TokenAt (w ++ q) kind w q ∧ tokenText w = w := by
    intro kind hkind hw
    obtain ⟨htext, rfl⟩ := spelled_word hw hkind hlen
    refine ⟨.word htext (fun hc => ?_) hq.wordEnd.2, tokenText_word htext⟩
    exact absurd hc (by rw [hq.wordEnd.1]; decide)
  cases hspelled with
  | ident hc hcs => exact hword (.inl rfl) (.ident hc hcs)
  | directive hcs => exact hword (.inr rfl) (.directive hcs)
  | label hkind hw =>
    obtain ⟨htext, -⟩ := spelled_word hw hkind hlen
    refine ⟨?_, tokenText_word htext⟩
    rw [printToken, List.append_assoc]
    exact .label htext
  | number hsign hd hcs =>
    have htext := spelled_numberText (.number hsign hd hcs) hlen
    have hstop : ¬ isalnum (deref q) = true := fun hc =>
      absurd (isIdentCont_of_isalnum hc) (by rw [hq.wordEnd.1]; decide)
    exact ⟨.number htext fun hc => absurd hc hstop, tokenText_number htext⟩
  | string hs => exact tokenAt_literal (denotes_escaped hs) hs hlen q

/-! ## A line

From the last token to the first, since what a token is followed by is the rest of the line. -/

theorem lexes_gap {s q : Bytes} {ts : List Token} (hs : Gap s) (h : Lexes q ts) :
    Lexes (s ++ q) ts := by
  have hnil : Separators [] := fun _ hc => absurd hc List.not_mem_nil
  exact lexes_separators hnil (gap_separators hs) h

theorem lexes_comment_only {comment : Bytes} (h : Comment comment) : Lexes comment [] := by
  rcases h with rfl | ⟨text, rfl⟩
  · exact .stop rfl
  · exact .stop (turn_stop_iff.mpr (.inr rfl))

/-- A token that is read from a text, before a line. -/
theorem lexes_tokenAt {p q : Bytes} {t : Token} {ts : List Token} (h : TokenAt p t.kind t.text q)
    (htext : tokenText t.text = t.text) (hrest : Lexes q ts) : Lexes p (t :: ts) := by
  have hturn : turn p = .token t.kind t.text q := by
    rw [← h.skipSeparators_eq] at h
    exact turn_token_iff.mpr h
  have hcons := Lexes.token hturn hrest
  rwa [htext] at hcons

/-- A printed token before a line. -/
theorem lexes_printToken {t : Token} (h : WellSpelled t) {q : Bytes} {ts : List Token}
    (hq : Ends q) (hrest : Lexes q ts) : Lexes (printToken t ++ q) (t :: ts) := by
  obtain ⟨hat, htext⟩ := tokenAt_printToken h hq
  exact lexes_tokenAt hat htext hrest

theorem lexes_printItems {comment : Bytes} (hcomment : Comment comment) :
    ∀ {items : List (Token × Bytes)}, Spaced items → (∀ i ∈ items, WellSpelled i.1) →
    Lexes (items.flatMap (fun i => printToken i.1 ++ i.2) ++ comment) (items.map Prod.fst)
  | [], _, _ => lexes_comment_only hcomment
  | [(t, gap)], hgap, hall => by
    have hrest : Lexes (gap ++ comment) [] := lexes_gap hgap (lexes_comment_only hcomment)
    have hends : Ends (gap ++ comment) := ends_gap hgap (.inr (comment_ends hcomment))
    rw [List.flatMap_cons, List.flatMap_nil, List.append_nil, List.append_assoc]
    exact lexes_printToken (hall _ List.mem_cons_self) hends hrest
  | (t, gap) :: j :: is, hspaced, hall => by
    obtain ⟨⟨hgap, hne⟩, hspaced⟩ := hspaced
    obtain ⟨ht, his⟩ := List.forall_mem_cons.mp hall
    have hrest := lexes_gap hgap (lexes_printItems hcomment hspaced his)
    rw [List.flatMap_cons, List.append_assoc, List.append_assoc]
    exact lexes_printToken ht (ends_gap hgap (.inl hne)) hrest

/-- **Lexing undoes printing**, as far as a line has room for the tokens. Past sixteen the lexer
refuses the line, whatever the tokens are. -/
theorem lexLine_printLine {lead comment : Bytes} {items : List (Token × Bytes)} (hlead : Gap lead)
    (hspaced : Spaced items) (hall : ∀ i ∈ items, WellSpelled i.1) (hcomment : Comment comment)
    (lineNo : Nat) :
    (items.length ≤ maxTokensPerLine →
      lexLine (printLine lead items comment) lineNo = (⟨items.map Prod.fst, lineNo⟩, none)) ∧
    (maxTokensPerLine < items.length →
      (lexLine (printLine lead items comment) lineNo).2 ≠ none) := by
  have hlexes : Lexes (printLine lead items comment) (items.map Prod.fst) :=
    lexes_gap hlead (lexes_printItems hcomment hspaced hall)
  constructor
  · intro hroom
    rw [← List.length_map Prod.fst] at hroom
    exact lexLine_iff.mpr ⟨rfl, hlexes, hroom⟩
  · intro hmany hnone
    obtain ⟨-, hlexes', hroom⟩ := lexLine_iff.mp (Prod.ext rfl hnone :
      lexLine (printLine lead items comment) lineNo =
        ((lexLine (printLine lead items comment) lineNo).1, none))
    rw [hlexes'.unique hlexes, List.length_map] at hroom
    omega

theorem lexLine_printLine_msg :
    lexLine (printLine (ascii " ") [(⟨.label, ascii "MSG"⟩, ascii ","),
        (⟨.string, [ch ';', quote]⟩, ascii " "), (⟨.number, ascii "-0x1F"⟩, [])] (ascii ";")) 1 =
      (⟨[⟨.label, ascii "MSG"⟩, ⟨.string, [ch ';', quote]⟩, ⟨.number, ascii "-0x1F"⟩], 1⟩,
        none) := by
  have hgap : Gap (ascii " ") ∧ Gap (ascii ",") ∧ Gap [] := by
    unfold Gap
    decide
  have hmsg : WellSpelled ⟨.label, ascii "MSG"⟩ :=
    ⟨.label (.inl rfl) (.ident (by decide) (by unfold IsWordChar; decide)), by decide⟩
  have hquote : WellSpelled ⟨.string, [ch ';', quote]⟩ := ⟨.string (by decide), by decide⟩
  have hnumber : WellSpelled ⟨.number, ascii "-0x1F"⟩ :=
    ⟨.number (show ascii "-" ∈ _ by decide) (show isdigit (ch '0') = true by decide) (by decide),
      by decide⟩
  refine (lexLine_printLine hgap.1 ?_ ?_ (.inr ⟨[], rfl⟩) 1).1 (by decide)
  · exact ⟨⟨hgap.2.1, by decide⟩, ⟨hgap.1, by decide⟩, hgap.2.2⟩
  · exact List.forall_mem_cons.mpr ⟨hmsg, List.forall_mem_cons.mpr ⟨hquote,
      List.forall_mem_singleton.mpr hnumber⟩⟩

end Proof
end EduCpu16
