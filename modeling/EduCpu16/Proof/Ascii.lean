import EduCpu16.Lib.BitFields
import EduCpu16.Proof.Pass2
import EduCpu16.Proof.Turns
import EduCpu16.Source.Literal
import Mathlib.Data.List.GetD

/-!
# From a literal to the words of `.ascii`

The lexer decodes the escapes into its buffer, and the packing loop of pass 2 writes two bytes a
word, the terminator included; both carry every byte. In between the text is copied twice as a C
string, by `push_token` and by `parse_directive`, so what arrives are the bytes before the first
zero (`asciiSrc_words`).

So `.ascii` keeps its text exactly when nothing is lost by that, which is a condition on the text
alone (`ZerosFit`). One zero byte may be there: behind a text of even length the terminator gets a
word to itself, two zero bytes, and a zero that is written out at the end is the first of them.
-/

namespace EduCpu16
namespace Proof

open CLib Source

/-! ## The lexer

The bytes of the literal reach the token through `strlen`, so the token has the C string at their
start. -/

/-- A literal is one token, the C string at the start of its bytes. -/
theorem turn_literal {body s : Bytes} (h : Denotes body s) :
    turn (quote :: (body ++ [quote])) =
      if s.length ≤ maxTokenLen then .token .string s [] else
        .fail (ascii "string literal too long") := by
  have hskip : skipSeparators (quote :: (body ++ [quote])) = quote :: (body ++ [quote]) := by
    rw [skipSeparators, if_neg (by decide)]
  have hderef : deref (quote :: (body ++ [quote])) = quote := rfl
  have hscan := scanString_denotes h [] [] (Nat.zero_le _)
  rw [List.length_nil, Nat.zero_add, List.nil_append] at hscan
  rw [turn]
  simp only [hskip, hderef]
  rw [if_neg (by decide), if_true, List.tail_cons, hscan]
  by_cases hmax : s.length ≤ maxTokenLen
  · rw [if_pos hmax, if_pos hmax]
    rfl
  · rw [if_neg hmax, if_neg hmax]

theorem wordText_dotAscii : WordText (ascii ".ascii") :=
  ⟨by decide, by decide, by decide⟩

/-- The two turns of `.ascii "body"`. -/
theorem turn_asciiSrc (body : Bytes) : turn (asciiSrc body) =
    .token .directive (ascii ".ascii") (ch ' ' :: quote :: (body ++ [quote])) :=
  turn_word wordText_dotAscii (wordEnd_space _)

theorem turn_asciiRest {body s : Bytes} (h : Denotes body s) :
    turn (ch ' ' :: quote :: (body ++ [quote])) =
      if s.length ≤ maxTokenLen then .token .string s [] else
        .fail (ascii "string literal too long") := by
  rw [turn_skip (by decide) (.inl (by decide)), turn_literal h]

/-- The tokens of `.ascii "body"`. -/
theorem lexes_asciiSrc {body s : Bytes} (h : Denotes body s) (hmax : s.length ≤ maxTokenLen) :
    Lexes (asciiSrc body) [⟨.directive, ascii ".ascii"⟩, ⟨.string, cstr s⟩] := by
  have hlen : (cstr s).length ≤ s.length := (List.takeWhile_prefix _).length_le
  have hstring : tokenText s = cstr s := List.take_of_length_le (by omega)
  have hturn := turn_asciiRest h
  rw [if_pos hmax] at hturn
  rw [← hstring]
  exact .token (turn_asciiSrc body) (.token hturn (.stop (p := []) rfl))

/-- The lexer accepts the line just when the text fits a token. -/
theorem lexLine_asciiSrc {body s : Bytes} (h : Denotes body s) (lineNo : Nat) :
    (lexLine (asciiSrc body) lineNo).2 = none ↔ s.length ≤ maxTokenLen := by
  constructor
  · intro hok
    obtain ⟨-, hlexes, -⟩ := lexLine_iff.mp (Prod.ext rfl hok :
      lexLine (asciiSrc body) lineNo = ((lexLine (asciiSrc body) lineNo).1, none))
    by_contra hlong
    have hturn := turn_asciiRest h
    rw [if_neg hlong] at hturn
    generalize (lexLine (asciiSrc body) lineNo).1.tokens = ts at hlexes
    -- The first turn reads the directive, and the second fails.
    cases hlexes with
    | stop hstop => cases (turn_asciiSrc body).symm.trans hstop
    | token hfirst hrest =>
      cases (turn_asciiSrc body).symm.trans hfirst
      cases hrest with
      | stop hstop => cases hturn.symm.trans hstop
      | token hsecond _ => cases hturn.symm.trans hsecond
  · intro hmax
    have htl : lexLine (asciiSrc body) lineNo =
        (⟨[⟨.directive, ascii ".ascii"⟩, ⟨.string, cstr s⟩], lineNo⟩, none) :=
      lexLine_iff.mpr ⟨rfl, lexes_asciiSrc h hmax, show 2 ≤ maxTokensPerLine by decide⟩
    rw [htl]

/-! ## The packing loop

The loop steps over the string two bytes at a time and puts the first byte low. What it writes is
read back with `unpack`, so the statement is about bytes: the string, and zeroes up to the end of
the last word. The induction is on the turns that are left, with the position in the string as it
goes. -/

theorem unpack_cons (w : Word) (ws : List Word) :
    unpack (w :: ws) = w.setWidth 8 :: (w >>> 8).setWidth 8 :: unpack ws := rfl

theorem getD_zero_of_le {s : Bytes} {i : Nat} (h : s.length ≤ i) : s.getD i 0 = 0 := by
  rw [List.getD_eq_getElem?_getD, List.getElem?_eq_none h]
  rfl

/-- The word at `b`: two bytes of the string, which reads zero past its end. -/
theorem asciiWord_eq {s : Bytes} {b : Nat} (hb : b ≤ s.length) :
    asciiWord s s.length b =
      (s.getD b 0).setWidth 16 ||| ((s.getD (b + 1) 0).setWidth 16 <<< 8) := by
  unfold asciiWord
  simp only
  rw [if_pos hb]
  by_cases hnext : b + 1 ≤ s.length
  · rw [if_pos hnext]
  · rw [if_neg hnext, getD_zero_of_le (i := b + 1) (by omega)]
    rfl

theorem drop_eq_getD_cons {s : Bytes} {b : Nat} (h : b < s.length) :
    s.drop b = s.getD b 0 :: s.drop (b + 1) := by
  rw [List.drop_eq_getElem_cons h, List.getD_eq_getElem _ _ h]

/-- The zero bytes that fill the last word from `b` on. -/
def padding (len b : Nat) : Nat := 2 * ((len + 2 - b) / 2) - (len - b)

/-- **The loop writes the string from `b` on**, and zeroes to the end of the last word. -/
theorem unpack_asciiLoop (s : Bytes) : ∀ (fuel b : Nat) (a : Word),
    (s.length + 2 - b) / 2 ≤ fuel →
    unpack ((asciiLoop s s.length fuel b a).map Prod.snd) =
      s.drop b ++ List.replicate (padding s.length b) 0
  | 0, b, a, hfuel => by
    have hpad : padding s.length b = 0 := by
      unfold padding
      omega
    rw [hpad, List.drop_eq_nil_of_le (by omega)]
    rfl
  | fuel + 1, b, a, hfuel => by
    rw [asciiLoop]
    by_cases hle : b ≤ s.length
    · obtain ⟨hlo, hhi⟩ := BitFields.bytes_littleEndian (s.getD b 0) (s.getD (b + 1) 0)
      rw [if_pos hle, List.map_cons, unpack_cons, asciiWord_eq hle, hlo, hhi,
        unpack_asciiLoop s fuel (b + 2) (a + 1) (by omega)]
      rcases Nat.lt_trichotomy (b + 1) s.length with hlt | heq | hgt
      · have hpad : padding s.length b = padding s.length (b + 2) := by
          unfold padding
          omega
        rw [drop_eq_getD_cons (show b < s.length by omega), drop_eq_getD_cons hlt, hpad]
        rfl
      · -- The last byte shares its word with the terminator.
        have hpad : padding s.length b = 1 := by
          unfold padding
          omega
        have hpad' : padding s.length (b + 2) = 0 := by
          unfold padding
          omega
        rw [drop_eq_getD_cons (show b < s.length by omega), hpad, hpad',
          List.drop_eq_nil_of_le (by omega), List.drop_eq_nil_of_le (by omega),
          getD_zero_of_le (i := b + 1) (by omega)]
        rfl
      · -- The terminator has a word for itself.
        have hpad : padding s.length b = 2 := by
          unfold padding
          omega
        have hpad' : padding s.length (b + 2) = 0 := by
          unfold padding
          omega
        rw [hpad, hpad', List.drop_eq_nil_of_le (by omega), List.drop_eq_nil_of_le (by omega),
          getD_zero_of_le (i := b) (by omega), getD_zero_of_le (i := b + 1) (by omega)]
        rfl
    · have hpad : padding s.length b = 0 := by
        unfold padding
        omega
      rw [if_neg hle, hpad, List.drop_eq_nil_of_le (by omega)]
      rfl

/-! ## The line

The words are those of the C string with its terminator, and whether they hold the text is asked of
the bytes they are packed from. -/

/-- The record of a `.ascii` of the string `t`. -/
def asciiRecord (lineNo : Nat) (t : Bytes) : ParsedLine where
  kind := .directive
  lineNo := lineNo
  dir := { kind := .ascii, str := t, strLen := t.length }

/-- **The words of `.ascii "body"`** are those of the C string at the start of the text. -/
theorem asciiSrc_words {body s : Bytes} (h : Denotes body s) (lineNo : Nat)
    (hlex : (lexLine (asciiSrc body) lineNo).2 = none) (opt : AsmOptions) (sym : Symtable)
    (a : Word) :
    let r := parseLine (lexLine (asciiSrc body) lineNo).1
    let words := (pass2Line opt sym (asciiSrc body) { r.1 with address := a }).stores.map Prod.snd
    r.2 = none ∧ words.length = ((cstr s).length + 2) / 2 ∧
    unpack words = cstr s ++ List.replicate (padding (cstr s).length 0) 0 := by
  have hmax := (lexLine_asciiSrc h lineNo).mp hlex
  have hlen : (cstr s).length ≤ s.length := (List.takeWhile_prefix _).length_le
  have htl : lexLine (asciiSrc body) lineNo =
      (⟨[⟨.directive, ascii ".ascii"⟩, ⟨.string, cstr s⟩], lineNo⟩, none) :=
    lexLine_iff.mpr ⟨rfl, lexes_asciiSrc h hmax, show 2 ≤ maxTokensPerLine by decide⟩
  have hparse : parseLine ⟨[⟨.directive, ascii ".ascii"⟩, ⟨.string, cstr s⟩], lineNo⟩ =
      parseAscii lineNo [⟨.string, cstr s⟩] { lineNo := lineNo, kind := .directive } := rfl
  have hmin : min (cstr s).length maxTokenLen = (cstr s).length := Nat.min_eq_left (by omega)
  intro r words
  have hr : r = (asciiRecord lineNo (cstr s), none) := by
    simp only [r, htl, hparse, parseAscii, hmin, List.take_length]
    rfl
  have hwords : words =
      (asciiLoop (cstr s) (cstr s).length ((cstr s).length + 1) 0 a).map Prod.snd := by
    simp only [words, hr]
    rfl
  have haddrs := asciiLoop_addrs (cstr s) (cstr s).length ((cstr s).length + 1) 0 a (by omega)
  refine ⟨by rw [hr], ?_, ?_⟩
  · have hcount := congrArg List.length haddrs
    rw [hwords, List.length_map]
    simpa [wordsFrom] using hcount
  · rw [hwords, unpack_asciiLoop _ _ _ _ (by omega), List.drop_zero]

/-- The zero bytes of a text are none, or one at its end where the terminator has a word for
itself. -/
def ZerosFit (s : Bytes) : Prop :=
  0 ∉ s ∨ ∃ t, s = t ++ [0] ∧ 0 ∉ t ∧ t.length % 2 = 0

/-- Words that hold the C string at the start of a text hold the text just when its zeroes fit. -/
theorem holdsText_iff {s : Bytes} {words : List Word}
    (hlen : words.length = ((cstr s).length + 2) / 2)
    (hunpack : unpack words = cstr s ++ List.replicate (padding (cstr s).length 0) 0) :
    HoldsText words s ↔ ZerosFit s := by
  constructor
  · rintro ⟨hcount, -⟩
    by_cases hmem : 0 ∈ s
    · -- The text is longer than its C string, but does not need a word more.
      obtain ⟨rest, hrest⟩ := cstr_append_of_mem hmem
      have hlength : s.length = (cstr s).length + (rest.length + 1) := by
        have := congrArg List.length hrest
        rwa [List.length_append, List.length_cons] at this
      have hnil : rest = [] := List.length_eq_zero_iff.mp (by omega)
      rw [hnil] at hrest
      exact .inr ⟨cstr s, hrest, not_mem_cstr s, by omega⟩
    · exact .inl hmem
  · rintro (hmem | ⟨t, rfl, hmem, heven⟩)
    · rw [cstr_of_not_mem hmem] at hlen hunpack
      refine ⟨hlen, ?_⟩
      rcases Nat.mod_two_eq_zero_or_one s.length with heven | hodd
      · have hpad : padding s.length 0 = 2 := by
          unfold padding
          omega
        rw [hpad] at hunpack
        exact ⟨[0], .inr rfl, by rw [hunpack, List.append_assoc]; rfl⟩
      · have hpad : padding s.length 0 = 1 := by
          unfold padding
          omega
        rw [hpad] at hunpack
        exact ⟨[], .inl rfl, by rw [hunpack, List.append_nil]; rfl⟩
    · rw [cstr_append_zero, cstr_of_not_mem hmem] at hlen hunpack
      have hpad : padding t.length 0 = 2 := by
        unfold padding
        omega
      rw [hpad] at hunpack
      refine ⟨?_, [], .inl rfl, ?_⟩
      · rw [hlen, List.length_append, List.length_singleton]
        omega
      · rw [hunpack, List.append_nil, List.append_assoc]
        rfl

/-- **`.ascii` and its text.** The words of a literal the lexer accepts hold its text just when
the text has no zero byte, or one at its end in the place of the terminator of an even text. -/
theorem ascii_holdsText_iff {body s : Bytes} (h : Denotes body s) (lineNo : Nat)
    (hlex : (lexLine (asciiSrc body) lineNo).2 = none) (opt : AsmOptions) (sym : Symtable)
    (a : Word) :
    let r := parseLine (lexLine (asciiSrc body) lineNo).1
    let out := pass2Line opt sym (asciiSrc body) { r.1 with address := a }
    (r.2 = none ∧ HoldsText (out.stores.map Prod.snd) s) ↔ ZerosFit s := by
  intro r out
  obtain ⟨hparse, hlen, hunpack⟩ := asciiSrc_words h lineNo hlex opt sym a
  rw [← holdsText_iff hlen hunpack]
  exact and_iff_right hparse

/-- The text of two letters, at an address. -/
theorem ascii_holdsText_two :
    let r := parseLine (lexLine (asciiSrc (ascii "Hi")) 1).1
    let out := pass2Line {} symtableReset (asciiSrc (ascii "Hi")) { r.1 with address := 0x200 }
    r.2 = none ∧ HoldsText (out.stores.map Prod.snd) (ascii "Hi") :=
  (ascii_holdsText_iff
    (.char (by decide) (by decide) (by decide) (.char (by decide) (by decide) (by decide) .nil))
    1 (by decide) {} symtableReset 0x200).mpr (.inl (by decide))

/-- Behind an escaped zero the text is lost. -/
theorem ascii_drops_text :
    ¬ ∀ (body s : Bytes), Denotes body s → ∀ lineNo : Nat,
      (lexLine (asciiSrc body) lineNo).2 = none → ∀ (opt : AsmOptions) (sym : Symtable) (a : Word),
      (parseLine (lexLine (asciiSrc body) lineNo).1).2 = none ∧
      HoldsText ((pass2Line opt sym (asciiSrc body)
        { (parseLine (lexLine (asciiSrc body) lineNo).1).1 with address := a }).stores.map
          Prod.snd) s := by
  intro h
  have hdenotes : Denotes [backslash, ch '0', ch 'x'] [0, ch 'x'] :=
    .escape (by decide) (.char (by decide) (by decide) (by decide) .nil)
  obtain ⟨-, hcount, -⟩ := h _ _ hdenotes 1 (by decide) {} symtableReset 0
  exact absurd hcount (by decide)

end Proof
end EduCpu16
