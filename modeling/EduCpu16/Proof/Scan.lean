import EduCpu16.Proof.Turns

/-!
# Positions of a line

A line is lexed from one position to the next (`Scans`). What stands between two tokens, or behind
the last, can be changed without any other turn taking notice (`Scans.local`), and so can the case
of a word (`turn_case`).

What a turn looks at beyond its token is one character, by which it knows that the token has ended;
`EndsLike` says which characters do for another. With that, the tokens before a position stay what
they are when the rest of the line is exchanged.
-/

namespace EduCpu16
namespace Proof

open CLib

/-! ## From one position to another

`Lexes` reads a line to its end, `Scans` up to a position, and the two compose. Changes in the
middle of a line are stated with it: the tokens before the position stay, and the rest is lexed
anew. -/

/-- The tokens between two positions of a line. A position is the text from it on, so the line up to
it is what the two texts differ by. -/
inductive Scans : Bytes → List Token → Bytes → Prop
  | here {p : Bytes} : Scans p [] p
  | token {p text rest q : Bytes} {kind : TokenKind} {ts : List Token}
      (hturn : turn p = .token kind text rest) (hrest : Scans rest ts q) :
      Scans p (⟨kind, tokenText text⟩ :: ts) q

theorem Scans.lexes {p q : Bytes} {ts us : List Token} (h : Scans p ts q) (h' : Lexes q us) :
    Lexes p (ts ++ us) := by
  induction h with
  | here => exact h'
  | token hturn _ ih => exact .token hturn (ih h')

theorem Scans.split {p q : Bytes} {ts us : List Token} (h : Scans p ts q) (h' : Lexes p us) :
    ∃ vs, us = ts ++ vs ∧ Lexes q vs := by
  induction h generalizing us with
  | here => exact ⟨us, rfl, h'⟩
  | token hturn _ ih =>
    cases h' with
    | stop hstop => cases hturn.symm.trans hstop
    | token hturn' hrest' =>
      cases hturn.symm.trans hturn'
      obtain ⟨vs, rfl, hvs⟩ := ih hrest'
      exact ⟨vs, rfl, hvs⟩

/-- The whole line, up to where it stops. -/
theorem Lexes.scans {p : Bytes} {ts : List Token} (h : Lexes p ts) :
    ∃ q, Scans p ts q ∧ turn q = .stop := by
  induction h with
  | stop hstop => exact ⟨_, .here, hstop⟩
  | token hturn _ ih =>
    obtain ⟨q, hq, hstop⟩ := ih
    exact ⟨q, .token hturn hq, hstop⟩

/-- **Tokens do not depend on what follows them.** -/
theorem Scans.local {p q : Bytes} {ts : List Token} (h : Scans p ts q) :
    ∃ u, p = u ++ q ∧ ∀ q', EndsLike q' q → Scans (u ++ q') ts q' := by
  induction h with
  | here => exact ⟨[], rfl, fun _ _ => .here⟩
  | token hturn _ ih =>
    obtain ⟨u, rfl, hrest⟩ := ih
    obtain ⟨w, -, rfl, hlocal⟩ := turn_local hturn
    refine ⟨w ++ u, (List.append_assoc w u _).symm, fun q' hq' => ?_⟩
    rw [List.append_assoc]
    exact .token (hlocal _ (hq'.append u)) (hrest q' hq')

/-- The same, where the position is given by what is before it. -/
theorem Scans.replace {u q q' : Bytes} {ts : List Token} (h : Scans (u ++ q) ts q)
    (hq' : EndsLike q' q) : Scans (u ++ q') ts q' := by
  obtain ⟨u', hu, hlocal⟩ := h.local
  obtain rfl := List.append_cancel_right hu
  exact hlocal q' hq'

/-! ## Another case

No class of characters that the lexer knows tells upper from lower case, so a word in another case
is a word of the same length and kind. -/

/-- The same letters, in any case. -/
def SameLetters (w' w : Bytes) : Prop := w'.map tolower = w.map tolower

theorem isIdentCont_tolower : ∀ c : Byte, isIdentCont (tolower c) = isIdentCont c := by decide

theorem isIdentStart_tolower : ∀ c : Byte, isIdentStart (tolower c) = isIdentStart c := by decide

theorem isalnum_tolower : ∀ c : Byte, isalnum (tolower c) = isalnum c := by decide

theorem tolower_eq_colon : ∀ c : Byte, tolower c = ch ':' ↔ c = ch ':' := by decide

theorem tolower_eq_dot : ∀ c : Byte, tolower c = ch '.' ↔ c = ch '.' := by decide

theorem SameLetters.length {w' w : Bytes} (h : SameLetters w' w) : w'.length = w.length := by
  have hlen := congrArg List.length h
  rwa [List.length_map, List.length_map] at hlen

theorem SameLetters.append {w' w : Bytes} (h : SameLetters w' w) (q : Bytes) :
    SameLetters (w' ++ q) (w ++ q) := by
  rw [SameLetters, List.map_append, List.map_append, show w'.map tolower = w.map tolower from h]

theorem tolower_deref (w : Bytes) : tolower (deref w) = deref (w.map tolower) := by
  cases w with
  | nil => rfl
  | cons c cs => rfl

theorem SameLetters.first {w' w : Bytes} (h : SameLetters w' w) :
    tolower (deref w') = tolower (deref w) := by
  rw [tolower_deref, tolower_deref, show w'.map tolower = w.map tolower from h]

/-- What starts with the same letter ends a token alike. -/
theorem SameLetters.endsLike {w' w : Bytes} (h : SameLetters w' w) : EndsLike w' w where
  alnum := by
    rw [← isalnum_tolower, h.first, isalnum_tolower]
    exact id
  cont := by
    rw [← isIdentCont_tolower, h.first, isIdentCont_tolower]
    exact id
  colon := by
    rw [← tolower_eq_colon, h.first, tolower_eq_colon]
    exact id

theorem SameLetters.wordText {w' w : Bytes} (h : SameLetters w' w) (hw : WordText w) :
    WordText w' where
  start := by
    rw [← isIdentStart_tolower, h.first, isIdentStart_tolower]
    exact hw.start
  cont := by
    have htail : w'.tail.map tolower = w.tail.map tolower := by
      rw [List.map_tail, List.map_tail, show w'.map tolower = w.map tolower from h]
    intro b hb
    have hmem : tolower b ∈ w.tail.map tolower := htail ▸ List.mem_map_of_mem hb
    obtain ⟨a, ha, hab⟩ := List.mem_map.mp hmem
    rw [← isIdentCont_tolower, ← hab, isIdentCont_tolower]
    exact hw.cont a ha
  length := by
    rw [h.length]
    exact hw.length

theorem SameLetters.wordKind {w' w : Bytes} (h : SameLetters w' w) : wordKind w' = wordKind w := by
  have hdot : deref w' = ch '.' ↔ deref w = ch '.' := by
    rw [← tolower_eq_dot, h.first, tolower_eq_dot]
  exact if_congr hdot rfl rfl

/-- When a turn reads an identifier or a directive. -/
theorem turn_ident_iff {w q : Bytes} {kind : TokenKind}
    (hkind : kind = .ident ∨ kind = .directive) : turn (w ++ q) = .token kind w q ↔
      WordText w ∧ (isIdentCont (deref q) = true → w.length = maxTokenLen) ∧
      deref q ≠ ch ':' ∧ kind = wordKind w := by
  rw [turn_token_iff]
  constructor
  · intro h
    generalize skipSeparators (w ++ q) = p at h
    cases h with
    | string | number | label => rcases hkind with hk | hk <;> cases hk
    | word hw hlong hcolon => exact ⟨hw, hlong, hcolon, rfl⟩
  · rintro ⟨hw, hlong, hcolon, rfl⟩
    rw [skipSeparators_word hw]
    exact .word hw hlong hcolon

/-- An identifier or a directive is read in any case. -/
theorem turn_case {w' w q : Bytes} {kind : TokenKind} (hkind : kind = .ident ∨ kind = .directive)
    (hcase : SameLetters w' w) (h : turn (w ++ q) = .token kind w q) :
    turn (w' ++ q) = .token kind w' q := by
  obtain ⟨hw, hlong, hcolon, hkd⟩ := (turn_ident_iff hkind).mp h
  refine (turn_ident_iff hkind).mpr ⟨hcase.wordText hw, ?_, hcolon, ?_⟩
  · rw [hcase.length]
    exact hlong
  · rw [hcase.wordKind]
    exact hkd

end Proof
end EduCpu16
