import EduCpu16.Source.Literal

/-!
# The scanning loops of the lexer

A loop takes what is of its class while there is room in the buffer (`Consumes`). What the three
branches of `lex_line` read is then a matter of the text alone. An identifier, a directive and a
label are one kind of text, a word: a letter, `_` or a dot, then letters, digits and `_`
(`scanIdent_iff`). A number is a digit, or a sign and a digit, and letters and digits
(`scanNumber_iff`); a string is what stands before a quote that no backslash escapes
(`scanString_iff`). Words and numbers also end where the buffer is full, a string never does.

Each of the three is an equivalence between what the branch computes and a description of the text
it has read, so that whatever is said of lines afterwards is said of texts. The remainder `q` is
part of them, since where a token ends depends on what follows.
-/

namespace EduCpu16
namespace Proof

open CLib Source

/-- The text of an identifier, a directive or a label. -/
structure WordText (w : Bytes) : Prop where
  start : isIdentStart (deref w) = true
  cont : ∀ b ∈ w.tail, isIdentCont b = true
  length : w.length ≤ maxTokenLen

/-- A word cannot go on, nor become a label, with what follows it. -/
def WordEnd (rest : Bytes) : Prop :=
  isIdentCont (deref rest) = false ∧ deref rest ≠ ch ':'

/-! ## Characters

What the classes of `ctype.h` have to do with each other and with the characters that end a token.
-/

theorem isIdentStart_cases : ∀ c : Byte, isIdentStart c = true →
    c ≠ 0 ∧ c ≠ ch ';' ∧ c ≠ quote ∧ isspace c = false ∧ c ≠ ch ',' ∧ isdigit c = false ∧
    c ≠ ch '-' ∧ c ≠ ch '+' := by decide

theorem isIdentCont_ne_zero : ∀ c : Byte, isIdentCont c = true → c ≠ 0 := by decide

theorem isIdentCont_of_start : ∀ c : Byte, isIdentStart c = true → c ≠ ch '.' →
    isIdentCont c = true := by decide

theorem isIdentCont_of_isalnum {c : Byte} (h : isalnum c = true) : isIdentCont c = true := by
  rw [isIdentCont, h, Bool.true_or]

theorem isalnum_ne_zero : ∀ c : Byte, isalnum c = true → c ≠ 0 := by decide

theorem isdigit_cases : ∀ c : Byte, isdigit c = true → c ≠ 0 ∧ isalnum c = true := by decide

theorem WordText.ne_nil {w : Bytes} (h : WordText w) : w ≠ [] := by
  rintro rfl
  exact absurd h.start (by decide)

/-- A word has no NUL in it. -/
theorem WordText.ne_zero {w : Bytes} (h : WordText w) : ∀ b ∈ w, b ≠ 0 := by
  cases w with
  | nil => exact fun _ hb => absurd hb List.not_mem_nil
  | cons c cs =>
    exact List.forall_mem_cons.mpr
      ⟨(isIdentStart_cases c h.start).1, fun b hb => isIdentCont_ne_zero b (h.cont b hb)⟩

theorem WordText.cstr_eq {w : Bytes} (h : WordText w) : cstr w = w :=
  cstr_of_not_mem fun hmem => h.ne_zero 0 hmem rfl

/-! ## The scanning loop

The loop never fails: of any text it takes some front (`exists_consumes`), and what it leaves begins
with a character of another class unless the buffer is full. -/

/-- With `n` bytes in its buffer, a loop takes `w` and stops before `q`. There are two ways to stop,
and the last field says that where the class goes on it was the buffer. -/
structure Consumes (cls : Byte → Bool) (n : Nat) (w q : Bytes) : Prop where
  all : ∀ b ∈ w, b ≠ 0 ∧ cls b = true
  room : n + w.length ≤ maxTokenLen
  stop : deref q ≠ 0 → cls (deref q) = true → n + w.length = maxTokenLen

section Consumes

variable {cls : Byte → Bool} {n : Nat} {w q : Bytes}

theorem exists_consumes (cls : Byte → Bool) (p : Bytes) (hn : n ≤ maxTokenLen) :
    ∃ w q, p = w ++ q ∧ Consumes cls n w q := by
  induction p generalizing n with
  | nil => exact ⟨[], [], rfl, fun _ h => absurd h List.not_mem_nil, hn, fun h => absurd rfl h⟩
  | cons c cs ih =>
    by_cases hc : c ≠ 0 ∧ cls c = true ∧ n < maxTokenLen
    · obtain ⟨w, q, rfl, hw⟩ := ih (Nat.succ_le_of_lt hc.2.2)
      have hlen : n + (c :: w).length = n + 1 + w.length := by
        rw [List.length_cons, Nat.add_right_comm, Nat.add_assoc]
      exact ⟨c :: w, q, rfl, List.forall_mem_cons.mpr ⟨⟨hc.1, hc.2.1⟩, hw.all⟩,
        hlen ▸ hw.room, hlen ▸ hw.stop⟩
    · refine ⟨[], c :: cs, rfl, fun _ h => absurd h List.not_mem_nil, hn, fun hzero hcls => ?_⟩
      exact Nat.le_antisymm hn (Nat.le_of_not_lt fun hlt => hc ⟨hzero, hcls, hlt⟩)

theorem Consumes.scanWhile (buf : Bytes) (h : Consumes cls buf.length w q) :
    scanWhile cls (w ++ q) buf = (q, buf ++ w) := by
  induction w generalizing buf with
  | nil =>
    rw [List.nil_append, List.append_nil]
    cases q with
    | nil => rfl
    | cons c cs =>
      rw [EduCpu16.scanWhile, if_neg]
      rintro ⟨hzero, hcls, hlt⟩
      exact Nat.ne_of_lt hlt (h.stop hzero hcls)
  | cons c cs ih =>
    obtain ⟨hc, hcs⟩ := List.forall_mem_cons.mp h.all
    have hlen : (buf ++ [c]).length + cs.length = buf.length + (c :: cs).length := by
      rw [List.length_append, List.length_singleton, List.length_cons, Nat.add_assoc,
        Nat.add_comm 1]
    have hlt : buf.length < maxTokenLen :=
      Nat.lt_of_lt_of_le (Nat.lt_add_of_pos_right (Nat.succ_pos _)) h.room
    rw [List.cons_append, EduCpu16.scanWhile, if_pos ⟨hc.1, hc.2, hlt⟩,
      ih _ ⟨hcs, hlen ▸ h.room, hlen ▸ h.stop⟩, List.append_assoc, List.singleton_append]

/-- The loop takes what it can. -/
theorem consumes_of_scanWhile {p out : Bytes} (buf : Bytes) (hbuf : buf.length ≤ maxTokenLen)
    (h : scanWhile cls p buf = (q, out)) :
    ∃ w, p = w ++ q ∧ out = buf ++ w ∧ Consumes cls buf.length w q := by
  obtain ⟨w, q', rfl, hw⟩ := exists_consumes cls p hbuf
  rw [hw.scanWhile] at h
  obtain ⟨rfl, rfl⟩ := Prod.mk.inj h
  exact ⟨w, rfl, rfl, hw⟩

/-- With room in its buffer it takes a first character of its class. -/
theorem Consumes.ne_nil (h : Consumes cls n w q) (hn : n < maxTokenLen) (hzero : deref (w ++ q) ≠ 0)
    (hcls : cls (deref (w ++ q)) = true) : w ≠ [] := by
  rintro rfl
  exact Nat.ne_of_lt hn (h.stop hzero hcls)

end Consumes

/-! ## Words

An identifier, a directive and a label differ in their first and in the next character, so there is
one description of the text and `wordKind` for the kind. -/

theorem WordText.consumes {c : Byte} {cs q : Bytes} (hw : WordText (c :: cs))
    (hq : isIdentCont (deref q) = true → (c :: cs).length = maxTokenLen) :
    Consumes isIdentCont 1 cs q := by
  have hlen : (c :: cs).length = 1 + cs.length := Nat.add_comm _ _
  refine ⟨fun b hb => ?_, hlen ▸ hw.length, fun _ hc => hlen ▸ hq hc⟩
  exact ⟨isIdentCont_ne_zero b (hw.cont b hb), hw.cont b hb⟩

theorem Consumes.wordText {c : Byte} {cs q : Bytes} (hc : isIdentStart c = true)
    (h : Consumes isIdentCont 1 cs q) : WordText (c :: cs) ∧
      (isIdentCont (deref q) = true → (c :: cs).length = maxTokenLen) := by
  have hlen : (c :: cs).length = 1 + cs.length := Nat.add_comm _ _
  refine ⟨⟨hc, fun b hb => (h.all b hb).2, hlen ▸ h.room⟩, fun hq => ?_⟩
  exact hlen ▸ h.stop (isIdentCont_ne_zero _ hq) hq

theorem scanIdent_cons {c : Byte} (hc : isIdentStart c = true) (cs : Bytes) :
    scanIdent (c :: cs) = scanWhile isIdentCont cs [c] := by
  unfold scanIdent
  by_cases hdot : c = ch '.'
  · rw [if_pos (show deref (c :: cs) = ch '.' from hdot), hdot]
    rfl
  · -- The first character is one that can also continue a word.
    have hcont := isIdentCont_of_start c hc hdot
    rw [if_neg (show ¬ deref (c :: cs) = ch '.' from hdot), scanWhile,
      if_pos ⟨isIdentCont_ne_zero c hcont, hcont, by decide⟩, List.nil_append]

/-- **The identifier branch reads a word**, and only a full buffer stops it inside. -/
theorem scanIdent_iff {p w q : Bytes} :
    isIdentStart (deref p) = true ∧ scanIdent p = (q, w) ↔
      p = w ++ q ∧ WordText w ∧ (isIdentCont (deref q) = true → w.length = maxTokenLen) := by
  constructor
  · rintro ⟨hstart, h⟩
    cases p with
    | nil => exact absurd hstart (by decide)
    | cons c cs =>
      have hc : isIdentStart c = true := hstart
      rw [scanIdent_cons hc] at h
      obtain ⟨w, rfl, rfl, hw⟩ := consumes_of_scanWhile [c] (show 1 ≤ maxTokenLen by decide) h
      exact ⟨rfl, hw.wordText hc⟩
  · rintro ⟨rfl, hw, hq⟩
    cases w with
    | nil => exact absurd rfl hw.ne_nil
    | cons c cs =>
      have hc : isIdentStart c = true := hw.start
      refine ⟨hc, ?_⟩
      rw [List.cons_append, scanIdent_cons hc]
      exact (hw.consumes hq).scanWhile [c]

theorem skipSeparators_word {w : Bytes} (hw : WordText w) (rest : Bytes) :
    skipSeparators (w ++ rest) = w ++ rest := by
  cases w with
  | nil => exact absurd rfl hw.ne_nil
  | cons c cs =>
    obtain ⟨-, -, -, hspace, hcomma, -⟩ := isIdentStart_cases c hw.start
    rw [List.cons_append, skipSeparators, if_neg (by simp [hspace, hcomma])]

theorem wordEnd_nil : WordEnd [] := by
  unfold WordEnd
  decide

theorem wordEnd_space (rest : Bytes) : WordEnd (ch ' ' :: rest) :=
  ⟨show isIdentCont (ch ' ') = false by decide, show ch ' ' ≠ ch ':' by decide⟩

/-- The kind of a word that no colon follows. -/
def wordKind (w : Bytes) : TokenKind := if deref w = ch '.' then .directive else .ident

/-- A token that is an identifier, a directive or a label holds a word. -/
def TokenOk (t : Token) : Prop :=
  t.kind = .ident ∨ t.kind = .directive ∨ t.kind = .label → WordText t.text

/-! ## Numbers

The number branch scans letters and digits whatever the base, so a number token is not yet a number;
that is decided by `parse_number`. The base mark is put into the buffer by a branch of its own and
would have been scanned anyway. -/

/-- A base mark is of the class that is scanned. -/
theorem scanWhile_baseMark {p buf : Bytes} (hlen : buf.length ≤ 1) (hmark : deref p = ch '0' ∧
    (deref p.tail = ch 'x' ∨ deref p.tail = ch 'X' ∨ deref p.tail = ch 'b' ∨
      deref p.tail = ch 'B')) :
    scanWhile isalnum p.tail.tail (buf ++ [deref p, deref p.tail]) = scanWhile isalnum p buf := by
  have hletter : ∀ c : Byte, c = ch 'x' ∨ c = ch 'X' ∨ c = ch 'b' ∨ c = ch 'B' →
      c ≠ 0 ∧ isalnum c = true := by decide
  have h127 : maxTokenLen = 127 := rfl
  match p, hmark with
  | [], hmark => exact absurd hmark.1 (by decide)
  | [_], hmark => exact absurd rfl (hletter _ hmark.2).1
  | c :: d :: cs, hmark =>
    obtain ⟨hd0, hd⟩ := hletter _ hmark.2
    have hc : c ≠ 0 ∧ isalnum c = true := by
      rw [show c = ch '0' from hmark.1]
      decide
    rw [scanWhile, if_pos ⟨hc.1, hc.2, by omega⟩, scanWhile,
      if_pos ⟨hd0, hd, by rw [List.length_append, List.length_singleton]; omega⟩,
      List.append_assoc]
    rfl

/-- So it makes no difference. -/
theorem scanNumber_eq (p : Bytes) : scanNumber p =
    if deref p = ch '-' ∨ deref p = ch '+' then scanWhile isalnum p.tail [deref p]
    else scanWhile isalnum p [] := by
  rw [scanNumber]
  by_cases hsign : deref p = ch '-' ∨ deref p = ch '+'
  · simp only [if_pos hsign]
    split
    · rename_i hmark
      exact scanWhile_baseMark (Nat.le_refl 1) hmark
    · rfl
  · simp only [if_neg hsign]
    split
    · rename_i hmark
      exact scanWhile_baseMark (Nat.zero_le 1) hmark
    · rfl

/-- The text of a number token: a digit, or a sign and a digit, then letters and digits. So `0x1F`
and `12abc` are both number tokens, and only the first is a number. -/
structure NumberText (w : Bytes) : Prop where
  start : startsNumber w = true
  cont : ∀ b ∈ w.tail, isalnum b = true
  length : w.length ≤ maxTokenLen

/-- The first character is the digit, or the digit is behind it. -/
theorem startsNumber_iff {c : Byte} {cs : Bytes} : startsNumber (c :: cs) = true ↔
    isdigit c = true ∨ (c = ch '-' ∨ c = ch '+') ∧ isdigit (deref cs) = true := by
  rw [startsNumber, show deref (c :: cs) = c from rfl, List.tail_cons]
  simp only [Bool.or_eq_true, Bool.and_eq_true, decide_eq_true_eq, or_assoc, or_and_right]

theorem NumberText.ne_nil {w : Bytes} (h : NumberText w) : w ≠ [] := by
  rintro rfl
  exact absurd h.start (by decide)

/-- A number has no NUL in it. -/
theorem NumberText.ne_zero {w : Bytes} (h : NumberText w) : ∀ b ∈ w, b ≠ 0 := by
  cases w with
  | nil => exact fun _ hb => absurd hb List.not_mem_nil
  | cons c cs =>
    refine List.forall_mem_cons.mpr ⟨?_, fun b hb => isalnum_ne_zero b (h.cont b hb)⟩
    rcases startsNumber_iff.mp h.start with hd | ⟨hc, -⟩
    · exact (isdigit_cases c hd).1
    · rcases hc with rfl | rfl
      · decide
      · decide

theorem startsNumber_append {w : Bytes} (h : startsNumber w = true) (q : Bytes) :
    startsNumber (w ++ q) = true := by
  cases w with
  | nil => exact absurd h (by decide)
  | cons c cs =>
    rw [List.cons_append, startsNumber_iff]
    refine (startsNumber_iff.mp h).imp_right fun hsign => ⟨hsign.1, ?_⟩
    cases cs with
    | nil => exact absurd hsign.2 (by decide)
    | cons d ds => exact hsign.2

/-- The scanning loop takes the rest of a number, whether it starts behind its first character or,
at a digit, on it. -/
theorem scanNumber_cons {c : Byte} {cs : Bytes} (h : startsNumber (c :: cs) = true) :
    scanNumber (c :: cs) = scanWhile isalnum cs [c] := by
  rw [scanNumber_eq]
  by_cases hsign : deref (c :: cs) = ch '-' ∨ deref (c :: cs) = ch '+'
  · rw [if_pos hsign]
    rfl
  · have hd : isdigit c = true :=
      (startsNumber_iff.mp h).resolve_right fun hc => hsign hc.1
    obtain ⟨hzero, halnum⟩ := isdigit_cases c hd
    rw [if_neg hsign, scanWhile, if_pos ⟨hzero, halnum, by decide⟩, List.nil_append]

/-- **The number branch reads a number**, and only a full buffer stops it inside. -/
theorem scanNumber_iff {p w q : Bytes} :
    startsNumber p = true ∧ scanNumber p = (q, w) ↔
      p = w ++ q ∧ NumberText w ∧ (isalnum (deref q) = true → w.length = maxTokenLen) := by
  have hlen : ∀ (c : Byte) (cs : Bytes), 1 + cs.length = (c :: cs).length :=
    fun _ _ => Nat.add_comm _ _
  constructor
  · rintro ⟨hstart, h⟩
    cases p with
    | nil => exact absurd hstart (by decide)
    | cons c cs =>
      rw [scanNumber_cons hstart] at h
      obtain ⟨w, rfl, rfl, hw⟩ := consumes_of_scanWhile [c] (show 1 ≤ maxTokenLen by decide) h
      refine ⟨rfl, ⟨?_, fun b hb => (hw.all b hb).2, hlen c w ▸ hw.room⟩, fun hq => ?_⟩
      · rw [List.singleton_append, startsNumber_iff]
        refine (startsNumber_iff.mp hstart).imp_right fun hsign => ⟨hsign.1, ?_⟩
        -- The sign stands before a digit, which is scanned with it.
        obtain ⟨hzero, halnum⟩ := isdigit_cases _ hsign.2
        have hne : w ≠ [] := hw.ne_nil (show 1 < maxTokenLen by decide) hzero halnum
        cases w with
        | nil => exact absurd rfl hne
        | cons d ds => exact hsign.2
      · exact hlen c w ▸ hw.stop (isalnum_ne_zero _ hq) hq
  · rintro ⟨rfl, hw, hq⟩
    cases w with
    | nil => exact absurd rfl hw.ne_nil
    | cons c cs =>
      have hstart : startsNumber (c :: (cs ++ q)) = true := startsNumber_append hw.start q
      have hcs : Consumes isalnum [c].length cs q :=
        ⟨fun b hb => ⟨isalnum_ne_zero b (hw.cont b hb), hw.cont b hb⟩, hlen c cs ▸ hw.length,
          fun _ hc => hlen c cs ▸ hq hc⟩
      refine ⟨hstart, ?_⟩
      rw [List.cons_append, scanNumber_cons hstart]
      exact hcs.scanWhile [c]

/-! ## Strings

A literal is described by what it denotes (`Denotes`), one constructor for a plain byte and one for
an escape, and the loop is followed along a derivation. -/

/-- The string loop reads the body up to the closing quote, if the buffer has room. -/
theorem scanString_denotes {body s : Bytes} (h : Denotes body s) (rest : Bytes) :
    ∀ buf : Bytes, buf.length ≤ maxTokenLen → scanString (body ++ quote :: rest) buf =
      if buf.length + s.length ≤ maxTokenLen then some (quote :: rest, buf ++ s) else none := by
  induction h with
  | nil =>
    intro buf hbuf
    rw [List.length_nil, Nat.add_zero, if_pos hbuf, List.append_nil]
    cases rest with
    | nil => rfl
    | cons c cs => rfl
  | @char c body s hzero hquote hback hrest ih =>
    intro buf hbuf
    have hstop : ¬ (c = 0 ∨ c = quote) := not_or.mpr ⟨hzero, hquote⟩
    -- A quote at least follows.
    obtain ⟨d, ds, hd⟩ : ∃ d ds, body ++ quote :: rest = d :: ds :=
      List.exists_cons_of_ne_nil (by simp)
    have hlen : (buf ++ [c]).length = buf.length + 1 := by simp
    rw [List.cons_append, hd, scanString, if_neg hstop, ← hd, List.length_cons]
    by_cases hfull : maxTokenLen ≤ buf.length
    · rw [if_pos hfull, if_neg (by omega)]
    · rw [if_neg hfull, if_neg (fun h => hback h.1), ih (buf ++ [c]) (by omega), hlen,
        List.append_assoc, List.singleton_append]
      have hsum : buf.length + 1 + s.length = buf.length + (s.length + 1) := by omega
      rw [hsum]
  | @escape e body s hzero hrest ih =>
    intro buf hbuf
    have hstop : ¬ (backslash = 0 ∨ backslash = quote) := by decide
    have hlen : (buf ++ [escapeChar e]).length = buf.length + 1 := by simp
    rw [List.cons_append, List.cons_append, scanString, if_neg hstop, List.length_cons]
    by_cases hfull : maxTokenLen ≤ buf.length
    · rw [if_pos hfull, if_neg (by omega)]
    · rw [if_neg hfull, if_pos ⟨rfl, hzero⟩, ih (buf ++ [escapeChar e]) (by omega), hlen,
        List.append_assoc, List.singleton_append]
      have hsum : buf.length + 1 + s.length = buf.length + (s.length + 1) := by omega
      rw [hsum]

/-- The string loop comes to a quote only behind a literal. -/
theorem denotes_of_scanString : ∀ {p buf rest out : Bytes}, buf.length ≤ maxTokenLen →
    scanString p buf = some (quote :: rest, out) →
    ∃ body s, p = body ++ quote :: rest ∧ Denotes body s ∧ buf.length + s.length ≤ maxTokenLen
  | [], _, _, _, _, h => by
    obtain ⟨habs, -⟩ := Prod.mk.inj (Option.some.inj h)
    cases habs
  | [c], buf, rest, out, hbuf, h => by
    rw [scanString] at h
    split at h
    · obtain ⟨hc, -⟩ := Prod.mk.inj (Option.some.inj h)
      exact ⟨[], [], hc, .nil, hbuf⟩
    split at h
    · cases h
    · obtain ⟨habs, -⟩ := Prod.mk.inj (Option.some.inj h)
      cases habs
  | c :: esc :: cs, buf, rest, out, hbuf, h => by
    rw [scanString] at h
    split at h
    · obtain ⟨hc, -⟩ := Prod.mk.inj (Option.some.inj h)
      exact ⟨[], [], hc, .nil, hbuf⟩
    rename_i hstop
    obtain ⟨hzero, hquote⟩ := not_or.mp hstop
    split at h
    · cases h
    rename_i hfull
    have hlen : ∀ b : Byte, (buf ++ [b]).length = buf.length + 1 := fun b => by
      rw [List.length_append, List.length_singleton]
    split at h
    · rename_i hesc
      obtain ⟨body, s, rfl, hden, hsum⟩ :=
        denotes_of_scanString (by rw [hlen]; omega) h
      rw [hlen] at hsum
      refine ⟨c :: esc :: body, escapeChar esc :: s, rfl, ?_, by rw [List.length_cons]; omega⟩
      rw [hesc.1]
      exact .escape hesc.2 hden
    · rename_i hesc
      obtain ⟨body, s, hp, hden, hsum⟩ := denotes_of_scanString (by rw [hlen]; omega) h
      rw [hlen] at hsum
      refine ⟨c :: body, c :: s, congrArg (c :: ·) hp, ?_, by rw [List.length_cons]; omega⟩
      refine .char hzero hquote (fun hback => ?_) hden
      -- A backslash that escapes nothing is the last character before a NUL.
      have hnul : esc = 0 := by
        by_contra hne
        exact hesc ⟨hback, hne⟩
      subst hnul
      cases hden with
      | nil => cases hp
      | char hz => exact hz (List.cons.inj hp).1.symm
      | escape => exact absurd (List.cons.inj hp).1 (by decide)

/-- **The string branch reads a literal** that is closed and fits the buffer. -/
theorem scanString_iff {p text q : Bytes} : scanString p [] = some (quote :: q, text) ↔
    ∃ body, p = body ++ quote :: q ∧ Denotes body text ∧ text.length ≤ maxTokenLen := by
  have hfits : ∀ {body s : Bytes}, Denotes body s → s.length ≤ maxTokenLen →
      scanString (body ++ quote :: q) [] = some (quote :: q, s) := by
    intro body s hden hlen
    rw [scanString_denotes hden q [] (Nat.zero_le _), List.length_nil, Nat.zero_add, if_pos hlen,
      List.nil_append]
  constructor
  · intro h
    obtain ⟨body, s, rfl, hden, hlen⟩ := denotes_of_scanString (Nat.zero_le _) h
    rw [List.length_nil, Nat.zero_add] at hlen
    obtain ⟨-, rfl⟩ := Prod.mk.inj (Option.some.inj ((hfits hden hlen).symm.trans h))
    exact ⟨body, rfl, hden, hlen⟩
  · rintro ⟨body, rfl, hden, hlen⟩
    exact hfits hden hlen

end Proof
end EduCpu16
