import EduCpu16.Checked.Lexer
import EduCpu16.Proof.Turns

/-!
# The lexer stays inside its arrays

Every access of `lex_line` is in bounds, its loops end, and it leaves what `Assembler/Lexer.lean`
says it leaves (`checked_lexLine`). So the list model, on which everything else is built, is not
only a simpler reading of the source: it is what the indexed program computes, and that program does
not go wrong on any line.

The two are tied as follows. The index `p` stands for the suffix of the line from it on, and the
cells of `buf` before `n` for the bytes read so far (`written`). The scanning loops all have one
shape, so `checked_scanWhile` treats them together, over the function of the list model that takes
the same characters. A turn of the main loop is a `turn` of the list model (`mainBody_turn`), and
`Lexing` is the invariant that carries the turns to the whole line.
-/

namespace EduCpu16
namespace Proof

open CLib CheckedC Checked

/-! ## Reading the line

The NUL at the end is what keeps the pointer inside: it is in no class of characters, so whoever has
seen a byte that is may go on by one. -/

section Line

variable {line : CStr} {p : Nat}

theorem read_ends (hp : p ≤ line.bytes.length) :
    Ends (line.read p) (· = deref (line.suffix p)) :=
  ⟨_, line.read_of_le hp, rfl⟩

theorem lt_of_deref_ne (h : deref (line.suffix p) ≠ 0) : p < line.bytes.length :=
  CStr.lt_of_head_ne h

/-- The byte behind one that is not the NUL. -/
theorem read_next (h : deref (line.suffix p) ≠ 0) :
    Ends (line.read (p + 1)) (· = deref (line.suffix (p + 1))) :=
  read_ends (lt_of_deref_ne h)

theorem suffix_cons (h : deref (line.suffix p) ≠ 0) :
    line.suffix p = deref (line.suffix p) :: line.suffix (p + 1) := by
  rw [line.suffix_succ]
  cases hs : line.suffix p with
  | nil => exact absurd (by rw [hs]; rfl) h
  | cons c cs => rfl

theorem suffix_length (line : CStr) (p : Nat) :
    (line.suffix p).length = line.bytes.length - p := List.length_drop

/-- The next suffix is shorter. -/
theorem suffix_succ_length (h : p < line.bytes.length) :
    (line.suffix (p + 1)).length < (line.suffix p).length := by
  rw [suffix_length, suffix_length]
  omega

end Line

/-- What a scanning loop has read. -/
def written (s : Scan) : Bytes := s.buf.toList.take s.n

/-- Inside the line, with room for one more byte and the NUL. It is what each of the scanning loops
needs at its start and keeps. -/
structure InBounds (line : CStr) (s : Scan) : Prop where
  pointer : s.p ≤ line.bytes.length
  room : s.n ≤ maxTokenLen

theorem written_length {s : Scan} (h : s.n ≤ maxTokenLen) : (written s).length = s.n := by
  have hsize : s.buf.toList.length = maxTokenLen + 2 := Vector.length_toList
  rw [written, List.length_take, hsize]
  omega

section Loops

variable {line : CStr} {fuel : Nat}

/-- The fuel is enough for what is left of the line. -/
theorem suffix_lt_fuel (hfuel : line.bytes.length < fuel) (p : Nat) :
    (line.suffix p).length < fuel := by
  rw [suffix_length]
  omega

theorem checked_skipSeparators (hfuel : line.bytes.length < fuel) {p : Nat}
    (hp : p ≤ line.bytes.length) :
    Ends (Checked.skipSeparators line fuel p) fun q => q ≤ line.bytes.length ∧
      line.suffix q = EduCpu16.skipSeparators (line.suffix p) := by
  refine loop_ends (fun q => q ≤ line.bytes.length ∧
    EduCpu16.skipSeparators (line.suffix q) = EduCpu16.skipSeparators (line.suffix p))
    (fun q => (line.suffix q).length) ?_ ⟨hp, rfl⟩ (suffix_lt_fuel hfuel p)
  rintro q ⟨hq, hsame⟩
  apply (read_ends hq).bind
  rintro _ rfl
  split
  · rename_i hsep
    rw [suffix_cons hsep.1, EduCpu16.skipSeparators, if_pos hsep] at hsame
    have hlt := lt_of_deref_ne hsep.1
    exact Ends.pure ⟨⟨hlt, hsame⟩, suffix_succ_length hlt⟩
  · rename_i hsep
    apply Ends.pure
    refine ⟨hq, hsame ▸ ?_⟩
    cases hs : line.suffix q with
    | nil => rfl
    | cons c cs =>
      rw [hs] at hsep
      exact (if_neg hsep).symm

/-! ## The scanning loops

A scanning loop stops at the NUL, at a character of another class, or when the buffer is full. The
first keeps `p` inside the line and the last keeps `n` inside the buffer (`InBounds`); each turn
shortens the suffix, which is the measure. -/

/-- One more byte. -/
theorem take_ends {s : Scan} (hzero : deref (line.suffix s.p) ≠ 0) (hn : s.n ≤ maxTokenLen) :
    Ends (Checked.take line s) fun s' => s'.p = s.p + 1 ∧ s'.n = s.n + 1 ∧
      written s' = written s ++ [deref (line.suffix s.p)] := by
  have hroom : s.n < maxTokenLen + 2 := by omega
  apply (read_ends (Nat.le_of_lt (lt_of_deref_ne hzero))).bind
  rintro _ rfl
  rw [assign_of_lt hroom]
  exact Ends.pure ⟨rfl, rfl, prefix_assign hroom _ _⟩

/-- A loop that takes characters as long as `R` does. -/
theorem checked_scanWhile (hfuel : line.bytes.length < fuel) {cls : Nat → Byte → Bool}
    {R : Bytes → Bytes → Bytes × Bytes}
    (hR : ∀ p buf, R p buf = if deref p ≠ 0 ∧ cls buf.length (deref p) = true ∧
      buf.length < maxTokenLen then R p.tail (buf ++ [deref p]) else (p, buf))
    {s : Scan} (hs : InBounds line s) :
    Ends (Checked.scanWhile line fuel cls s) fun s' => InBounds line s' ∧
      (line.suffix s'.p, written s') = R (line.suffix s.p) (written s) := by
  refine loop_ends (fun s' => InBounds line s' ∧
    R (line.suffix s'.p) (written s') = R (line.suffix s.p) (written s))
    (fun s' => (line.suffix s'.p).length) ?_ ⟨hs, rfl⟩ (suffix_lt_fuel hfuel s.p)
  rintro s' ⟨hin, hsame⟩
  have hlen := written_length hin.room
  rw [hR, hlen] at hsame
  apply (read_ends hin.pointer).bind
  rintro _ rfl
  split
  · rename_i hgo
    split
    · rename_i hfull
      rw [if_neg fun h => Nat.not_lt.mpr hfull h.2.2] at hsame
      exact Ends.pure ⟨hin, hsame⟩
    · rename_i hroom
      have hlt := Nat.not_le.mp hroom
      rw [if_pos ⟨hgo.1, hgo.2, hlt⟩] at hsame
      apply (take_ends hgo.1 hin.room).bind
      rintro t ⟨hp, hn, hwritten⟩
      have hnext := lt_of_deref_ne hgo.1
      have hshort := suffix_succ_length hnext
      have hin' : InBounds line t := ⟨hp.trans_le hnext, hn.trans_le hlt⟩
      rw [← line.suffix_succ, ← hwritten, ← hp] at hsame
      rw [← hp] at hshort
      exact Ends.pure ⟨⟨hin', hsame⟩, hshort⟩
  · rename_i hstop
    rw [if_neg fun h => hstop ⟨h.1, h.2.1⟩] at hsame
    exact Ends.pure ⟨hin, hsame⟩

theorem scanWhile_eq (cls : Byte → Bool) (p buf : Bytes) : EduCpu16.scanWhile cls p buf =
    if deref p ≠ 0 ∧ cls (deref p) = true ∧ buf.length < maxTokenLen then
      EduCpu16.scanWhile cls p.tail (buf ++ [deref p])
    else (p, buf) := by
  cases p with
  | nil => exact (if_neg fun h => h.1 rfl).symm
  | cons c cs => rw [EduCpu16.scanWhile]; rfl

/-- An identifier from the byte after those in `buf`. -/
def scanIdentFrom (p buf : Bytes) : Bytes × Bytes :=
  if buf = [] then EduCpu16.scanIdent p else EduCpu16.scanWhile isIdentCont p buf

theorem scanIdentFrom_eq (p buf : Bytes) : scanIdentFrom p buf =
    if deref p ≠ 0 ∧ (isIdentCont (deref p) || (buf.length = 0 && deref p = ch '.')) = true ∧
      buf.length < maxTokenLen then scanIdentFrom p.tail (buf ++ [deref p]) else (p, buf) := by
  have hnext : scanIdentFrom p.tail (buf ++ [deref p]) =
      EduCpu16.scanWhile isIdentCont p.tail (buf ++ [deref p]) := if_neg (by simp)
  rw [hnext, scanIdentFrom]
  cases buf with
  | cons b bs =>
    rw [if_neg (List.cons_ne_nil b bs), scanWhile_eq]
    simp
  | nil =>
    rw [if_pos rfl, EduCpu16.scanIdent]
    by_cases hdot : deref p = ch '.'
    · have hzero : deref p ≠ 0 := by
        rw [hdot]
        decide
      rw [if_pos hdot, if_pos ⟨hzero, by simp [hdot], by decide⟩, hdot]
      rfl
    · rw [if_neg hdot, scanWhile_eq]
      simp [hdot]

theorem checked_scanIdent (hfuel : line.bytes.length < fuel) {p : Nat}
    (hp : p ≤ line.bytes.length) (buf : Buf) :
    Ends (Checked.scanIdent line fuel ⟨p, 0, buf⟩) fun s => InBounds line s ∧
      (line.suffix s.p, written s) = EduCpu16.scanIdent (line.suffix p) := by
  have hstart : InBounds line ⟨p, 0, buf⟩ := ⟨hp, Nat.zero_le _⟩
  rw [Checked.scanIdent]
  refine checked_scanWhile (R := scanIdentFrom) hfuel ?_ hstart
  exact scanIdentFrom_eq

/-! ## Strings

A literal has escapes, so one round of its loop may read two bytes. The backslash in front of the
NUL is the case to look at. -/

/-- The character of a literal at a position, and what is behind it. -/
def charAt (p : Bytes) : Byte × Bytes :=
  if deref p = backslash ∧ deref p.tail ≠ 0 then (escapeChar (deref p.tail), p.tail.tail)
  else (deref p, p.tail)

theorem scanString_eq (p buf : Bytes) : EduCpu16.scanString p buf =
    if deref p = 0 ∨ deref p = quote then some (p, buf)
    else if maxTokenLen ≤ buf.length then none
    else EduCpu16.scanString (charAt p).2 (buf ++ [(charAt p).1]) := by
  match p with
  | [] => exact (if_pos (.inl rfl)).symm
  | [c] =>
    have hchar : charAt [c] = (c, []) := if_neg fun h => h.2 rfl
    rw [EduCpu16.scanString, hchar]
    rfl
  | c :: esc :: cs =>
    rw [EduCpu16.scanString]
    by_cases hesc : c = backslash ∧ esc ≠ 0
    · have hchar : charAt (c :: esc :: cs) = (escapeChar esc, cs) := if_pos hesc
      rw [if_pos hesc, hchar]
      rfl
    · have hchar : charAt (c :: esc :: cs) = (c, esc :: cs) := if_neg hesc
      rw [if_neg hesc, hchar]
      rfl

theorem stringChar_ends {p : Nat} (hzero : deref (line.suffix p) ≠ 0) :
    Ends (stringChar line p) fun r => r.2 ≤ line.bytes.length ∧
      (r.1, line.suffix r.2) = charAt (line.suffix p) ∧
      (line.suffix r.2).length < (line.suffix p).length := by
  have hlt := lt_of_deref_ne hzero
  have hshort := suffix_succ_length hlt
  apply (read_ends (Nat.le_of_lt hlt)).bind
  rintro _ rfl
  rw [charAt, ← line.suffix_succ, ← line.suffix_succ]
  split
  · rename_i hback
    apply (read_next hzero).bind
    rintro _ rfl
    split
    · rename_i hesc
      have hlt' := lt_of_deref_ne hesc
      rw [if_pos ⟨hback, hesc⟩]
      exact Ends.pure ⟨hlt', rfl, Nat.lt_trans (suffix_succ_length hlt') hshort⟩
    · rename_i hesc
      rw [if_neg fun h => hesc h.2]
      exact Ends.pure ⟨hlt, rfl, hshort⟩
  · rename_i hback
    rw [if_neg fun h => hback h.1]
    exact Ends.pure ⟨hlt, rfl, hshort⟩

theorem checked_scanString (hfuel : line.bytes.length < fuel) {s : Scan} (hs : InBounds line s) :
    Ends (Checked.scanString line fuel s) fun r => (∀ s' ∈ r, InBounds line s') ∧
      r.map (fun s' => (line.suffix s'.p, written s')) =
        EduCpu16.scanString (line.suffix s.p) (written s) := by
  refine loop_ends (fun s' => InBounds line s' ∧
    EduCpu16.scanString (line.suffix s'.p) (written s') =
      EduCpu16.scanString (line.suffix s.p) (written s))
    (fun s' => (line.suffix s'.p).length) ?_ ⟨hs, rfl⟩ (suffix_lt_fuel hfuel s.p)
  rintro s' ⟨hin, hsame⟩
  rw [scanString_eq, written_length hin.room] at hsame
  apply (read_ends hin.pointer).bind
  rintro _ rfl
  split
  · rename_i hend
    rw [if_pos hend] at hsame
    refine Ends.pure ⟨fun t ht => ?_, hsame⟩
    obtain rfl := Option.some.inj ht
    exact hin
  · rename_i hend
    rw [if_neg hend] at hsame
    apply (stringChar_ends fun h => hend (.inl h)).bind
    rintro ⟨c, q⟩ ⟨hq, hchar, hshort⟩
    simp only
    split
    · rename_i hfull
      rw [if_pos hfull] at hsame
      exact Ends.pure ⟨fun t ht => absurd ht (Option.not_mem_none t), hsame⟩
    · rename_i hroom
      have hlt := Nat.not_le.mp hroom
      have hcell : s'.n < maxTokenLen + 2 := by omega
      rw [if_neg hroom, ← hchar, written, ← prefix_assign hcell] at hsame
      rw [assign_of_lt hcell]
      exact Ends.pure ⟨⟨⟨hq, hlt⟩, hsame⟩, hshort⟩

/-! ## Numbers

The sign and the mark are stored before the scanning loop starts, so the loop has at most three
bytes less room. -/

theorem sign_ne_zero : ∀ c : Byte, c = ch '-' ∨ c = ch '+' → c ≠ 0 := by decide

theorem checked_startsNumber {p : Nat} (hp : p ≤ line.bytes.length) :
    Ends (Checked.startsNumber line p) (· = EduCpu16.startsNumber (line.suffix p)) := by
  apply (read_ends hp).bind
  rintro _ rfl
  rw [EduCpu16.startsNumber, ← line.suffix_succ]
  split
  · rename_i hdigit
    apply Ends.pure
    rw [hdigit]
    rfl
  split
  · rename_i hdigit hsign
    have hzero := sign_ne_zero _ hsign
    apply (read_next hzero).bind
    rintro _ rfl
    apply Ends.pure
    have hminus : isdigit (ch '-') = false ∧ ch '-' ≠ ch '+' := by decide
    have hplus : isdigit (ch '+') = false ∧ ch '+' ≠ ch '-' := by decide
    rcases hsign with h | h
    · simp [h, hminus.1, hminus.2]
    · simp [h, hplus.1, hplus.2]
  · rename_i hdigit hsign
    rw [not_or] at hsign
    apply Ends.pure
    simp [hdigit, hsign.1, hsign.2]

/-- The sign is one byte of the buffer. -/
theorem scanSign_ends {s : Scan} (hp : s.p ≤ line.bytes.length) (hn : s.n = 0) :
    Ends (scanSign line s) fun s' => s'.p ≤ line.bytes.length ∧ s'.n ≤ 1 ∧
      (line.suffix s'.p, written s') =
        if deref (line.suffix s.p) = ch '-' ∨ deref (line.suffix s.p) = ch '+' then
          ((line.suffix s.p).tail, written s ++ [deref (line.suffix s.p)])
        else (line.suffix s.p, written s) := by
  apply (read_ends hp).bind
  rintro _ rfl
  split
  · rename_i hsign
    have hzero := sign_ne_zero _ hsign
    apply (take_ends hzero (by omega)).imp
    rintro s' ⟨hp', hn', hwritten⟩
    refine ⟨hp'.trans_le (lt_of_deref_ne hzero), by omega, ?_⟩
    rw [hp', hwritten, line.suffix_succ]
  · exact Ends.pure ⟨hp, by omega, rfl⟩

/-- And the mark two more. -/
theorem scanBase_ends {s : Scan} (hp : s.p ≤ line.bytes.length) (hn : s.n ≤ 1) :
    Ends (scanBase line s) fun s' => InBounds line s' ∧
      let p := line.suffix s.p
      (line.suffix s'.p, written s') =
        if deref p = ch '0' ∧ (deref p.tail = ch 'x' ∨ deref p.tail = ch 'X' ∨
            deref p.tail = ch 'b' ∨ deref p.tail = ch 'B') then
          (p.tail.tail, written s ++ [deref p, deref p.tail])
        else (p, written s) := by
  have hmax : maxTokenLen = 127 := rfl
  have hin : InBounds line s := ⟨hp, by omega⟩
  simp only [← line.suffix_succ]
  apply (read_ends hp).bind
  rintro _ rfl
  split
  · rename_i hzero
    have hne : deref (line.suffix s.p) ≠ 0 := by
      rw [hzero]
      decide
    apply (read_next hne).bind
    rintro _ rfl
    split
    · rename_i hmark
      have hletter : ∀ c : Byte, c = ch 'x' ∨ c = ch 'X' ∨ c = ch 'b' ∨ c = ch 'B' → c ≠ 0 := by
        decide
      have hne' := hletter _ hmark
      rw [if_pos ⟨hzero, hmark⟩]
      apply (take_ends hne hin.room).bind
      rintro t ⟨htp, htn, htw⟩
      rw [← htp] at hne' ⊢
      apply (take_ends hne' (by omega)).imp
      rintro u ⟨hup, hun, huw⟩
      refine ⟨⟨hup.trans_le (lt_of_deref_ne hne'), by omega⟩, ?_⟩
      rw [hup, huw, htw, List.append_assoc]
      rfl
    · rename_i hmark
      rw [if_neg fun h => hmark h.2]
      exact Ends.pure ⟨hin, rfl⟩
  · rename_i hzero
    rw [if_neg fun h => hzero h.1]
    exact Ends.pure ⟨hin, rfl⟩

theorem checked_scanNumber (hfuel : line.bytes.length < fuel) {p : Nat}
    (hp : p ≤ line.bytes.length) (buf : Buf) :
    Ends (Checked.scanNumber line fuel ⟨p, 0, buf⟩) fun s => InBounds line s ∧
      (line.suffix s.p, written s) = EduCpu16.scanNumber (line.suffix p) := by
  have hnone : written ⟨p, 0, buf⟩ = [] := rfl
  apply (scanSign_ends hp rfl).bind
  rintro s ⟨hsp, hsn, hsign⟩
  apply (scanBase_ends hsp hsn).bind
  rintro t ⟨ht, hbase⟩
  refine (checked_scanWhile (R := EduCpu16.scanWhile isalnum) hfuel (scanWhile_eq isalnum) ht).imp
    fun u hu => ⟨hu.1, ?_⟩
  rw [hnone, List.nil_append] at hsign
  rw [hu.2, EduCpu16.scanNumber, ← hsign]
  simp only [← hbase]

end Loops

/-! ## Tokens

The array of tokens is filled from the front. A token is stored only where there is room for one,
with a NUL behind its text. -/

/-- A token line whose arrays hold strings. -/
structure InOrder (tl : RawTokenLine) : Prop where
  count : tl.count ≤ maxTokensPerLine
  ended : ∀ t ∈ tl.used, (0 : Byte) ∈ t.text.toList

theorem used_length {tl : RawTokenLine} (h : InOrder tl) : tl.used.length = tl.count := by
  rw [RawTokenLine.used, List.length_take, Vector.length_toList]
  exact Nat.min_eq_left h.count

theorem tokens_length {tl : RawTokenLine} (h : InOrder tl) :
    tl.tokenLine.tokens.length = tl.count := by
  rw [RawTokenLine.tokenLine, List.length_map, used_length h]

/-- One token more, of the string in `text`. -/
theorem pushToken_ends {tl : RawTokenLine} (h : InOrder tl) (kind : TokenKind) {text : Buf}
    {s : Bytes} {k : Nat} (hs : s.length ≤ maxTokenLen)
    (htext : text.toList.take k = s ++ [0]) (hcount : tl.count < maxTokensPerLine) :
    Ends (Checked.pushToken tl kind text) fun r => ∃ tl', r = some tl' ∧ InOrder tl' ∧
      tl'.lineNo = tl.lineNo ∧
      tl'.tokenLine.tokens = tl.tokenLine.tokens ++ [⟨kind, tokenText s⟩] := by
  have hmax : maxTokenLen = 127 := rfl
  obtain ⟨hmem, hcstr⟩ := cstr_of_prefix htext
  have hlen : (cstr s).length ≤ maxTokenLen :=
    Nat.le_trans (List.takeWhile_sublist _).length_le hs
  rw [Checked.pushToken, if_neg (Nat.not_le.mpr hcount), index_of_lt hcount, strlen_of_mem hmem,
    hcstr]
  show Ends (memcpy _ text (if _ then _ else _) >>= _) _
  rw [if_neg (Nat.not_lt.mpr hlen)]
  apply (memcpy_of_le (by omega) (by omega) _ text).bind
  intro copied hcopied
  rw [← hcstr] at hcopied
  have hcell : (cstr text.toList).length < maxTokenLen + 1 := by
    rw [hcstr]
    exact Nat.lt_succ_of_le hlen
  have hterminate := terminate_ends hcopied hcell
  rw [hcstr] at hterminate
  apply hterminate.bind
  rintro stored ⟨hmem', hcstr'⟩
  show Ends (assign tl.tokens tl.count ⟨kind, stored⟩ >>= _) _
  rw [assign_of_lt hcount]
  have hused := prefix_assign hcount tl.tokens ⟨kind, stored⟩
  apply Ends.pure
  refine ⟨_, rfl, ⟨hcount, ?_⟩, rfl, ?_⟩
  · intro t ht
    rw [RawTokenLine.used, hused] at ht
    rcases List.mem_append.mp ht with ht | ht
    · exact h.ended t ht
    · rw [List.mem_singleton.mp ht]
      exact hmem'
  · rw [RawTokenLine.tokenLine, RawTokenLine.tokenLine, RawTokenLine.used, hused,
      List.map_append, RawTokenLine.used, tokenText, List.take_of_length_le hlen, ← hcstr']
    rfl

/-! ## A turn

`TurnOf` relates what the body of the main loop does next to a turn of the list model. The token
array is full after sixteen tokens, and the check for that comes before the push, so a token line in
order stays in order. -/

/-- What the body of the main loop makes of a turn. -/
def TurnOf (line : CStr) (m : Main) : Turn → Next Main Result → Prop
  | .stop, next => next = .leave (m.out, none)
  | .fail msg, next => next = Checked.fail m.out msg
  | .token kind text rest, next =>
      if maxTokensPerLine ≤ m.out.count then next = Checked.fail m.out (ascii "too many tokens")
      else ∃ m', next = .again m' ∧ m'.p ≤ line.bytes.length ∧ line.suffix m'.p = rest ∧
        InOrder m'.out ∧ m'.out.lineNo = m.out.lineNo ∧
        m'.out.tokenLine.tokens = m.out.tokenLine.tokens ++ [⟨kind, tokenText text⟩]

/-- The NUL and the token. -/
theorem push_ends {line : CStr} {m : Main} (hout : InOrder m.out) {s : Scan}
    (hs : s.n ≤ maxTokenLen) {p : Nat} (hp : p ≤ line.bytes.length) (kind : TokenKind) :
    Ends (push s p kind m.out) (TurnOf line m (.token kind (written s) (line.suffix p))) := by
  have hcell : s.n < maxTokenLen + 2 := by omega
  have hprefix := prefix_assign hcell s.buf 0
  have hlen : (written s).length ≤ maxTokenLen := by
    rw [written_length hs]
    exact hs
  rw [push, assign_of_lt hcell]
  show Ends (Checked.pushToken m.out kind (s.buf.set s.n 0) >>= _) _
  by_cases hfull : maxTokensPerLine ≤ m.out.count
  · rw [Checked.pushToken, if_pos hfull]
    apply Ends.pure
    simp only [TurnOf, if_pos hfull]
  · apply (pushToken_ends hout kind hlen hprefix (Nat.not_le.mp hfull)).bind
    rintro _ ⟨out, rfl, hout', hline, htokens⟩
    apply Ends.pure
    simp only [TurnOf, if_neg hfull]
    exact ⟨_, rfl, hp, rfl, hout', hline, htokens⟩

theorem deref_skipSeparators {p : Bytes} (h : deref p = 0) :
    deref (EduCpu16.skipSeparators p) = 0 := by
  cases p with
  | nil => rfl
  | cons c cs =>
    have hc : c = 0 := h
    rw [EduCpu16.skipSeparators, if_neg fun hsep => hsep.1 hc]
    exact h

/-- **The body of the main loop takes a turn**, without a fault. -/
theorem mainBody_turn {line : CStr} {fuel : Nat} (hfuel : line.bytes.length < fuel) {m : Main}
    (hp : m.p ≤ line.bytes.length) (hout : InOrder m.out) :
    Ends (mainBody line fuel m) (TurnOf line m (turn (line.suffix m.p))) := by
  apply (read_ends hp).bind
  rintro _ rfl
  split
  · rename_i hzero
    rw [turn_stop_iff.mpr (.inl (deref_skipSeparators hzero))]
    exact Ends.pure rfl
  apply (checked_skipSeparators hfuel hp).bind
  rintro q ⟨hq, hskip⟩
  unfold turn
  rw [← hskip]
  simp only
  apply (read_ends hq).bind
  rintro _ rfl
  split
  · exact Ends.pure rfl
  rename_i hstop
  have hne : deref (line.suffix q) ≠ 0 := fun h => hstop (.inl h)
  split
  · -- A string literal.
    have hstart : InBounds line ⟨q + 1, 0, m.buf⟩ := ⟨lt_of_deref_ne hne, Nat.zero_le _⟩
    apply (checked_scanString hfuel hstart).bind
    rintro r ⟨hin, hscan⟩
    rw [← line.suffix_succ]
    have hnone : written ⟨q + 1, 0, m.buf⟩ = [] := rfl
    rw [hnone] at hscan
    rw [← hscan]
    cases r with
    | none => exact Ends.pure rfl
    | some s =>
      have hs := hin s rfl
      simp only [Option.map_some]
      apply (read_ends hs.pointer).bind
      rintro _ rfl
      split
      · exact Ends.pure rfl
      · rename_i hclose
        have hlt : s.p < line.bytes.length := by
          apply lt_of_deref_ne
          rw [not_not.mp hclose]
          decide
        rw [← line.suffix_succ]
        exact push_ends hout hs.room hlt .string
  · apply (checked_startsNumber hq).bind
    rintro _ rfl
    split
    · apply (checked_scanNumber hfuel hq m.buf).bind
      rintro s ⟨hs, hscan⟩
      rw [← hscan]
      exact push_ends hout hs.room hs.pointer .number
    split
    · apply (checked_scanIdent hfuel hq m.buf).bind
      rintro s ⟨hs, hscan⟩
      rw [← hscan]
      apply (read_ends hs.pointer).bind
      rintro _ rfl
      simp only
      split
      · -- The colon is in the line, so the pointer may go behind it.
        rename_i hcolon
        have hlt : s.p < line.bytes.length := by
          apply lt_of_deref_ne
          rw [hcolon]
          decide
        rw [← line.suffix_succ]
        exact push_ends hout hs.room hlt .label
      · exact push_ends hout hs.room hs.pointer _
    · exact Ends.pure rfl

/-- Before a turn: what is still to come, and what the list model makes of it. -/
structure Lexing (line : CStr) (lineNo : Nat) (target : List Token × Option Diag) (m : Main) :
    Prop where
  pointer : m.p ≤ line.bytes.length
  inOrder : InOrder m.out
  number : m.out.lineNo = lineNo
  rest : ∃ f, (line.suffix m.p).length < f ∧
    lexLoop lineNo f (line.suffix m.p) m.out.tokenLine.tokens = target

/-- **The lexer**: no fault, the loops end, and the arrays hold what the list model says. -/
theorem checked_lexLine {line : CStr} {fuel : Nat} (hfuel : line.bytes.length < fuel)
    (lineNo : Nat) (buf : Buf) (out : RawTokenLine) :
    Ends (Checked.lexLine line lineNo fuel buf out) fun r => InOrder r.1 ∧
      (r.1.tokenLine, r.2) = EduCpu16.lexLine line.bytes lineNo := by
  have hstart : Lexing line lineNo (lexLoop lineNo (line.bytes.length + 1) line.bytes [])
      ⟨0, buf, { out with count := 0, lineNo := lineNo }⟩ := by
    refine ⟨Nat.zero_le _, ⟨Nat.zero_le _, fun t ht => absurd ht List.not_mem_nil⟩, rfl, ?_⟩
    exact ⟨_, Nat.lt_succ_self _, rfl⟩
  have hloop : Ends (Checked.lexLine line lineNo fuel buf out) fun r => InOrder r.1 ∧
      r.1.lineNo = lineNo ∧ (r.1.tokenLine.tokens, r.2) =
        lexLoop lineNo (line.bytes.length + 1) line.bytes [] := by
    refine loop_ends (Lexing line lineNo _) (fun m => (line.suffix m.p).length) ?_ hstart
      (suffix_lt_fuel hfuel 0)
    rintro m ⟨hp, hout, hno, f, hf, hrest⟩
    apply (mainBody_turn hfuel hp hout).imp
    intro next hnext
    obtain ⟨f, rfl⟩ := Nat.exists_eq_add_of_lt (Nat.zero_lt_of_lt hf)
    rw [Nat.zero_add, lexLoop_succ, tokens_length hout] at hrest
    cases hturn : turn (line.suffix m.p) with
    | stop =>
      rw [hturn] at hnext hrest
      obtain rfl := hnext
      exact ⟨hout, hno, hrest⟩
    | fail msg =>
      rw [hturn] at hnext hrest
      obtain rfl := hnext
      exact ⟨hout, hno, hno ▸ hrest⟩
    | token kind text rest =>
      rw [hturn] at hnext hrest
      simp only [TurnOf] at hnext hrest
      have hshort := turn_length hturn
      by_cases hfull : maxTokensPerLine ≤ m.out.count
      · rw [if_pos hfull] at hnext hrest
        obtain rfl := hnext
        exact ⟨hout, hno, hno ▸ hrest⟩
      · rw [if_neg hfull] at hnext hrest
        obtain ⟨m', rfl, hp', rfl, hout', hno', htokens⟩ := hnext
        rw [← htokens] at hrest
        exact ⟨⟨hp', hout', hno'.trans hno, f, by omega, hrest⟩, hshort⟩
  apply hloop.imp
  rintro ⟨tl, err⟩ ⟨hin, hno, hsame⟩
  refine ⟨hin, ?_⟩
  rw [EduCpu16.lexLine, ← hsame, ← hno]
  rfl

end Proof
end EduCpu16
