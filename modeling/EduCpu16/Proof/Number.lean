import EduCpu16.Assembler.Parser
import EduCpu16.Proof.Turns
import EduCpu16.Source.Number

/-!
# Number tokens and their values

`parse_number` takes the sign and the mark of the base off and hands the rest to `strtol`, which
skips a second mark and saturates; the result is cut to 32 bits (`parseNumber_spells`). It reads a
literal exactly, or rejects it, unless the literal is marked twice or does not fit
(`number_exact_iff`).

Both exceptions are read off the text. A text is taken apart into sign, mark, a second mark if there
is one, and digits (`Marked`), and there is only one way to do it (`Marked.unique`), so its value is
that of its digits. The conversion is followed once for all three bases (`convert_iff`), and
numerals, doubly marked texts and the texts that are read at all are three cases of what it accepts.
-/

namespace EduCpu16
namespace Proof

open CLib Source

/-! ## What the lexer emits

`parse_number` is asked about number tokens only, and these have a sign, if any, in front of a
digit. So there is no blank for `strtol` to skip and no second sign to read. -/

theorem tokenText_number {w : Bytes} (hw : NumberText w) : tokenText w = w := by
  have hcstr : cstr w = w := cstr_of_not_mem fun hmem => hw.ne_zero 0 hmem rfl
  rw [tokenText, hcstr, List.take_of_length_le hw.length]

theorem lexLine_numberText (src : Bytes) (lineNo : Nat) :
    ∀ t ∈ (lexLine src lineNo).1.tokens, t.kind = .number → NumberText t.text := by
  refine lexLine_forall (fun hturn => ?_) src lineNo
  have hat := turn_token_iff.mp hturn
  generalize skipSeparators _ = p at hat
  intro hkind
  cases hat with
  | number hw =>
    rw [tokenText_number hw]
    exact hw
  | string | label => cases hkind
  | word hw =>
    rw [wordKind] at hkind
    split at hkind
    · cases hkind
    · cases hkind

/-- A number is a sign and letters and digits, the first of them a digit. -/
theorem NumberText.split {w : Bytes} (hw : NumberText w) : ∃ sign s p, (sign, s) ∈ signs ∧
    w = sign ++ p ∧ isdigit (deref p) = true ∧ ∀ c ∈ p, isalnum c = true := by
  cases w with
  | nil => exact absurd rfl hw.ne_nil
  | cons c cs =>
    rcases startsNumber_iff.mp hw.start with hd | ⟨hsign, hd⟩
    · have hall : ∀ b ∈ c :: cs, isalnum b = true :=
        List.forall_mem_cons.mpr ⟨(isdigit_cases c hd).2, hw.cont⟩
      exact ⟨[], 1, c :: cs, by decide, rfl, hd, hall⟩
    · rcases hsign with rfl | rfl
      · exact ⟨ascii "-", -1, cs, by decide, rfl, hd, hw.cont⟩
      · exact ⟨ascii "+", 1, cs, by decide, rfl, hd, hw.cont⟩

/-! ## The mark of the base

`0x` and `0b` are taken off here, and `strtol` is then told the base. With base 16 it takes a `0x`
of its own accord, and that is the second mark. -/

/-- The base and what is left behind the mark. -/
def markOf (p : Bytes) : Nat × Bytes :=
  if deref p = ch '0' ∧ (deref p.tail = ch 'x' ∨ deref p.tail = ch 'X') then (16, p.tail.tail)
  else if deref p = ch '0' ∧ (deref p.tail = ch 'b' ∨ deref p.tail = ch 'B') then
    (2, p.tail.tail)
  else (10, p)

theorem markOf_append {r : Radix} {mark q : Bytes} (hmark : mark ∈ r.marks)
    (hq : r = .decimal → isDigitIn 10 (deref q.tail) = true ∨ deref q.tail = 0) :
    markOf (mark ++ q) = (r.base, q) := by
  cases r with
  | decimal =>
    obtain rfl := List.mem_singleton.mp hmark
    have hnot : ∀ c : Byte, isDigitIn 10 c = true ∨ c = 0 →
        ¬ (c = ch 'x' ∨ c = ch 'X') ∧ ¬ (c = ch 'b' ∨ c = ch 'B') := by decide
    obtain ⟨hx, hb⟩ := hnot _ (hq rfl)
    rw [List.nil_append, markOf, if_neg fun h => hx h.2, if_neg fun h => hb h.2]
    rfl
  | hexadecimal =>
    rcases List.mem_cons.mp hmark with rfl | hmark
    · exact if_pos ⟨rfl, .inl rfl⟩
    · obtain rfl := List.mem_singleton.mp hmark
      exact if_pos ⟨rfl, .inr rfl⟩
  | binary =>
    have hx : ∀ c : Byte, c = ch 'b' ∨ c = ch 'B' → ¬ (c = ch 'x' ∨ c = ch 'X') := by decide
    rcases List.mem_cons.mp hmark with rfl | hmark
    · exact (if_neg fun h => hx _ (.inl rfl) h.2).trans (if_pos ⟨rfl, .inl rfl⟩)
    · obtain rfl := List.mem_singleton.mp hmark
      exact (if_neg fun h => hx _ (.inr rfl) h.2).trans (if_pos ⟨rfl, .inr rfl⟩)

theorem markOf_split (p : Bytes) : ∃ (r : Radix) (mark : Bytes),
    mark ∈ r.marks ∧ p = mark ++ (markOf p).2 ∧ (markOf p).1 = r.base := by
  -- A mark is two characters that are not NUL, so they are there.
  have hcons : ∀ d : Byte, d ≠ 0 → deref p = ch '0' → deref p.tail = d →
      p = [ch '0', d] ++ p.tail.tail := by
    intro d hd h0 h1
    obtain ⟨cs, rfl⟩ := exists_cons_of_deref h0 (by decide)
    rw [List.tail_cons] at h1
    obtain ⟨ds, rfl⟩ := exists_cons_of_deref h1 hd
    rfl
  rw [markOf]
  split
  · rename_i h
    rcases h.2 with hx | hx
    · exact ⟨.hexadecimal, ascii "0x", by decide, hcons _ (by decide) h.1 hx, rfl⟩
    · exact ⟨.hexadecimal, ascii "0X", by decide, hcons _ (by decide) h.1 hx, rfl⟩
  split
  · rename_i h
    rcases h.2 with hb | hb
    · exact ⟨.binary, ascii "0b", by decide, hcons _ (by decide) h.1 hb, rfl⟩
    · exact ⟨.binary, ascii "0B", by decide, hcons _ (by decide) h.1 hb, rfl⟩
  · exact ⟨.decimal, [], by decide, rfl, rfl⟩

/-! ## `parse_number`

Sign, mark and digits, in this order. Behind the mark `strtol` is called with the base, and for 16
it takes another mark by itself. -/

/-- What is left behind the sign. -/
def unsigned (tok : Bytes) : Bytes :=
  if deref tok = ch '-' ∨ deref tok = ch '+' then tok.tail else tok

/-- The conversion behind the sign: all of it has to be read. -/
def convert (s : Int) (p : Bytes) : Option I32 :=
  if (strtol (markOf p).2 (markOf p).1).2 = (markOf p).2 ∨
      (strtol (markOf p).2 (markOf p).1).2 ≠ [] then none
  else some (BitVec.ofInt 32 (s * (strtol (markOf p).2 (markOf p).1).1))

theorem parseNumber_eq (tok : Bytes) : parseNumber tok =
    if unsigned tok = [] then none
    else convert (if deref tok = ch '-' then -1 else 1) (unsigned tok) := by
  have hmul : ∀ v : Int, (if deref tok = ch '-' then -1 else 1) * v =
      if deref tok = ch '-' then -v else v := by
    intro v
    split
    · exact neg_one_mul v
    · exact one_mul v
  simp only [parseNumber, unsigned, convert, markOf, hmul]
  rfl

section Sign

variable {sign p : Bytes} {s : Int}

theorem sign_cases (hsign : (sign, s) ∈ signs) : s = 1 ∨ s = -1 := by
  simp only [signs, List.mem_cons, Prod.mk.injEq, List.not_mem_nil, or_false] at hsign
  omega

theorem unsigned_append (hsign : (sign, s) ∈ signs) (hp : isdigit (deref p) = true) :
    unsigned (sign ++ p) = p ∧ (if deref (sign ++ p) = ch '-' then (-1 : Int) else 1) = s := by
  have hdigit : ∀ c : Byte, isdigit c = true → c ≠ ch '-' ∧ ¬ (c = ch '-' ∨ c = ch '+') := by
    decide
  obtain ⟨hminus, hnone⟩ := hdigit _ hp
  simp only [signs, List.mem_cons, Prod.mk.injEq, List.not_mem_nil, or_false] at hsign
  rcases hsign with ⟨rfl, rfl⟩ | ⟨rfl, rfl⟩ | ⟨rfl, rfl⟩
  · exact ⟨if_neg hnone, if_neg hminus⟩
  · exact ⟨if_pos (.inr rfl), if_neg (show ch '+' ≠ ch '-' by decide)⟩
  · exact ⟨if_pos (.inl rfl), if_pos rfl⟩

theorem parseNumber_append (hsign : (sign, s) ∈ signs) (hp : isdigit (deref p) = true) :
    parseNumber (sign ++ p) = convert s p := by
  obtain ⟨hrest, hs⟩ := unsigned_append hsign hp
  have hne : p ≠ [] := by
    rintro rfl
    exact absurd hp (by decide)
  rw [parseNumber_eq, hrest, hs, if_neg hne]

end Sign

/-- Digits behind a mark, and perhaps behind another one. -/
structure Marked (p : Bytes) (r : Radix) (again ds : Bytes) : Prop where
  text : ∃ mark ∈ r.marks, p = mark ++ (again ++ ds)
  again : again = [] ∨ r = .hexadecimal ∧ again ∈ hexMarks
  digits : Digits r.base ds

theorem radix_eq_of_base {r r' : Radix} (h : r.base = r'.base) : r = r' := by
  cases r
  all_goals
    cases r'
    all_goals first | rfl | exact absurd h (by decide)

theorem isalnum_of_isDigitIn {r : Radix} {c : Byte} (h : isDigitIn r.base c = true) :
    isalnum c = true := by
  revert c
  cases r
  · exact (by decide : ∀ {c : Byte}, isDigitIn 10 c = true → isalnum c = true)
  · exact (by decide : ∀ {c : Byte}, isDigitIn 16 c = true → isalnum c = true)
  · exact (by decide : ∀ {c : Byte}, isDigitIn 2 c = true → isalnum c = true)

section Marked

variable {p again ds : Bytes} {r : Radix}

theorem Marked.markOf_eq (h : Marked p r again ds) : markOf p = (r.base, again ++ ds) := by
  obtain ⟨mark, hmark, rfl⟩ := h.text
  apply markOf_append hmark
  rintro rfl
  obtain rfl : again = [] := h.again.resolve_right fun hx => absurd hx.1 (by decide)
  have hall := h.digits.2
  match ds with
  | [] => exact .inr rfl
  | [_] => exact .inr rfl
  | _ :: d :: _ => exact .inl (hall d (List.mem_cons_of_mem _ List.mem_cons_self))

/-- A number starts with a digit and is letters and digits. -/
theorem Marked.alnum (h : Marked p r again ds) :
    isdigit (deref p) = true ∧ ∀ c ∈ p, isalnum c = true := by
  obtain ⟨mark, hmark, rfl⟩ := h.text
  have hmarks : ∀ r : Radix, ∀ m ∈ r.marks, (∀ c ∈ m, isalnum c = true) ∧
      (m = [] → r = .decimal) ∧ (m ≠ [] → isdigit (deref m) = true) := by
    intro r
    cases r
    all_goals decide
  have hagain : ∀ m ∈ hexMarks, ∀ c ∈ m, isalnum c = true := by decide
  obtain ⟨halnum, hnil, hfirst⟩ := hmarks r mark hmark
  have hds : ∀ c ∈ ds, isalnum c = true := fun c hc => isalnum_of_isDigitIn (h.digits.2 c hc)
  refine ⟨?_, List.forall_mem_append.mpr ⟨halnum, List.forall_mem_append.mpr ⟨?_, hds⟩⟩⟩
  · cases mark with
    | nil =>
      obtain rfl := hnil rfl
      obtain rfl : again = [] := h.again.resolve_right fun hx => absurd hx.1 (by decide)
      cases hcase : ds with
      | nil => exact absurd hcase h.digits.1
      | cons d ds' =>
        have hdec : ∀ c : Byte, isDigitIn 10 c = true → isdigit c = true := by decide
        exact hdec d (h.digits.2 d (hcase ▸ List.mem_cons_self))
    | cons m ms => exact hfirst (List.cons_ne_nil _ _)
  · rcases h.again with rfl | hx
    · exact fun _ hc => absurd hc List.not_mem_nil
    · exact hagain again hx.2

/-- **What the conversion reads**, and the value. -/
theorem convert_iff (hall : ∀ c ∈ p, isalnum c = true) {s : Int} {o : I32} :
    convert s p = some o ↔ ∃ r again ds, Marked p r again ds ∧
      o = BitVec.ofInt 32 (s * min LONG_MAX (positional r.base ds)) := by
  constructor
  · intro h
    obtain ⟨r, mark, hmark, hp, hbase⟩ := markOf_split p
    have hrest : ∀ c ∈ (markOf p).2, isalnum c = true := fun c hc =>
      hall c (hp ▸ List.mem_append_right _ hc)
    rw [convert] at h
    split at h
    · cases h
    · rename_i hstop
      obtain ⟨hmoved, hend⟩ := not_or.mp hstop
      rw [not_not] at hend
      -- `strtol` has moved on, so there is something behind the mark.
      have hne : (markOf p).2 ≠ [] := fun hnil => hmoved (hend.trans hnil.symm)
      have hread : strtol (markOf p).2 (markOf p).1 =
          ((strtol (markOf p).2 (markOf p).1).1, []) := Prod.ext rfl hend
      obtain ⟨again, ds, heq, hagain, hds, hv⟩ := (strtol_iff hrest hne).mp hread
      rw [hbase] at hagain hds hv
      refine ⟨r, again, ds, ⟨⟨mark, hmark, heq ▸ hp⟩, ?_, hds⟩, ?_⟩
      · exact hagain.imp_right fun hx => ⟨radix_eq_of_base hx.1, hx.2⟩
      · rw [← hv]
        rw [hbase] at h
        exact (Option.some.inj h).symm
  · rintro ⟨r, again, ds, h, rfl⟩
    have hmarkOf := h.markOf_eq
    have hne : again ++ ds ≠ [] := List.append_ne_nil_of_right_ne_nil _ h.digits.1
    have hrest : ∀ c ∈ again ++ ds, isalnum c = true := by
      obtain ⟨mark, -, rfl⟩ := h.text
      exact fun c hc => hall c (List.mem_append_right _ hc)
    have hstrtol : strtol (again ++ ds) r.base = (min LONG_MAX (positional r.base ds), []) := by
      refine (strtol_iff hrest hne).mpr ⟨again, ds, rfl, ?_, h.digits, rfl⟩
      refine h.again.imp_right fun hx => ⟨?_, hx.2⟩
      rw [hx.1]
      rfl
    rw [convert, hmarkOf, hstrtol, if_neg]
    rintro (hx | hx)
    · exact hne hx.symm
    · exact hx rfl

end Marked

/-! ## Exactness

A number is saturated to a `long` before it is cut to 32 bits. Cutting is no matter for what fits,
and saturation none for what is cut to something else anyway; so `FitsI32` is the only bound. -/

theorem numeral_iff {text : Bytes} {v : Int} : Numeral text v ↔
    ∃ sign s p r ds, (sign, s) ∈ signs ∧ text = sign ++ p ∧ Marked p r [] ds ∧
      v = s * positional r.base ds := by
  constructor
  · rintro ⟨hsign, hmark, hds⟩
    exact ⟨_, _, _, _, _, hsign, rfl, ⟨⟨_, hmark, rfl⟩, .inl rfl, hds⟩, rfl⟩
  · rintro ⟨sign, s, p, r, ds, hsign, rfl, hp, rfl⟩
    obtain ⟨mark, hmark, rfl⟩ := hp.text
    exact .mk hsign hmark hp.digits

theorem doublyMarked_iff {text : Bytes} : DoublyMarked text ↔
    ∃ sign s p r again ds, (sign, s) ∈ signs ∧ text = sign ++ p ∧ Marked p r again ds ∧
      again ≠ [] := by
  have hmarks : ∀ m ∈ hexMarks, m ≠ [] := by decide
  constructor
  · rintro ⟨sign, mark, again, ds, rfl, hsign, hmark, hagain, hds⟩
    obtain ⟨⟨sign, s⟩, hs, rfl⟩ := List.mem_map.mp hsign
    exact ⟨sign, s, _, .hexadecimal, again, ds, hs, rfl,
      ⟨⟨mark, hmark, rfl⟩, .inr ⟨rfl, hagain⟩, hds⟩, hmarks again hagain⟩
  · rintro ⟨sign, s, p, r, again, ds, hsign, rfl, hp, hne⟩
    obtain ⟨rfl, hagain⟩ := hp.again.resolve_left hne
    obtain ⟨mark, hmark, rfl⟩ := hp.text
    exact ⟨sign, mark, again, ds, rfl, List.mem_map.mpr ⟨_, hsign, rfl⟩, hmark, hagain, hp.digits⟩

/-- There is one way to take a number apart. -/
theorem Marked.unique {sign sign' p p' again again' ds ds' : Bytes} {s s' : Int} {r r' : Radix}
    (hsign : (sign, s) ∈ signs) (hp : Marked p r again ds) (hsign' : (sign', s') ∈ signs)
    (hp' : Marked p' r' again' ds') (h : sign ++ p = sign' ++ p') :
    s = s' ∧ r = r' ∧ again = again' ∧ ds = ds' := by
  obtain ⟨hrest, hs⟩ := unsigned_append hsign hp.alnum.1
  obtain ⟨hrest', hs'⟩ := unsigned_append hsign' hp'.alnum.1
  rw [h, hrest'] at hrest
  rw [h, hs'] at hs
  subst hrest hs
  have hmark := hp.markOf_eq
  rw [hp'.markOf_eq] at hmark
  obtain ⟨hbase, heq⟩ := Prod.mk.inj hmark
  obtain rfl := radix_eq_of_base hbase
  -- A second mark has a letter that is no digit.
  have hletter : ∀ {again ds ds' : Bytes}, again ∈ hexMarks → Digits 16 ds' →
      again ++ ds ≠ ds' := by
    rintro again ds ds' hagain hds' rfl
    have hmarks : ∀ m ∈ hexMarks, ¬ ∀ c ∈ m, isDigitIn 16 c = true := by decide
    exact hmarks again hagain fun c hc => hds'.2 c (List.mem_append_left _ hc)
  rcases hp.again with rfl | ⟨rfl, ha⟩
  · rcases hp'.again with rfl | ⟨rfl, ha'⟩
    · exact ⟨rfl, rfl, rfl, heq.symm⟩
    · exact absurd heq (hletter ha' hp.digits)
  · rcases hp'.again with rfl | ⟨-, ha'⟩
    · exact absurd heq.symm (hletter ha hp'.digits)
    · have hlen : ∀ m ∈ hexMarks, m.length = 2 := by decide
      obtain ⟨heq', hds⟩ := List.append_inj heq ((hlen _ ha').trans (hlen _ ha).symm)
      exact ⟨rfl, rfl, heq'.symm, hds.symm⟩

theorem numeral_unique {text : Bytes} {v v' : Int} (h : Numeral text v) (h' : Numeral text v') :
    v = v' := by
  obtain ⟨sign, s, p, r, ds, hsign, rfl, hp, rfl⟩ := numeral_iff.mp h
  obtain ⟨sign', s', p', r', ds', hsign', heq, hp', rfl⟩ := numeral_iff.mp h'
  obtain ⟨rfl, rfl, -, rfl⟩ := hp.unique hsign hsign' hp' heq
  rfl

theorem numeral_not_doublyMarked {text : Bytes} {v : Int} (h : Numeral text v) :
    ¬ DoublyMarked text := by
  intro hdouble
  obtain ⟨sign, s, p, r, ds, hsign, rfl, hp, rfl⟩ := numeral_iff.mp h
  obtain ⟨sign', s', p', r', again, ds', hsign', heq, hp', hne⟩ := doublyMarked_iff.mp hdouble
  obtain ⟨-, -, hnil, -⟩ := hp.unique hsign hsign' hp' heq
  exact hne hnil.symm

/-- Literals and doubly marked texts are read. -/
theorem parseNumber_marked {sign p again ds : Bytes} {s : Int} {r : Radix}
    (hsign : (sign, s) ∈ signs) (hp : Marked p r again ds) : parseNumber (sign ++ p) =
      some (BitVec.ofInt 32 (s * min LONG_MAX (positional r.base ds))) := by
  obtain ⟨hfirst, hall⟩ := hp.alnum
  rw [parseNumber_append hsign hfirst]
  exact (convert_iff hall).mpr ⟨r, again, ds, hp, rfl⟩

/-- The saturation of `strtol` is beyond what 32 bits hold. -/
theorem toInt_of_fits {s : Int} {sign : Bytes} (hsign : (sign, s) ∈ signs) {n : Nat}
    (hfits : FitsI32 (s * n)) : (BitVec.ofInt 32 (s * min LONG_MAX (n : Int))).toInt = s * n := by
  obtain ⟨hlow, hhigh⟩ := hfits
  have hmin : min LONG_MAX (n : Int) = n := by
    unfold LONG_MAX
    rcases sign_cases hsign with rfl | rfl
    · omega
    · omega
  rw [hmin, BitVec.toInt_ofInt, Int.bmod_def]
  omega

theorem spells_iff {text : Bytes} {v : Int} : Spells text v ↔
    ∃ sign s p r again ds, (sign, s) ∈ signs ∧ text = sign ++ p ∧ Marked p r again ds ∧
      v = s * positional r.base ds := by
  constructor
  · intro h
    cases h with
    | literal h =>
      obtain ⟨sign, s, p, r, ds, hsign, htext, hp, hv⟩ := numeral_iff.mp h
      exact ⟨sign, s, p, r, [], ds, hsign, htext, hp, hv⟩
    | again hsign hmark hagain hds =>
      exact ⟨_, _, _, .hexadecimal, _, _, hsign, rfl,
        ⟨⟨_, hmark, rfl⟩, .inr ⟨rfl, hagain⟩, hds⟩, rfl⟩
  · rintro ⟨sign, s, p, r, again, ds, hsign, rfl, hp, rfl⟩
    rcases hp.again with rfl | ⟨rfl, hagain⟩
    · exact .literal (numeral_iff.mpr ⟨sign, s, p, r, ds, hsign, rfl, hp, rfl⟩)
    · obtain ⟨mark, hmark, rfl⟩ := hp.text
      exact .again hsign hmark hagain hp.digits

/-- A number saturated by `strtol` and cut to 32 bits. -/
def cut (v : Int) : I32 := BitVec.ofInt 32 (max (-LONG_MAX) (min LONG_MAX v))

/-- The sign is put to the saturated number. -/
theorem saturate_sign {sign : Bytes} {s : Int} (hsign : (sign, s) ∈ signs) (n : Nat) :
    s * min LONG_MAX (n : Int) = max (-LONG_MAX) (min LONG_MAX (s * n)) := by
  unfold LONG_MAX
  rcases sign_cases hsign with rfl | rfl
  · omega
  · omega

/-- **What `parse_number` makes of a number token.** -/
theorem parseNumber_spells {text : Bytes} (hw : NumberText text) {o : I32} :
    parseNumber text = some o ↔ ∃ v, Spells text v ∧ o = cut v := by
  constructor
  · intro h
    obtain ⟨sign, s, p, hsign, rfl, hfirst, hall⟩ := hw.split
    rw [parseNumber_append hsign hfirst] at h
    obtain ⟨r, again, ds, hp, rfl⟩ := (convert_iff hall).mp h
    refine ⟨s * positional r.base ds, ?_, ?_⟩
    · exact spells_iff.mpr ⟨sign, s, p, r, again, ds, hsign, rfl, hp, rfl⟩
    · rw [cut, saturate_sign hsign]
  · rintro ⟨v, hv, rfl⟩
    obtain ⟨sign, s, p, r, again, ds, hsign, rfl, hp, rfl⟩ := spells_iff.mp hv
    rw [parseNumber_marked hsign hp, saturate_sign hsign, cut]

/-- `parse_number` answers true on the literals whose number fits, with that number. The second
field is about every text it accepts: it must have been a literal. -/
structure NumberExact (text : Bytes) : Prop where
  accepts : (parseNumber text).isSome = true ↔ ∃ v, Numeral text v ∧ FitsI32 v
  value : ∀ o, parseNumber text = some o → Numeral text o.toInt

/-- **When a number is read exactly or rejected**, for every number token of every line. A second
mark is read although it should not be, and a number beyond 32 bits is cut without a word; there is
no other way to go wrong. -/
theorem number_exact_iff (src : Bytes) (lineNo : Nat) (t : Token)
    (ht : t ∈ (lexLine src lineNo).1.tokens) (hkind : t.kind = .number) :
    NumberExact t.text ↔
      ¬ DoublyMarked t.text ∧ ∀ v, Numeral t.text v → FitsI32 v := by
  constructor
  · intro h
    constructor
    · intro hdouble
      obtain ⟨sign, s, p, r, again, ds, hsign, heq, hp, -⟩ := doublyMarked_iff.mp hdouble
      have hread := parseNumber_marked hsign hp
      rw [← heq] at hread
      exact numeral_not_doublyMarked (h.value _ hread) hdouble
    · intro v hv
      obtain ⟨sign, s, p, r, ds, hsign, heq, hp, -⟩ := numeral_iff.mp hv
      have hread := parseNumber_marked hsign hp
      rw [← heq] at hread
      obtain ⟨v', hv', hfits⟩ := h.accepts.mp (by rw [hread]; rfl)
      rwa [numeral_unique hv hv']
  · rintro ⟨hsingle, hfits⟩
    obtain ⟨sign, s, p, hsign, htext, hfirst, hall⟩ :=
      (lexLine_numberText src lineNo t ht hkind).split
    have hvalue : ∀ o, parseNumber t.text = some o → Numeral t.text o.toInt := by
      intro o ho
      rw [htext, parseNumber_append hsign hfirst] at ho
      obtain ⟨r, again, ds, hp, rfl⟩ := (convert_iff hall).mp ho
      -- `strtol` skips a mark by itself, so a second one would be read behind the first.
      have hnil : again = [] := by
        by_contra hne
        exact hsingle (doublyMarked_iff.mpr ⟨sign, s, p, r, again, ds, hsign, htext, hp, hne⟩)
      subst hnil
      have hv : Numeral t.text (s * positional r.base ds) :=
        numeral_iff.mpr ⟨sign, s, p, r, ds, hsign, htext, hp, rfl⟩
      rwa [toInt_of_fits hsign (hfits _ hv)]
    refine ⟨⟨fun hsome => ?_, ?_⟩, hvalue⟩
    · obtain ⟨o, ho⟩ := Option.isSome_iff_exists.mp hsome
      exact ⟨o.toInt, hvalue o ho, hfits _ (hvalue o ho)⟩
    · rintro ⟨v, hv, -⟩
      obtain ⟨sign', s', p', r, ds, hsign', heq, hp, -⟩ := numeral_iff.mp hv
      rw [heq, parseNumber_marked hsign' hp]
      rfl

/-- A second mark is skipped, and a number of 33 bits loses the first of them. -/
theorem number_not_exact :
    (⟨.number, ascii "0x0x1F"⟩ : Token) ∈ (lexLine (ascii ".word 0x0x1F") 1).1.tokens ∧
    ¬ NumberExact (ascii "0x0x1F") ∧
    (⟨.number, ascii "4294967301"⟩ : Token) ∈ (lexLine (ascii ".word 4294967301") 1).1.tokens ∧
    ¬ NumberExact (ascii "4294967301") := by
  refine ⟨by decide, fun h => ?_, by decide, fun h => ?_⟩
  · have hread : parseNumber (ascii "0x0x1F") = some 31 := by decide
    exact numeral_not_doublyMarked (h.value 31 hread)
      ⟨[], ascii "0x", ascii "0x", ascii "1F", rfl, by decide, by decide, by decide, by decide,
        by decide⟩
  · have hread : parseNumber (ascii "4294967301") = some 5 := by decide
    have hlong : Numeral ([] ++ ([] ++ ascii "4294967301")) _ :=
      .mk (show ([], 1) ∈ signs by decide) (show [] ∈ Radix.decimal.marks by decide)
        ⟨by decide, by decide⟩
    exact absurd (numeral_unique (h.value 5 hread) hlong) (by decide)

theorem number_exact_iff_minus_five :
    NumberExact (ascii "-5") ↔
      ¬ DoublyMarked (ascii "-5") ∧ ∀ v, Numeral (ascii "-5") v → FitsI32 v :=
  number_exact_iff (ascii "ADDI R1, R1, -5") 1 ⟨.number, ascii "-5"⟩ (by decide) rfl

end Proof
end EduCpu16
