import EduCpu16.Lib.Strtol

/-!
# `strtoul`

White space, a sign and the digits, as `strtol` takes them. What has no room in 64 bits sets `errno`
and saturates; the value of a text with a minus sign is negated in 64 bits, with no error
(`strtoul_iff`).
-/

namespace CLib

def ULONG_MAX : Nat := 2 ^ 64 - 1

/-- The value, the suffix `end` points to, and whether `errno` is `ERANGE`. -/
structure Converted where
  value : BitVec 64
  rest : Bytes
  erange : Bool
  deriving DecidableEq

/-- Where a sign has been skipped. -/
def afterSign (p : Bytes) : Bytes :=
  if p.head? = some (ch '-') ∨ p.head? = some (ch '+') then p.tail else p

def strtoul (s : Bytes) (base : Nat) : Converted :=
  let p := s.dropWhile isspace
  let q := afterMark base (afterSign p)
  let ds := q.takeWhile (isDigitIn base)
  if ds = [] then ⟨0, s, false⟩
  else
    let v := digitsVal base ds 0
    let rest := q.dropWhile (isDigitIn base)
    if ULONG_MAX < v then ⟨BitVec.ofNat 64 ULONG_MAX, rest, true⟩
    else if p.head? = some (ch '-') then ⟨- BitVec.ofNat 64 v, rest, false⟩
    else ⟨BitVec.ofNat 64 v, rest, false⟩

/-- The texts of a sign, none among them. -/
def signMarks : List Bytes := [[], ascii "+", ascii "-"]

theorem isDigitIn_isalnum {base : Nat} {c : Byte} (h : isDigitIn base c = true) :
    isalnum c = true := by
  have hsome : (digitVal? c).isSome = true := by
    unfold isDigitIn at h
    split at h
    · rename_i hd
      rw [hd]
      rfl
    · cases h
  unfold digitVal? at hsome
  unfold isalnum isalpha
  split at hsome
  · rename_i hd
    rw [hd, Bool.or_true]
  · split at hsome
    · rename_i hu
      rw [hu]
      rfl
    · split at hsome
      · rename_i hl
        rw [hl, Bool.or_true, Bool.true_or]
      · cases hsome

/-- Digits behind their mark begin with a letter or digit. -/
theorem exists_head_digits {base : Nat} {mark ds : Bytes} (hds : Digits base ds)
    (hmark : mark = [] ∨ base = 16 ∧ mark ∈ hexMarks) :
    ∃ c cs, mark ++ ds = c :: cs ∧ isalnum c = true := by
  rcases hmark with rfl | ⟨-, hmark⟩
  · obtain ⟨c, cs, rfl⟩ := List.exists_cons_of_ne_nil hds.1
    exact ⟨c, cs, rfl, isDigitIn_isalnum (hds.2 c List.mem_cons_self)⟩
  · rcases List.mem_cons.mp hmark with rfl | hmark
    · exact ⟨ch '0', _, rfl, by decide⟩
    · obtain rfl := List.mem_singleton.mp hmark
      exact ⟨ch '0', _, rfl, by decide⟩

/-- What is in front of the digits. -/
theorem strtoul_parts {blanks sign q : Bytes} (hblanks : ∀ c ∈ blanks, isspace c = true)
    (hsign : sign ∈ signMarks) {c : Byte} {cs : Bytes} (hq : q = c :: cs) (hc : isalnum c = true) :
    (blanks ++ (sign ++ q)).dropWhile isspace = sign ++ q ∧
    ((sign ++ q).head? = some (ch '-') ↔ sign = ascii "-") ∧
    afterSign (sign ++ q) = q := by
  obtain ⟨hspace, hminus, hplus⟩ := isalnum_not_space_sign c hc
  have hm : some c ≠ some (ch '-') := fun h => hminus (Option.some.inj h)
  have hp : some c ≠ some (ch '+') := fun h => hplus (Option.some.inj h)
  rw [List.dropWhile_append_of_pos hblanks]
  subst hq
  simp only [signMarks, List.mem_cons, List.not_mem_nil, or_false] at hsign
  rcases hsign with rfl | rfl | rfl
  · refine ⟨?_, iff_of_false hm (by decide), if_neg (not_or.mpr ⟨hm, hp⟩)⟩
    exact List.dropWhile_cons_of_neg (by rw [hspace]; exact Bool.false_ne_true)
  · have hplus : some (ch '+') ≠ some (ch '-') := by decide
    exact ⟨rfl, iff_of_false hplus (by decide), rfl⟩
  · exact ⟨rfl, iff_of_true rfl rfl, rfl⟩

theorem afterSign_split (p : Bytes) : ∃ sign ∈ signMarks, p = sign ++ afterSign p ∧
    (p.head? = some (ch '-') ↔ sign = ascii "-") := by
  rw [afterSign]
  split
  · rename_i hskip
    cases p with
    | nil => rcases hskip with h | h <;> cases h
    | cons c cs =>
      rcases hskip with h | h
      · obtain rfl : c = ch '-' := Option.some.inj h
        exact ⟨ascii "-", by decide, rfl, iff_of_true rfl rfl⟩
      · obtain rfl : c = ch '+' := Option.some.inj h
        have hplus : some (ch '+') ≠ some (ch '-') := by decide
        exact ⟨ascii "+", by decide, rfl, iff_of_false hplus (by decide)⟩
  · rename_i hskip
    exact ⟨[], by decide, rfl, iff_of_false (fun h => hskip (.inl h)) (by decide)⟩

/-- The value of a text with these digits and this sign. -/
def signedWord (sign : Bytes) (n : Nat) : BitVec 64 :=
  if sign = ascii "-" then - BitVec.ofNat 64 n else BitVec.ofNat 64 n

/-- **When `strtoul` reads a text to its end without an error**, and the value. -/
theorem strtoul_iff {s : Bytes} (hne : s ≠ []) {base : Nat} {v : BitVec 64} :
    strtoul s base = ⟨v, [], false⟩ ↔ ∃ blanks sign mark ds,
      s = blanks ++ (sign ++ (mark ++ ds)) ∧ (∀ c ∈ blanks, isspace c = true) ∧ sign ∈ signMarks ∧
      (mark = [] ∨ base = 16 ∧ mark ∈ hexMarks) ∧ Digits base ds ∧
      positional base ds ≤ ULONG_MAX ∧ v = signedWord sign (positional base ds) := by
  constructor
  · intro h
    obtain ⟨sign, hsign, hsplit, hneg⟩ := afterSign_split (s.dropWhile isspace)
    obtain ⟨mark, hmark, hcond⟩ := afterMark_split base (afterSign (s.dropWhile isspace))
    unfold strtoul at h
    simp only at h
    split at h
    · exact absurd (congrArg Converted.rest h) hne
    rename_i hsome
    split at h
    · cases congrArg Converted.erange h
    rename_i hmax
    -- The text ends where the digits do, so what is behind the mark is digits only.
    have hrest : (afterMark base (afterSign (s.dropWhile isspace))).dropWhile (isDigitIn base) =
        [] := by
      split at h
      · exact congrArg Converted.rest h
      · exact congrArg Converted.rest h
    have hall := List.dropWhile_eq_nil_iff.mp hrest
    rw [List.takeWhile_eq_self_iff.mpr hall] at hsome hmax h
    rw [digitsVal_zero] at hmax h
    refine ⟨s.takeWhile isspace, sign, mark, _, ?_, fun c hc => List.mem_takeWhile_imp hc, hsign,
      hcond, ⟨hsome, hall⟩, Nat.not_lt.mp hmax, ?_⟩
    · rw [← hmark, ← hsplit, List.takeWhile_append_dropWhile]
    · rw [signedWord]
      split at h
      · rename_i hhead
        rw [if_pos (hneg.mp hhead)]
        exact (congrArg Converted.value h).symm
      · rename_i hhead
        rw [if_neg fun hs => hhead (hneg.mpr hs)]
        exact (congrArg Converted.value h).symm
  · rintro ⟨blanks, sign, mark, ds, rfl, hblanks, hsign, hmark, hds, hmax, rfl⟩
    obtain ⟨c, cs, hq, hc⟩ := exists_head_digits hds hmark
    obtain ⟨hdrop, hneg, hbody⟩ := strtoul_parts hblanks hsign hq hc
    have htake := List.takeWhile_eq_self_iff.mpr hds.2
    have hrest := List.dropWhile_eq_nil_iff.mpr hds.2
    simp only [strtoul, hdrop, hbody, hneg, afterMark_digits hds hmark, htake, hrest, hds.1,
      if_false, digitsVal_zero, if_neg (Nat.not_lt.mpr hmax), signedWord]
    split
    · rfl
    · rfl

end CLib
