import EduCpu16.Proof.Parser
import EduCpu16.Proof.Turns
import EduCpu16.Source.Grammar

/-!
# `parse_line` against the line grammar

An instruction is parsed as the grammar says and keeps all its tokens. A directive is parsed from
its first arguments only: what follows them is not looked at, and `.word` does not ask whether its
name is a register's. So the parser accepts the lines of the grammar and those of `LineLoses`
(`parseLine_none_iff`), and outside the latter nothing is lost (`parseLine_holds`).

The grammar is stated on tokens and has no parser in it. The proof goes from the inside out:
operands, the operand loop, the four directive parsers as one family (`dirParser`), and the label at
the front, which the parser takes off and the grammar allows before any body.
-/

namespace EduCpu16
namespace Proof

open CLib Source

/-! ## Operands

A value operand is a number, a register or a name. It is refused only if it is a number that cannot
be read or a token of another kind. -/

theorem fillValueOperand_isSome {t : Token} (op : Operand) :
    (fillValueOperand t op).isSome = true ↔ IsOperand t := by
  unfold fillValueOperand IsOperand IsNumber
  cases hk : t.kind
  case number => cases parseNumber t.text <;> simp
  case ident => cases parseRegister t.text <;> simp
  all_goals simp

theorem fillValueOperand_holds {t : Token} {op o : Operand} (hlen : t.text.length ≤ maxTokenLen)
    (h : fillValueOperand t op = some o) : Holds o t := by
  rcases fillValueOperand_cases h with ⟨hk, v, hv, rfl⟩ | ⟨hk, r, hr, rfl⟩ | ⟨hk, hr, rfl⟩
  · simp [Holds, hk, hv]
  · simp [Holds, hk, hr]
  · simp [Holds, hk, hr, copyTok, List.take_of_length_le hlen]

theorem fillValueOperand_kind {t : Token} {op o : Operand} (h : fillValueOperand t op = some o) :
    o.kind = .imm ↔ IsNumber t := by
  rcases fillValueOperand_cases h with ⟨hk, v, hv, rfl⟩ | ⟨hk, r, hr, rfl⟩ | ⟨hk, hr, rfl⟩
  · simp [IsNumber, hk, hv]
  · simp [IsNumber, hk]
  · simp [IsNumber, hk]

/-! ## Instructions

The operand loop goes over any number of tokens and counts. Whether they are too many is asked
before each is read, so an instruction loses none. -/

/-- The operand loop succeeds on at most three operands, the `n` that are there included. -/
theorem parseOperands_none_iff (lineNo : Nat) : ∀ (ts : List Token) (out : ParsedLine) (n : Nat),
    (parseOperands lineNo ts out n).2 = none ↔
      n + ts.length ≤ max n 3 ∧ ∀ t ∈ ts, IsOperand t
  | [], out, n => by simp [parseOperands]
  | t :: ts, out, n => by
    rw [parseOperands]
    by_cases hn : n < 3
    · rw [dif_pos hn]
      cases hfill : fillValueOperand t (out.instr.ops ⟨n, hn⟩) with
      | none =>
        have hno : ¬ IsOperand t := by
          rw [← fillValueOperand_isSome (out.instr.ops ⟨n, hn⟩), hfill]
          decide
        simp [hno]
      | some o =>
        have hyes : IsOperand t := by
          rw [← fillValueOperand_isSome (out.instr.ops ⟨n, hn⟩), hfill]
          rfl
        simp only
        rw [parseOperands_none_iff lineNo ts]
        simp only [List.mem_cons, forall_eq_or_imp, hyes, true_and, List.length_cons]
        have : n + 1 + ts.length ≤ max (n + 1) 3 ↔ n + (ts.length + 1) ≤ max n 3 := by omega
        rw [this]
    · rw [dif_neg hn, List.length_cons]
      constructor
      · intro h
        cases h
      · rintro ⟨h, -⟩
        omega

/-- The operands of a parsed instruction are its tokens, one by one. -/
theorem parseOperands_holds (lineNo : Nat) : ∀ (ts : List Token) (out : ParsedLine) (n : Nat),
    (∀ t ∈ ts, t.text.length ≤ maxTokenLen) → (parseOperands lineNo ts out n).2 = none →
    (parseOperands lineNo ts out n).1.instr.nops = n + ts.length ∧
    (∀ k : Fin 3, k.val < n → (parseOperands lineNo ts out n).1.instr.ops k = out.instr.ops k) ∧
    ∀ (k : Fin 3) (j : Nat) (t : Token), k.val = n + j → ts[j]? = some t →
      Holds ((parseOperands lineNo ts out n).1.instr.ops k) t
  | [], out, n, _, _ => ⟨rfl, fun _ _ => rfl, fun k j t _ h => by simp at h⟩
  | t :: ts, out, n, hlen, hok => by
    rw [parseOperands] at hok ⊢
    by_cases hn : n < 3
    · rw [dif_pos hn] at hok ⊢
      cases hfill : fillValueOperand t (out.instr.ops ⟨n, hn⟩) with
      | none =>
        rw [hfill] at hok
        cases hok
      | some o =>
        simp only [hfill] at hok ⊢
        obtain ⟨hnops, hbefore, hops⟩ := parseOperands_holds lineNo ts _ (n + 1)
          (fun t ht => hlen t (List.mem_cons_of_mem _ ht)) hok
        refine ⟨by rw [hnops, List.length_cons]; omega, ?_, ?_⟩
        · intro k hk
          rw [hbefore k (Nat.lt_succ_of_lt hk)]
          exact Function.update_of_ne (fun h => by rw [h] at hk; exact Nat.lt_irrefl _ hk) _ _
        · intro k j t' hkj hj
          cases j with
          | zero =>
            -- The first token went into slot `n`, and the rest of the loop leaves it there.
            obtain rfl : t = t' := Option.some.inj hj
            obtain rfl : k = ⟨n, hn⟩ := Fin.ext hkj
            rw [hbefore _ (Nat.lt_succ_self n)]
            show Holds (Function.update out.instr.ops ⟨n, hn⟩ o ⟨n, hn⟩) t
            rw [Function.update_self]
            exact fillValueOperand_holds (hlen t List.mem_cons_self) hfill
          | succ j => exact hops k j t' (by omega) hj
    · rw [dif_neg hn] at hok
      cases hok

/-! ## Directives

The four parsers differ in what they read; what they have in common is that they read from the front
and stop. `Reads` says of each when it succeeds, and is compared with the grammar in one place
(`reads_iff`). -/

/-- The parser of each directive. -/
def dirParser : DirectiveKind → Nat → List Token → ParsedLine → ParsedLine × Option Diag
  | .org => parseOrg
  | .word => parseWord
  | .ascii => parseAscii
  | .equ => parseEqu

section Directives

variable (lineNo : Nat) (d : Token) (args : List Token) (out : ParsedLine)

theorem dirName_tolower (k : DirectiveKind) : (dirName k).map tolower = dirName k := by
  cases k <;> decide

theorem dirName_injective {k k' : DirectiveKind} (h : dirName k = dirName k') : k = k' := by
  revert h
  cases k <;> cases k' <;> decide

/-- A name is that of at most one directive, and the chain of comparisons finds it. -/
theorem parseDirective_of_name {k : DirectiveKind} (h : d.text.map tolower = dirName k) :
    parseDirective lineNo d args out =
      dirParser k lineNo args { out with kind := .directive } := by
  have hcmp : ∀ k', strcasecmp d.text (dirName k') = 0 ↔ k = k' := by
    intro k'
    rw [strcasecmp_eq_zero_iff, h, dirName_tolower]
    exact ⟨dirName_injective, congrArg dirName⟩
  have horg : strcasecmp d.text (ascii ".org") = 0 ↔ k = .org := hcmp .org
  have hword : strcasecmp d.text (ascii ".word") = 0 ↔ k = .word := hcmp .word
  have hascii : strcasecmp d.text (ascii ".ascii") = 0 ↔ k = .ascii := hcmp .ascii
  have hequ : strcasecmp d.text (ascii ".equ") = 0 ↔ k = .equ := hcmp .equ
  unfold parseDirective
  cases k <;> simp [horg, hword, hascii, hequ, dirParser]

theorem parseDirective_unknown_eq (h : ∀ k, d.text.map tolower ≠ dirName k) :
    parseDirective lineNo d args out =
      ({ out with kind := .directive },
        some ⟨lineNo, .invalidDirective, ascii "unknown directive '" ++ d.text ++ ascii "'"⟩) := by
  have hcmp : ∀ k, ¬ strcasecmp d.text (dirName k) = 0 := by
    intro k
    rw [strcasecmp_eq_zero_iff, dirName_tolower]
    exact h k
  have horg : ¬ strcasecmp d.text (ascii ".org") = 0 := hcmp .org
  have hword : ¬ strcasecmp d.text (ascii ".word") = 0 := hcmp .word
  have hascii : ¬ strcasecmp d.text (ascii ".ascii") = 0 := hcmp .ascii
  have hequ : ¬ strcasecmp d.text (ascii ".equ") = 0 := hcmp .equ
  unfold parseDirective
  simp only
  rw [if_neg horg, if_neg hword, if_neg hascii, if_neg hequ]

theorem parseDirective_unknown (h : ∀ k, d.text.map tolower ≠ dirName k) :
    (parseDirective lineNo d args out).2 ≠ none := by
  rw [parseDirective_unknown_eq lineNo d args out h]
  exact Option.some_ne_none _

end Directives

/-- What a directive's parser asks of its arguments: that the first ones are in order, or that
the value of a `.word` is a register. -/
def Reads (k : DirectiveKind) (args : List Token) : Prop :=
  (∃ own extra, args = own ++ extra ∧ DirArgs k own) ∨
  (k = .word ∧ ∃ t extra, args = t :: extra ∧ t.kind = .ident ∧
    (parseRegister t.text).isSome = true)

section Reads

variable (lineNo : Nat) {args : List Token} (out : ParsedLine)

/-- `.org`, `.word` and `.ascii` have one argument. -/
theorem dirArgs_one {k : DirectiveKind} (hk : k ≠ .equ) {own : List Token} (h : DirArgs k own) :
    ∃ t, own = [t] ∧ DirArgs k [t] := by
  cases k
  case equ => exact absurd rfl hk
  all_goals
    match own, h with
    | [t], h => exact ⟨t, rfl, h⟩

theorem dirArgs_equ {own : List Token} (h : DirArgs .equ own) :
    ∃ name n, own = [name, n] ∧ name.kind = .ident ∧ IsNumber n := by
  match own, h with
  | [name, n], h => exact ⟨name, n, rfl, h⟩

theorem reads_cons {k : DirectiveKind} (hk : k ≠ .equ) {t : Token} {extra : List Token} :
    Reads k (t :: extra) ↔
      DirArgs k [t] ∨ (k = .word ∧ t.kind = .ident ∧ (parseRegister t.text).isSome = true) := by
  constructor
  · rintro (⟨own, rest, heq, hown⟩ | ⟨hword, t', rest, heq, hreg⟩)
    · obtain ⟨t', rfl, ht'⟩ := dirArgs_one hk hown
      obtain ⟨rfl, -⟩ := List.cons.inj heq
      exact .inl ht'
    · obtain ⟨rfl, -⟩ := List.cons.inj heq
      exact .inr ⟨hword, hreg⟩
  · rintro (h | ⟨hword, hreg⟩)
    · exact .inl ⟨[t], extra, rfl, h⟩
    · exact .inr ⟨hword, t, extra, rfl, hreg⟩

theorem not_reads_nil {k : DirectiveKind} : ¬ Reads k [] := by
  rintro (⟨own, extra, heq, hown⟩ | ⟨-, t, extra, heq, -⟩)
  · obtain ⟨rfl, -⟩ := List.append_eq_nil_iff.mp heq.symm
    cases k <;> exact hown
  · cases heq

theorem parseOrg_none_iff : (parseOrg lineNo args out).2 = none ↔ Reads .org args := by
  cases args with
  | nil => exact iff_of_false (Option.some_ne_none _) not_reads_nil
  | cons t extra =>
    rw [reads_cons (by decide)]
    simp only [parseOrg, DirArgs, reduceCtorEq, false_and, or_false]
    cases hfill : fillValueOperand t out.dir.value with
    | none =>
      apply iff_of_false (Option.some_ne_none _)
      intro hnum
      have hsome := (fillValueOperand_isSome out.dir.value).mpr (.inl hnum)
      rw [hfill] at hsome
      cases hsome
    | some v =>
      rw [← fillValueOperand_kind hfill]
      simp only
      by_cases himm : v.kind = .imm
      · rw [if_pos himm]
        exact iff_of_true rfl himm
      · rw [if_neg himm]
        exact iff_of_false (Option.some_ne_none _) himm

theorem parseWord_none_iff : (parseWord lineNo args out).2 = none ↔ Reads .word args := by
  cases args with
  | nil => exact iff_of_false (Option.some_ne_none _) not_reads_nil
  | cons t extra =>
    have hop : DirArgs .word [t] ∨ (DirectiveKind.word = .word ∧ t.kind = .ident ∧
        (parseRegister t.text).isSome = true) ↔ IsOperand t := by
      simp only [DirArgs, IsValue, IsOperand, true_and]
      cases parseRegister t.text <;> simp
    rw [reads_cons (by decide), hop, ← fillValueOperand_isSome out.dir.value]
    simp only [parseWord]
    cases fillValueOperand t out.dir.value with
    | none => exact iff_of_false (Option.some_ne_none _) (by decide)
    | some v => exact iff_of_true rfl rfl

theorem parseAscii_none_iff : (parseAscii lineNo args out).2 = none ↔ Reads .ascii args := by
  cases args with
  | nil => exact iff_of_false (Option.some_ne_none _) not_reads_nil
  | cons t extra =>
    rw [reads_cons (by decide)]
    obtain ⟨kind, text⟩ := t
    simp only [DirArgs, reduceCtorEq, false_and, or_false]
    cases kind
    case string => exact iff_of_true rfl rfl
    all_goals exact iff_of_false (Option.some_ne_none _) (by decide)

theorem parseEqu_none_iff : (parseEqu lineNo args out).2 = none ↔ Reads .equ args := by
  constructor
  · intro h
    unfold parseEqu at h
    split at h
    · rename_i name text extra
      refine .inl ⟨[⟨.ident, name⟩, ⟨.number, text⟩], extra, rfl, rfl, rfl, ?_⟩
      cases hv : parseNumber text with
      | none =>
        simp only [hv] at h
        cases h
      | some v => rfl
    · cases h
  · rintro (⟨own, extra, rfl, hown⟩ | ⟨h, -⟩)
    · obtain ⟨name, n, rfl, hname, hn, hv⟩ := dirArgs_equ hown
      obtain ⟨kind, text⟩ := name
      obtain ⟨kind', text'⟩ := n
      obtain rfl : kind = .ident := hname
      obtain rfl : kind' = .number := hn
      obtain ⟨v, hv⟩ := Option.isSome_iff_exists.mp hv
      have hv : parseNumber text' = some v := hv
      simp only [List.cons_append, List.nil_append, parseEqu, hv]
    · cases h

theorem dirParser_none_iff (k : DirectiveKind) :
    (dirParser k lineNo args out).2 = none ↔ Reads k args := by
  cases k with
  | org => exact parseOrg_none_iff lineNo out
  | word => exact parseWord_none_iff lineNo out
  | ascii => exact parseAscii_none_iff lineNo out
  | equ => exact parseEqu_none_iff lineNo out

/-- With exactly its own arguments, a directive keeps them all. -/
theorem dirParser_holds {k : DirectiveKind} (hargs : DirArgs k args)
    (hlen : ∀ t ∈ args, t.text.length ≤ maxTokenLen) :
    (dirParser k lineNo args out).1.dir.kind = k ∧
    DirHolds (dirParser k lineNo args out).1.dir args := by
  cases k with
  | org =>
    obtain ⟨t, rfl, ht⟩ := dirArgs_one (by decide) hargs
    simp only [dirParser, parseOrg]
    cases hfill : fillValueOperand t out.dir.value with
    | none =>
      have hsome := (fillValueOperand_isSome out.dir.value).mpr (.inl ht)
      rw [hfill] at hsome
      cases hsome
    | some v =>
      simp only [if_pos ((fillValueOperand_kind hfill).mpr ht)]
      exact ⟨trivial, fillValueOperand_holds (hlen t List.mem_cons_self) hfill⟩
  | word =>
    obtain ⟨t, rfl, ht⟩ := dirArgs_one (by decide) hargs
    simp only [dirParser, parseWord]
    cases hfill : fillValueOperand t out.dir.value with
    | none =>
      have hop : IsOperand t := ht.imp_right fun h => h.1
      have hsome := (fillValueOperand_isSome out.dir.value).mpr hop
      rw [hfill] at hsome
      cases hsome
    | some v => exact ⟨rfl, fillValueOperand_holds (hlen t List.mem_cons_self) hfill⟩
  | ascii =>
    obtain ⟨⟨kind, text⟩, rfl, ht⟩ := dirArgs_one (by decide) hargs
    obtain rfl : kind = .string := ht
    have hmax : text.length ≤ maxTokenLen := hlen _ List.mem_cons_self
    simp only [dirParser, parseAscii, DirHolds, Nat.min_eq_left hmax]
    exact ⟨trivial, List.take_length, trivial⟩
  | equ =>
    obtain ⟨⟨kind, name⟩, ⟨kind', text⟩, rfl, hname, hn, hv⟩ := dirArgs_equ hargs
    obtain rfl : kind = .ident := hname
    obtain rfl : kind' = .number := hn
    have hmax : name.length ≤ maxTokenLen := hlen _ List.mem_cons_self
    obtain ⟨v, hv⟩ := Option.isSome_iff_exists.mp hv
    have hv : parseNumber text = some v := hv
    simp only [dirParser, parseEqu, hv, DirHolds, Holds, copyTok, List.take_of_length_le hmax,
      and_self]

end Reads

/-! ## Lines

The label in front is taken off once, and what follows is a body or nothing. -/

section Body

variable (lineNo : Nat) {head : Token} {args : List Token} (out : ParsedLine)

theorem reads_iff {d : Token} {k : DirectiveKind} (hname : d.text.map tolower = dirName k) :
    Reads k args ↔ DirLine d args ∨ Trailing d args ∨ RegisterWord d args := by
  have huniq : ∀ k', d.text.map tolower = dirName k' → k' = k := fun k' h =>
    dirName_injective (h.symm.trans hname)
  constructor
  · rintro (⟨own, extra, rfl, hown⟩ | ⟨rfl, hreg⟩)
    · by_cases hextra : extra = []
      · subst hextra
        rw [List.append_nil]
        exact .inl ⟨k, hname, hown⟩
      · exact .inr (.inl ⟨own, extra, rfl, hextra, k, hname, hown⟩)
    · exact .inr (.inr ⟨hname, hreg⟩)
  · rintro (⟨k', hk', hargs⟩ | ⟨own, extra, rfl, -, k', hk', hown⟩ | ⟨hword, hreg⟩)
    · obtain rfl := huniq k' hk'
      exact .inl ⟨args, [], (List.append_nil _).symm, hargs⟩
    · obtain rfl := huniq k' hk'
      exact .inl ⟨own, extra, rfl, hown⟩
    · obtain rfl := huniq .word hword
      exact .inr ⟨rfl, hreg⟩

/-- A directive is read if it is one of the grammar, or one that loses tokens. -/
theorem parseDirective_none_iff : (parseDirective lineNo head args out).2 = none ↔
    DirLine head args ∨ Trailing head args ∨ RegisterWord head args := by
  by_cases hname : ∃ k, head.text.map tolower = dirName k
  · obtain ⟨k, hk⟩ := hname
    rw [parseDirective_of_name lineNo head args out hk, dirParser_none_iff, reads_iff hk]
  · have hno : ∀ k, head.text.map tolower ≠ dirName k := fun k hk => hname ⟨k, hk⟩
    apply iff_of_false (parseDirective_unknown lineNo head args out hno)
    rintro (⟨k, hk, -⟩ | ⟨-, -, -, -, k, hk, -⟩ | ⟨hk, -⟩)
    · exact hno k hk
    · exact hno k hk
    · exact hno .word hk

theorem parseHead_none_iff : (parseHead lineNo head args out).2 = none ↔
    Body (head :: args) ∨ BodyLoses (head :: args) := by
  unfold parseHead
  split
  · rename_i hkind
    rw [parseDirective_none_iff]
    constructor
    · rintro (h | h)
      · exact .inl (.dir hkind h)
      · exact .inr ⟨hkind, h⟩
    · rintro (h | ⟨-, h⟩)
      · cases h with
        | instr hkind' _ _ => cases hkind.symm.trans hkind'
        | dir _ hdir => exact .inl hdir
      · exact .inr h
  · rename_i hkind
    rw [parseInstruction, parseOperands_none_iff, Nat.zero_add, Nat.zero_max]
    constructor
    · rintro ⟨hlen, hargs⟩
      exact .inl (.instr hkind hlen hargs)
    · rintro (h | ⟨hkind', -⟩)
      · cases h with
        | instr _ hlen hargs => exact ⟨hlen, hargs⟩
        | dir hkind' _ => cases hkind.symm.trans hkind'
      · cases hkind.symm.trans hkind'
  · rename_i hdir hident
    apply iff_of_false (Option.some_ne_none _)
    rintro (h | ⟨hkind, -⟩)
    · cases h with
      | instr hkind _ _ => exact hident hkind
      | dir hkind _ => exact hdir hkind
    · exact hdir hkind

theorem dirArgs_length {k : DirectiveKind} {own : List Token} (h : DirArgs k own) :
    own.length = if k = .equ then 2 else 1 := by
  by_cases hk : k = .equ
  · subst hk
    obtain ⟨name, n, rfl, -⟩ := dirArgs_equ h
    rfl
  · obtain ⟨t, rfl, -⟩ := dirArgs_one hk h
    rw [if_neg hk]
    rfl

/-- What loses tokens is not in the grammar. -/
theorem body_not_loses {ts : List Token} (h : Body ts) : ¬ BodyLoses ts := by
  intro hloses
  cases h with
  | instr hkind _ _ => cases hkind.symm.trans hloses.1
  | dir hkind hdir =>
    obtain ⟨k, hk, hargs⟩ := hdir
    obtain ⟨-, ⟨own, extra, rfl, hextra, k', hk', hown⟩ | ⟨hword, t, extra, rfl, hident, hreg⟩⟩ :=
      hloses
    · obtain rfl : k' = k := dirName_injective (hk'.symm.trans hk)
      have hlen := dirArgs_length hargs
      rw [List.length_append, dirArgs_length hown] at hlen
      exact hextra (List.length_eq_zero_iff.mp (by omega))
    · obtain rfl : k = .word := dirName_injective (hk.symm.trans hword)
      obtain ⟨t', heq, hvalue⟩ := dirArgs_one (by decide) hargs
      obtain ⟨rfl, -⟩ := List.cons.inj heq
      rcases hvalue with ⟨hnumber, -⟩ | ⟨-, hnone⟩
      · cases hnumber.symm.trans hident
      · rw [hnone] at hreg
        cases hreg

theorem parseHead_holds (hbody : Body (head :: args))
    (hlen : ∀ t ∈ head :: args, t.text.length ≤ maxTokenLen) :
    BodyHolds (parseHead lineNo head args out).1 (head :: args) := by
  have hargs : ∀ t ∈ args, t.text.length ≤ maxTokenLen := fun t ht =>
    hlen t (List.mem_cons_of_mem _ ht)
  have hnone : (parseHead lineNo head args out).2 = none :=
    (parseHead_none_iff lineNo out).mpr (.inl hbody)
  cases hbody with
  | instr hkind hmax hops =>
    have hhead : parseHead lineNo head args out = parseInstruction lineNo head args out := by
      rw [parseHead, hkind]
    rw [hhead] at hnone ⊢
    obtain ⟨hnops, -, hholds⟩ := parseOperands_holds lineNo args _ 0 hargs hnone
    have hmnem := parseOperands_mnemonic lineNo args
      { out with kind := .instr, instr.mnemonic := copyTok head.text } 0
    obtain ⟨i, hframe⟩ := parseOperands_frame lineNo args
      { out with kind := .instr, instr.mnemonic := copyTok head.text } 0
    refine .instr ?_ ?_ ?_ ?_
    · rw [parseInstruction, hframe]
    · rw [parseInstruction, hmnem]
      exact List.take_of_length_le (hlen head List.mem_cons_self)
    · rw [parseInstruction, hnops, Nat.zero_add]
    · intro k t ht
      exact hholds k k.val t (Nat.zero_add _).symm ht
  | dir hkind hdir =>
    obtain ⟨k, hk, hown⟩ := hdir
    have hhead : parseHead lineNo head args out =
        dirParser k lineNo args { out with kind := .directive } := by
      rw [parseHead, hkind]
      exact parseDirective_of_name lineNo head args out hk
    obtain ⟨hdk, hholds⟩ := dirParser_holds lineNo { out with kind := .directive } hown hargs
    obtain ⟨d, hframe, -⟩ := parseDirective_stores lineNo args out head
    rw [hhead]
    refine .dir ?_ (by rw [hdk, hk]) hholds
    rw [← parseDirective_of_name lineNo head args out hk, hframe]

end Body

theorem body_ne_label {t : Token} {ts : List Token} (hkind : t.kind = .label) :
    ¬ Body (t :: ts) ∧ ¬ BodyLoses (t :: ts) := by
  constructor
  · intro h
    cases h with
    | instr hkind' _ _ => cases hkind.symm.trans hkind'
    | dir hkind' _ => cases hkind.symm.trans hkind'
  · rintro ⟨hkind', -⟩
    cases hkind.symm.trans hkind'

/-- Without a label the line is its body. -/
theorem line_unlabelled {t : Token} (hkind : t.kind ≠ .label) (args : List Token) :
    (Line (t :: args) ↔ Body (t :: args)) ∧ (LineLoses (t :: args) ↔ BodyLoses (t :: args)) := by
  constructor
  · constructor
    · intro h
      cases h with
      | label hlabel => exact absurd hlabel hkind
      | body hbody => exact hbody
      | labelled hlabel _ => exact absurd hlabel hkind
    · exact .body
  · constructor
    · rintro (h | ⟨t', rest, heq, hlabel, -⟩)
      · exact h
      · obtain ⟨rfl, -⟩ := List.cons.inj heq
        exact absurd hlabel hkind
    · exact .inl

/-- A label with something behind it. -/
theorem line_labelled {t : Token} (hkind : t.kind = .label) {rest : List Token}
    (hrest : rest ≠ []) :
    (Line (t :: rest) ↔ Body rest) ∧ (LineLoses (t :: rest) ↔ BodyLoses rest) := by
  constructor
  · constructor
    · intro h
      cases h with
      | label _ => exact absurd rfl hrest
      | body hbody => exact absurd hbody (body_ne_label hkind).1
      | labelled _ hbody => exact hbody
    · exact .labelled hkind
  · constructor
    · rintro (h | ⟨t', rest', heq, -, h⟩)
      · exact absurd h (body_ne_label hkind).2
      · obtain ⟨-, rfl⟩ := List.cons.inj heq
        exact h
    · intro h
      exact .inr ⟨t, rest, rfl, hkind, h⟩

/-- **What `parse_line` accepts**: the grammar, and the directives that lose tokens. -/
theorem parseLine_none_iff (tl : TokenLine) :
    (parseLine tl).2 = none ↔ Line tl.tokens ∨ LineLoses tl.tokens := by
  obtain ⟨tokens, lineNo⟩ := tl
  cases tokens with
  | nil => exact iff_of_true rfl (.inl .empty)
  | cons t rest =>
    by_cases hkind : t.kind = .label
    · cases rest with
      | nil =>
        rw [parseLine_alone lineNo hkind]
        exact iff_of_true rfl (.inl (.label hkind))
      | cons head args =>
        obtain ⟨hline, hloses⟩ := line_labelled hkind (List.cons_ne_nil head args)
        rw [parseLine_labelled lineNo hkind, parseHead_none_iff, hline, hloses]
    · obtain ⟨hline, hloses⟩ := line_unlabelled hkind rest
      rw [parseLine_unlabelled lineNo hkind, parseHead_none_iff, hline, hloses]

theorem line_not_loses {toks : List Token} (h : Line toks) : ¬ LineLoses toks := by
  cases toks with
  | nil =>
    rintro (hb | ⟨t, rest, heq, -⟩)
    · exact hb
    · cases heq
  | cons t rest =>
    by_cases hkind : t.kind = .label
    · by_cases hrest : rest = []
      · subst hrest
        rintro (hb | ⟨t', rest', heq, -, hb⟩)
        · exact (body_ne_label hkind).2 hb
        · obtain ⟨-, rfl⟩ := List.cons.inj heq
          exact hb
      · obtain ⟨hline, hloses⟩ := line_labelled hkind hrest
        rw [hloses]
        exact body_not_loses (hline.mp h)
    · obtain ⟨hline, hloses⟩ := line_unlabelled hkind rest
      rw [hloses]
      exact body_not_loses (hline.mp h)

/-- The record of a line of the grammar has every token of it. -/
theorem parseLine_holds {tl : TokenLine} (h : Line tl.tokens)
    (hlen : ∀ t ∈ tl.tokens, t.text.length ≤ maxTokenLen) :
    LineHolds (parseLine tl).1 tl.tokens := by
  obtain ⟨tokens, lineNo⟩ := tl
  cases tokens with
  | nil => exact .empty rfl
  | cons t rest =>
    by_cases hkind : t.kind = .label
    · have hlabel : copyTok t.text = t.text :=
        List.take_of_length_le (hlen _ List.mem_cons_self)
      cases rest with
      | nil =>
        rw [parseLine_alone lineNo hkind]
        exact .label rfl hlabel
      | cons head args =>
        have hbody := (line_labelled hkind (List.cons_ne_nil head args)).1.mp h
        rw [parseLine_labelled lineNo hkind]
        exact .labelled ((parseHead_label lineNo head args _).trans hlabel)
          (parseHead_holds lineNo _ hbody fun t ht => hlen t (List.mem_cons_of_mem _ ht))
    · have hbody := (line_unlabelled hkind rest).1.mp h
      rw [parseLine_unlabelled lineNo hkind]
      exact .body (parseHead_label lineNo t rest _) (parseHead_holds lineNo _ hbody hlen)

/-- **`parse_line` and the grammar.** On a line the lexer can produce it accepts exactly the grammar
and keeps every token, unless the line is a directive with tokens after its arguments or a `.word`
of a register name. Both halves are one equivalence, since a line that loses tokens is accepted
although the grammar does not have it. -/
theorem parseLine_grammar_iff (src : Bytes) (lineNo : Nat) :
    let tl := (lexLine src lineNo).1
    (((parseLine tl).2 = none ↔ Line tl.tokens) ∧
      ((parseLine tl).2 = none → LineHolds (parseLine tl).1 tl.tokens)) ↔
    ¬ LineLoses tl.tokens := by
  intro tl
  have haccepts := parseLine_none_iff tl
  constructor
  · rintro ⟨hiff, -⟩ hloses
    exact line_not_loses (hiff.mp (haccepts.mpr (.inr hloses))) hloses
  · intro hkeeps
    have hiff : (parseLine tl).2 = none ↔ Line tl.tokens := by
      rw [haccepts, or_iff_left hkeeps]
    refine ⟨hiff, fun h => parseLine_holds (hiff.mp h) (lexLine_text_length src lineNo)⟩

/-- The second value of `.word 1 2` is dropped without a word. -/
theorem parseLine_drops_token :
    ¬ ∀ (src : Bytes) (lineNo : Nat),
      ((parseLine (lexLine src lineNo).1).2 = none ↔ Line (lexLine src lineNo).1.tokens) ∧
      ((parseLine (lexLine src lineNo).1).2 = none →
        LineHolds (parseLine (lexLine src lineNo).1).1 (lexLine src lineNo).1.tokens) := by
  intro h
  have htokens : (lexLine (ascii ".word 1 2") 1).1.tokens =
      [⟨.directive, ascii ".word"⟩, ⟨.number, ascii "1"⟩, ⟨.number, ascii "2"⟩] := by decide
  have hloses : LineLoses (lexLine (ascii ".word 1 2") 1).1.tokens := by
    rw [htokens]
    refine .inl ⟨rfl, .inl ⟨[⟨.number, ascii "1"⟩], [⟨.number, ascii "2"⟩], rfl, by decide,
      .word, by decide, .inl ⟨rfl, by decide⟩⟩⟩
  have hline := (h (ascii ".word 1 2") 1).1.mp (by decide)
  exact line_not_loses hline hloses

end Proof
end EduCpu16
