import EduCpu16.Proof.Grammar
import EduCpu16.Proof.Pass2
import EduCpu16.Source.Statement

/-!
# Lines that pass 1 rejects

Pass 2 goes over the records of rejected lines too. That of a line that does not lex is zeroed and
emits nothing; that of a line that does not parse has the fields stored before the failure, at
address 0. An instruction has its mnemonic by then and no operands, a `.word` its kind and no value,
and pass 2 takes both for lines of the program (`rejected_quiet_iff`).

No file is written then, since the error has been counted. But the listing and the diagnostics of
pass 2 show it: a word that no line stands for, or a second complaint about the line.
-/

namespace EduCpu16
namespace Proof

open CLib Source

/-! ## The record

Pass 1 keeps a record of every line. That of a line that did not lex is zeroed, and that of a line
that did not parse is what the parser had filled in before it gave up. -/

/-- `lex_line` or `parse_line` returns false. -/
def Rejected (src : Bytes) (lineNo : Nat) : Prop :=
  (lexLine src lineNo).2 ≠ none ∨ (parseLine (lexLine src lineNo).1).2 ≠ none

theorem accepts_or_rejected (src : Bytes) (lineNo : Nat) :
    (∃ pl, Accepts src lineNo pl) ∨ Rejected src lineNo := by
  cases hlex : lexLine src lineNo with
  | mk tl err =>
    cases err with
    | some d => exact .inr (.inl (by rw [hlex]; exact Option.some_ne_none d))
    | none =>
      cases hparse : parseLine tl with
      | mk pl err =>
        cases err with
        | none => exact .inl ⟨pl, tl, hlex, hparse⟩
        | some d => exact .inr (.inr (by rw [hlex, hparse]; exact Option.some_ne_none d))

/-- What is left in `parsed[i]`. -/
def recordOf (src : Bytes) (lineNo : Nat) : ParsedLine :=
  if (lexLine src lineNo).2 = none then (parseLine (lexLine src lineNo).1).1 else {}

theorem pass1Line_rejected {st : Pass1} {src : Bytes} (h : Rejected src (st.parsed.length + 1)) :
    (pass1Line st src).parsed =
      st.parsed ++ [recordOf src (st.parsed.length + 1)] := by
  rw [pass1Line, recordOf]
  rw [Rejected] at h
  cases hlex : lexLine src (st.parsed.length + 1) with
  | mk tl err =>
    rw [hlex] at h
    cases err with
    | some d => rfl
    | none =>
      cases hparse : parseLine tl with
      | mk pl err =>
        simp only [hparse] at h ⊢
        cases err with
        | some d => rfl
        | none => exact absurd h (by simp)

/-- The record of a rejected line, in its row. -/
theorem row_rejected {lines : List Bytes} {i : Nat} {r : Bytes × ParsedLine}
    (hr : (rows lines)[i]? = some r) (hrej : Rejected r.1 (i + 1)) :
    r.2 = recordOf r.1 (i + 1) := by
  obtain ⟨hline, hparsed⟩ := List.getElem?_zip_eq_some.mp hr
  obtain ⟨hi, hsrc⟩ := List.getElem?_eq_some_iff.mp hline
  -- The lines up to this one leave its record at the end, and the others leave it there.
  have hsplit : lines = lines.take i ++ [r.1] ++ lines.drop (i + 1) := by
    rw [List.append_assoc, List.singleton_append, ← hsrc, ← List.drop_eq_getElem_cons hi,
      List.take_append_drop]
  have hlen : (pass1 (lines.take i)).parsed.length = i := by
    rw [pass1_length, List.length_take, Nat.min_eq_left (Nat.le_of_lt hi)]
  obtain ⟨tail, htail⟩ := pass1_parsed_append (lines.take i ++ [r.1]) (lines.drop (i + 1))
  rw [← hsplit, pass1_snoc, pass1Line_rejected (hlen.symm ▸ hrej), hlen] at htail
  rw [htail, List.append_assoc, List.getElem?_append_right (Nat.le_of_eq hlen), hlen,
    Nat.sub_self] at hparsed
  exact (Option.some.inj hparsed).symm

/-! ## What the parser leaves behind

How much is stored when a parser gives up depends on the order of its statements. `.org` and `.equ`
emit nothing in pass 2 whatever they have stored, `.ascii` stores its kind when nothing can fail any
more, and `.word` stores its kind before it looks at the argument. -/

/-- Pass 2 does nothing with the record. -/
def Silent (pl : ParsedLine) : Prop :=
  pl.kind = .empty ∨ pl.kind = .directive ∧ (pl.dir.kind = .org ∨ pl.dir.kind = .equ)

section Directives

variable (lineNo : Nat) {args : List Token} {out : ParsedLine}

theorem silent_of_zero (hkind : out.kind = .directive) (hdir : out.dir = {}) : Silent out :=
  .inr ⟨hkind, .inl (by rw [hdir])⟩

theorem parseOrg_failed (hkind : out.kind = .directive) (hdir : out.dir = {}) :
    Silent (parseOrg lineNo args out).1 := by
  unfold parseOrg
  split
  · exact silent_of_zero hkind hdir
  · simp only
    split
    · split
      · exact .inr ⟨hkind, .inl rfl⟩
      · exact .inr ⟨hkind, .inl rfl⟩
    · exact .inr ⟨hkind, .inl rfl⟩

/-- The kind is stored before the argument is looked at. -/
theorem parseWord_failed (hkind : out.kind = .directive) (hdir : out.dir = {})
    (h : (parseWord lineNo args out).2 ≠ none) (hargs : args ≠ []) :
    let pl := (parseWord lineNo args out).1
    pl.kind = .directive ∧ pl.dir.kind = .word ∧ pl.dir.value = {} := by
  cases args with
  | nil => exact absurd rfl hargs
  | cons t ts =>
    unfold parseWord at h ⊢
    simp only at h ⊢
    split
    · rename_i hv
      rw [hv] at h
      exact absurd rfl h
    · exact ⟨hkind, rfl, by rw [hdir]⟩

theorem parseAscii_failed (hkind : out.kind = .directive) (hdir : out.dir = {})
    (h : (parseAscii lineNo args out).2 ≠ none) : Silent (parseAscii lineNo args out).1 := by
  unfold parseAscii at h ⊢
  split
  · exact absurd rfl h
  · exact silent_of_zero hkind hdir

theorem parseEqu_failed (hkind : out.kind = .directive) (hdir : out.dir = {}) :
    Silent (parseEqu lineNo args out).1 := by
  unfold parseEqu
  split
  · simp only
    split
    · exact .inr ⟨hkind, .inr rfl⟩
    · exact .inr ⟨hkind, .inr rfl⟩
  · exact silent_of_zero hkind hdir

/-- The record of a rejected directive. -/
theorem parseDirective_failed (d : Token) (hdir : out.dir = {})
    (h : (parseDirective lineNo d args out).2 ≠ none) :
    let pl := (parseDirective lineNo d args out).1
    (d.text.map tolower = dirName .word ∧ args ≠ [] →
      pl.kind = .directive ∧ pl.dir.kind = .word ∧ pl.dir.value = {}) ∧
    (¬ (d.text.map tolower = dirName .word ∧ args ≠ []) → Silent pl) := by
  by_cases hname : ∃ k, d.text.map tolower = dirName k
  · obtain ⟨k, hk⟩ := hname
    rw [parseDirective_of_name lineNo d args out hk] at h ⊢
    rw [hk]
    have hother : k ≠ .word → ¬ dirName k = dirName .word := mt dirName_injective
    cases k with
    | org => exact ⟨fun hw => absurd hw.1 (hother (by decide)), fun _ => parseOrg_failed _ rfl hdir⟩
    | word =>
      refine ⟨fun hw => parseWord_failed lineNo rfl hdir h hw.2, fun hno => ?_⟩
      have hnil : args = [] := by
        by_contra hne
        exact hno ⟨rfl, hne⟩
      subst hnil
      exact silent_of_zero rfl hdir
    | ascii =>
      exact ⟨fun hw => absurd hw.1 (hother (by decide)), fun _ => parseAscii_failed _ rfl hdir h⟩
    | equ => exact ⟨fun hw => absurd hw.1 (hother (by decide)), fun _ => parseEqu_failed _ rfl hdir⟩
  · have hunknown : ∀ k, d.text.map tolower ≠ dirName k := fun k hk => hname ⟨k, hk⟩
    rw [parseDirective_unknown_eq lineNo d args out hunknown]
    exact ⟨fun hw => absurd hw.1 (hunknown .word), fun _ => silent_of_zero rfl hdir⟩

end Directives

/-- The line is one that pass 2 takes for an instruction or a `.word`. A `.word` with nothing behind
it fails before its kind is stored, so it is none of them. -/
def Lingers (head : Token) (args : List Token) : Prop :=
  head.kind = .ident ∨
    head.kind = .directive ∧ head.text.map tolower = dirName .word ∧ args ≠ []

/-- What is left of a rejected line behind its label. -/
theorem parseHead_failed (lineNo : Nat) (head : Token) {args : List Token} {out : ParsedLine}
    (hzero : out.kind = .empty ∧ out.dir = {})
    (h : (parseHead lineNo head args out).2 ≠ none) :
    let pl := (parseHead lineNo head args out).1
    (Lingers head args → pl.kind = .instr ∨
      pl.kind = .directive ∧ pl.dir.kind = .word ∧ pl.dir.value = {}) ∧
    (¬ Lingers head args → Silent pl) := by
  obtain ⟨hkind, hdir⟩ := hzero
  cases hk : head.kind with
  | directive =>
    have hparse : parseHead lineNo head args out = parseDirective lineNo head args out := by
      rw [parseHead, hk]
    rw [hparse] at h ⊢
    obtain ⟨hword, hsilent⟩ := parseDirective_failed lineNo head hdir h
    have hlingers : Lingers head args ↔ head.text.map tolower = dirName .word ∧ args ≠ [] := by
      simp [Lingers, hk]
    rw [hlingers]
    exact ⟨fun hw => .inr (hword hw), hsilent⟩
  | ident =>
    have hparse : parseHead lineNo head args out = parseInstruction lineNo head args out := by
      rw [parseHead, hk]
    obtain ⟨i, hi⟩ := parseOperands_frame lineNo args
      { out with kind := .instr, instr.mnemonic := copyTok head.text } 0
    have hinstr : (parseHead lineNo head args out).1.kind = .instr := by
      rw [hparse, parseInstruction, hi]
    exact ⟨fun _ => .inl hinstr, fun hno => absurd (.inl hk) hno⟩
  | none | label | number | string =>
    have hparse : (parseHead lineNo head args out).1 = out := by
      rw [parseHead, hk]
    rw [hparse]
    refine ⟨fun hl => ?_, fun _ => .inl hkind⟩
    simp [Lingers, hk] at hl

/-- A line that is not parsed has something behind its label. -/
theorem parseLine_failed {tl : TokenLine} (h : (parseLine tl).2 ≠ none) :
    ∃ head args out, (splitLabel tl.tokens).2 = head :: args ∧
      parseLine tl = parseHead tl.lineNo head args out ∧
      out.kind = .empty ∧ out.instr = {} ∧ out.dir = {} := by
  obtain ⟨tokens, lineNo⟩ := tl
  cases tokens with
  | nil => exact absurd rfl h
  | cons t rest =>
    by_cases hkind : t.kind = .label
    · cases rest with
      | nil =>
        rw [parseLine_alone lineNo hkind] at h
        exact absurd rfl h
      | cons head args =>
        refine ⟨head, args, _, ?_, parseLine_labelled lineNo hkind head args, rfl, rfl, rfl⟩
        rw [splitLabel, if_pos hkind]
    · refine ⟨t, rest, _, ?_, parseLine_unlabelled lineNo hkind rest, rfl, rfl, rfl⟩
      rw [splitLabel, if_neg hkind]

/-- A rejected line has no operands in use. -/
theorem recordOf_nops {src : Bytes} {lineNo : Nat} (h : Rejected src lineNo) :
    (recordOf src lineNo).instr.nops = 0 := by
  rw [recordOf]
  split
  · rename_i hlex
    have hfail := h.resolve_left fun hne => hne hlex
    obtain ⟨head, args, out, -, hparse, -, hinstr, -⟩ := parseLine_failed hfail
    rw [hparse] at hfail ⊢
    rw [(parseHead_nops _ _ _ _).resolve_left hfail, hinstr]
  · rfl

/-! ## What pass 2 makes of it

It reports the line a second time or stores a word for it exactly where the record is taken for an
instruction or a `.word`. Every other record is silent. -/

/-- A line without an effect: no store, nothing listed, nothing reported. -/
def QuietOut (out : LineOut) : Prop := out.stores = [] ∧ out.listing = [] ∧ out.diags = []

section Pass2

variable (opt : AsmOptions) (sym : Symtable) (src : Bytes) {pl : ParsedLine}

theorem quiet_of_silent (h : Silent pl) : QuietOut (pass2Line opt sym src pl) := by
  unfold pass2Line
  rcases h with hk | ⟨hk, hd | hd⟩
  · rw [hk]
    exact ⟨rfl, rfl, rfl⟩
  · rw [hk, hd]
    exact ⟨rfl, rfl, rfl⟩
  · rw [hk, hd]
    exact ⟨rfl, rfl, rfl⟩

/-- An instruction is encoded or reported. -/
theorem not_quiet_instr (hk : pl.kind = .instr) : ¬ QuietOut (pass2Line opt sym src pl) := by
  rintro ⟨hstores, -, hdiags⟩
  unfold pass2Line at hstores hdiags
  rw [hk] at hstores hdiags
  simp only at hstores hdiags
  split at hstores
  · rename_i i hres
    rw [hres] at hdiags
    simp only at hdiags
    split at hstores
    · cases hstores
    · rename_i rc w hrc henc
      rw [henc] at hdiags
      cases rc with
      | ok => exact absurd rfl hrc
      | _ => cases hdiags
  · rename_i i ds hne hres
    rw [hres] at hdiags
    cases ds with
    | nil => exact absurd rfl hne
    | cons d ds => cases hdiags

/-- A `.word` without a value stores a zero. -/
theorem not_quiet_word (hk : pl.kind = .directive) (hd : pl.dir.kind = .word)
    (hv : pl.dir.value = {}) : ¬ QuietOut (pass2Line opt sym src pl) := by
  have hres : resolveOperand sym pl.lineNo {} = ({}, none) := rfl
  rintro ⟨hstores, -, -⟩
  unfold pass2Line at hstores
  rw [hk, hd, hv, hres] at hstores
  cases hstores

end Pass2

/-- The line did not lex, or what is behind its label is neither a mnemonic nor a `.word` with
something behind it. It is a condition on the tokens; why the line was rejected does not matter. -/
def Harmless (src : Bytes) (lineNo : Nat) : Prop :=
  (lexLine src lineNo).2 ≠ none ∨
    ∀ head args, (splitLabel (lexLine src lineNo).1.tokens).2 = head :: args → ¬ Lingers head args

/-- **When a rejected line has no further effect.** It is said row by row, for any row of any
source: what other lines do has no part in it, because a rejected record has no operand in use that
could be looked up. -/
theorem rejected_quiet_iff {opt : AsmOptions} {lines : List Bytes} {i : Nat}
    {r : Bytes × ParsedLine} (hr : (rows lines)[i]? = some r) (hrej : Rejected r.1 (i + 1)) :
    QuietOut (rowOut opt lines r) ↔ Harmless r.1 (i + 1) := by
  have hrec := row_rejected hr hrej
  rw [rowOut, hrec, recordOf]
  by_cases hlex : (lexLine r.1 (i + 1)).2 = none
  · obtain ⟨head, args, out, hsplit, hparse, hkind, -, hdir⟩ :=
      parseLine_failed (hrej.resolve_left fun hne => hne hlex)
    have hfail := hrej.resolve_left fun hne => hne hlex
    rw [hparse] at hfail
    obtain ⟨hleft, hsilent⟩ := parseHead_failed _ head ⟨hkind, hdir⟩ hfail
    have hharmless : Harmless r.1 (i + 1) ↔ ¬ Lingers head args := by
      constructor
      · rintro (hno | hno)
        · exact absurd hlex hno
        · exact hno head args hsplit
      · intro hno
        refine .inr fun head' args' hsplit' => ?_
        rw [hsplit] at hsplit'
        obtain ⟨rfl, rfl⟩ := List.cons.inj hsplit'
        exact hno
    rw [if_pos hlex, hparse, hharmless]
    constructor
    · intro hquiet hl
      rcases hleft hl with hk | ⟨hk, hd, hv⟩
      · exact not_quiet_instr _ _ _ hk hquiet
      · exact not_quiet_word _ _ _ hk hd hv hquiet
    · exact fun hno => quiet_of_silent _ _ _ (hsilent hno)
  · rw [if_neg hlex]
    exact iff_of_true (quiet_of_silent _ _ _ (.inl rfl)) (.inl hlex)

/-- A `.org` without an operand. -/
theorem rejected_quiet_iff_org :
    QuietOut (rowOut {} [ascii ".org"] (ascii ".org", { kind := .directive, lineNo := 1 })) := by
  have hrow : (rows [ascii ".org"])[0]? =
      some (ascii ".org", { kind := .directive, lineNo := 1 }) := by decide +kernel
  have hrej : Rejected (ascii ".org") 1 := .inr (by decide)
  refine (rejected_quiet_iff hrow hrej).mpr (.inr fun head args hsplit => ?_)
  have htokens : (splitLabel (lexLine (ascii ".org") 1).1.tokens).2 =
      [⟨.directive, ascii ".org"⟩] := by decide
  obtain ⟨rfl, rfl⟩ := List.cons.inj (htokens.symm.trans hsplit)
  rintro (hkind | ⟨-, -, hargs⟩)
  · cases hkind
  · exact hargs rfl

/-- A `HALT` with four operands is rejected and stored at address 0 all the same. -/
theorem rejected_stores :
    let lines := [ascii ".word 7", ascii "HALT 1 2 3 4"]
    let r := (rows lines).getD 1 ([], {})
    r.1 = ascii "HALT 1 2 3 4" ∧ Rejected r.1 2 ∧
      (rowOut {} lines r).stores = [(0, 0xF800)] ∧ ¬ QuietOut (rowOut {} lines r) := by
  intro lines r
  have hstores : (rowOut {} lines r).stores = [(0, 0xF800)] := by decide +kernel
  refine ⟨by decide +kernel, .inr (by decide +kernel), hstores, ?_⟩
  rintro ⟨hnone, -⟩
  rw [hstores] at hnone
  cases hnone

end Proof
end EduCpu16
