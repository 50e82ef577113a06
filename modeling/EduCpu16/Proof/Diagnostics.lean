import EduCpu16.Proof.Addresses
import EduCpu16.Proof.Labels
import EduCpu16.Proof.Rejected
import EduCpu16.Proof.Restyle
import Mathlib.Algebra.Order.BigOperators.Group.List
import Mathlib.Algebra.Order.Ring.Nat

/-!
# The error count

`n_errors` is documented as the number of reported errors. It follows the diagnostics one by one, in
pass 1 and for the directives of pass 2, but not for the instruction lines of pass 2: there
`resolve_operand` reports every operand that names no symbol, and the line is counted once for all
of them. So the two are equal exactly when no line has two such operands (`nErrors_counts_iff`).

The condition is put in terms of the source: `NoSymbol` asks the table that the names of the source
make, with no address in it, which by `tableFor_uniform` answers as the table of pass 1 does. That
the sums are equal only if the terms are uses that no row has fewer diagnostics than errors.
-/

namespace EduCpu16
namespace Proof

open CLib Source

/-! ## Pass 1

`report` adds a diagnostic and counts it, and nothing else in pass 1 does either. -/

section Pass1

variable {st : Pass1} (h : st.nErrors = st.diags.length)
include h

theorem report_counts (d : Diag) : (st.report d).nErrors = (st.report d).diags.length := by
  rw [Pass1.report, List.length_append, ← h]
  rfl

theorem define_counts (lineNo : Nat) (what name : Bytes) (addr : Word) :
    (st.define lineNo what name addr).nErrors =
      (st.define lineNo what name addr).diags.length := by
  unfold Pass1.define
  split
  split
  · exact h
  · exact report_counts h _

theorem placeLabel_counts (pl : ParsedLine) :
    (placeLabel st pl).nErrors = (placeLabel st pl).diags.length := by
  unfold placeLabel
  split
  · exact define_counts h _ _ _ _
  · exact h

theorem placeBody_counts (pl : ParsedLine) :
    (placeBody st pl).nErrors = (placeBody st pl).diags.length := by
  unfold placeBody
  split
  · simp only
    split
    · exact report_counts h _
    · split
      · exact h
      · exact h
  · split
    · exact define_counts h _ _ _ _
    · exact h

theorem pass1Line_counts (src : Bytes) :
    (pass1Line st src).nErrors = (pass1Line st src).diags.length := by
  rcases pass1Line_cases st src with ⟨d, pl, heq⟩ | ⟨pl, -, heq⟩
  · rw [heq]
    exact report_counts h d
  · rw [heq, place_eq]
    refine placeBody_counts (placeLabel_counts ?_ pl) pl
    exact h

end Pass1

/-- **Pass 1 counts what it reports.** -/
theorem pass1_counts (lines : List Bytes) :
    (pass1 lines).nErrors = (pass1 lines).diags.length := by
  induction lines using List.reverseRecOn with
  | nil => rfl
  | append_singleton lines src ih =>
    rw [pass1_snoc]
    exact pass1Line_counts ih src

/-! ## The symbols of a source

The condition of the theorem asks which names are symbols, of the source and not of the table. Which
names a table has does not depend on the addresses in it. -/

/-- A line that is no statement defines nothing. -/
theorem lineNames_of_not_readsAs {src : Bytes} (h : ∀ s, ¬ ReadsAs src s) :
    lineNames src = [] := by
  unfold lineNames
  split
  · rename_i tl hlex
    split
    · rename_i pl hparse
      obtain ⟨s, hs, -⟩ := Accepts.readsAs ⟨tl, hlex, hparse⟩
      exact absurd hs (h s)
    · rfl
  · rfl

/-- The table is the one the names of the source make. -/
theorem pass1_sym_names (lines : List Bytes) : ∃ ops, (pass1 lines).sym =
    (insertAll symtableReset ops).2 ∧ ops.map Prod.fst = symbolNames lines := by
  induction lines using List.reverseRecOn with
  | nil => exact ⟨[], rfl, rfl⟩
  | append_singleton lines src ih =>
    obtain ⟨ops, hsym, hnames⟩ := ih
    have hsnoc : symbolNames (lines ++ [src]) = symbolNames lines ++ lineNames src := by
      simp [symbolNames]
    rw [pass1_snoc, hsnoc, ← hnames]
    by_cases hread : ∃ s, ReadsAs src s
    · obtain ⟨s, hs⟩ := hread
      obtain ⟨pl, hacc, hof⟩ := hs.accepts ((pass1 lines).parsed.length + 1)
      have hplaced : StmtOf { pl with address := (pass1 lines).addr } s := ⟨hof.label, hof.cmd⟩
      have hdefs : definitions { pl with address := (pass1 lines).addr } =
          s.defs (pass1 lines).addr := hplaced.definitions
      refine ⟨ops ++ s.defs (pass1 lines).addr, ?_, ?_⟩
      · rw [pass1Line_of_accepts hacc, (place_spec _ _).2.1, hdefs, hsym, insertAll_append]
      · rw [List.map_append, names_eq, lineNames_of_readsAs hs]
    · have hno : ∀ s, ¬ ReadsAs src s := fun s hs => hread ⟨s, hs⟩
      rcases pass1Line_cases (pass1 lines) src with ⟨d, pl, heq⟩ | ⟨pl, hacc, -⟩
      · refine ⟨ops, ?_, ?_⟩
        · rw [heq]
          exact hsym
        · rw [lineNames_of_not_readsAs hno, List.append_nil]
      · obtain ⟨s, hs, -⟩ := hacc.readsAs
        exact absurd hs (hno s)

/-- The name is no symbol of the source: a lookup fails once the names the source defines have been
inserted, wherever they are. -/
def NoSymbol (lines : List Bytes) (name : Bytes) : Prop :=
  symtableLookup (insertAll symtableReset ((symbolNames lines).map fun n => (n, 0))).2 name =
    symNotFound

instance (lines : List Bytes) (name : Bytes) : Decidable (NoSymbol lines name) :=
  inferInstanceAs (Decidable (_ = _))

theorem pass1_lookup_iff (lines : List Bytes) (name : Bytes) :
    symtableLookup (pass1 lines).sym name = symNotFound ↔ NoSymbol lines name := by
  obtain ⟨ops, hsym, hnames⟩ := pass1_sym_names lines
  have hplaced : (tableFor ops id).2 = (pass1 lines).sym := by
    rw [tableFor, Prod.map_id, List.map_id, hsym]
  have hzero : ops.map (Prod.map id fun _ => (0 : Word)) =
      (symbolNames lines).map fun n => (n, 0) := by
    rw [← hnames, List.map_map]
    rfl
  rw [NoSymbol, ← hzero, ← hplaced, ← envOf_eq_none, ← envOf_eq_none]
  rcases (tableFor_uniform ops).2 name with hnone | ⟨op, -, -, hsome⟩
  · exact iff_of_true (hnone id) (hnone fun _ => 0)
  · refine iff_of_false ?_ ?_
    · rw [hsome id]
      exact Option.some_ne_none _
    · exact fun h => Option.some_ne_none _ ((hsome fun _ => 0).symm.trans h)

/-- An argument that is a name and names no symbol. -/
def isUndefined (lines : List Bytes) : Arg → Bool
  | .name n => NoSymbol lines n
  | .reg _ | .imm _ => false

def undefinedArgs (lines : List Bytes) (args : List Arg) : List Arg :=
  args.filter (isUndefined lines)

/-! ## A line in pass 2

Only an instruction line can have more diagnostics than errors, one for each operand that is not
found. An operand that is found, or is no name, has none. -/

section Pass2

variable (opt : AsmOptions) (sym : Symtable) (src : Bytes) {pl : ParsedLine}

theorem pass2Line_counts (hk : pl.kind ≠ .instr) : (pass2Line opt sym src pl).nErrors =
    (pass2Line opt sym src pl).diags.length := by
  unfold pass2Line
  cases hkind : pl.kind with
  | instr => exact absurd hkind hk
  | empty | label => rfl
  | directive =>
    simp only
    cases pl.dir.kind with
    | word =>
      simp only
      split
      · rfl
      · rfl
    | org | ascii | equ => rfl

/-- An instruction line is counted once, whatever its operands report. -/
theorem pass2Line_instr_counts (hk : pl.kind = .instr) :
    let out := pass2Line opt sym src pl
    out.nErrors ≤ out.diags.length ∧ (out.nErrors = out.diags.length ↔
      (resolveOperands sym pl.lineNo pl.instr).2.length ≤ 1) := by
  unfold pass2Line
  rw [hk]
  simp only
  cases hres : resolveOperands sym pl.lineNo pl.instr with
  | mk i ds =>
    cases ds with
    | nil =>
      simp only
      split
      · exact ⟨Nat.le_refl _, iff_of_true rfl (Nat.zero_le _)⟩
      · exact ⟨Nat.le_refl _, iff_of_true rfl (Nat.zero_le _)⟩
    | cons d ds =>
      simp only [List.length_cons]
      omega

/-- An operand fails if its argument is undefined. -/
theorem resolveOperand_isSome (lines : List Bytes) (lineNo : Nat) {o : Operand} {a : Arg}
    (h : ArgOf o a) :
    (resolveOperand (pass1 lines).sym lineNo o).2.isSome = isUndefined lines a := by
  have hnone := (resolveOperand_argOf (pass1 lines).sym lineNo h).1
  cases a with
  | reg r =>
    rw [hnone.mpr rfl]
    rfl
  | imm v =>
    rw [hnone.mpr rfl]
    rfl
  | name n =>
    have henv := (envOf_eq_none (t := (pass1 lines).sym)).trans (pass1_lookup_iff lines n)
    rw [isUndefined, Bool.eq_iff_iff, decide_eq_true_iff, ← henv, ← not_iff_not,
      Bool.not_eq_true, Option.isSome_eq_false_iff, Option.isNone_iff_eq_none, hnone, Arg.resolve,
      Option.isSome_map, Option.isSome_iff_ne_none]

/-- As many operands fail as arguments are undefined. -/
theorem resolveOperands_length (lines : List Bytes) {m : Bytes} {args : List Arg}
    (hof : CmdOf pl (.instr m args)) (lineNo : Nat) :
    (resolveOperands (pass1 lines).sym lineNo pl.instr).2.length =
      (undefinedArgs lines args).length := by
  obtain ⟨-, -, hmax, hnops, hops⟩ := hof
  have hlen : ((List.finRange 3).take pl.instr.nops).length = args.length := by
    rw [List.length_take, List.length_finRange, hnops, Nat.min_eq_left hmax]
  have hboth : List.Forall₂ (fun k a => ArgOf (pl.instr.ops k) a)
      ((List.finRange 3).take pl.instr.nops) args := by
    refine List.forall₂_iff_get.mpr ⟨hlen, fun i hi hi' => ?_⟩
    apply hops _ _
    simp [List.getElem?_eq_getElem hi']
  exact Traverse.length_filterMap_eq
    (hboth.imp fun k a harg => resolveOperand_isSome lines lineNo harg)

end Pass2

/-! ## A source

No row has fewer diagnostics than errors, so the two sums are equal exactly if all rows are even. -/

/-- No instruction on the line has two arguments that name no symbol. A line that is no statement
meets it, since none of its operands is looked up. -/
def AtMostOneUndefined (lines : List Bytes) (src : Bytes) : Prop :=
  ∀ s, ReadsAs src s → ∀ m args, s.cmd = .instr m args → (undefinedArgs lines args).length ≤ 1

section Rows

variable (opt : AsmOptions) {lines : List Bytes} {r : Bytes × ParsedLine}

/-- A row with a statement. -/
theorem row_counts_stmt {s : Stmt} (hs : ReadsAs r.1 s) (hof : StmtOf r.2 s) :
    (rowOut opt lines r).nErrors ≤ (rowOut opt lines r).diags.length ∧
    ((rowOut opt lines r).nErrors = (rowOut opt lines r).diags.length ↔
      AtMostOneUndefined lines r.1) := by
  rw [rowOut]
  by_cases hk : r.2.kind = .instr
  · obtain ⟨m, args, hcmd⟩ := cmd_of_instr hof.cmd hk
    obtain ⟨hle, hiff⟩ := pass2Line_instr_counts opt (pass1 lines).sym r.1 hk
    rw [resolveOperands_length lines (hcmd ▸ hof.cmd)] at hiff
    refine ⟨hle, hiff.trans ⟨fun h s' hs' m' args' hcmd' => ?_, fun h => h s hs m args hcmd⟩⟩
    obtain rfl := hs'.unique hs
    obtain ⟨-, rfl⟩ := Cmd.instr.inj (hcmd'.symm.trans hcmd)
    exact h
  · have heq := pass2Line_counts opt (pass1 lines).sym r.1 hk
    refine ⟨Nat.le_of_eq heq, iff_of_true heq fun s' hs' m args hcmd => ?_⟩
    obtain rfl := hs'.unique hs
    have hinstr := hof.cmd
    rw [hcmd] at hinstr
    exact absurd hinstr.1 hk

/-- A row without one: no operand is in use. -/
theorem row_counts_rejected (hnops : r.2.instr.nops = 0) (hno : ∀ s, ¬ ReadsAs r.1 s) :
    (rowOut opt lines r).nErrors ≤ (rowOut opt lines r).diags.length ∧
    ((rowOut opt lines r).nErrors = (rowOut opt lines r).diags.length ↔
      AtMostOneUndefined lines r.1) := by
  have hfew : AtMostOneUndefined lines r.1 := fun s hs => absurd hs (hno s)
  rw [rowOut]
  by_cases hk : r.2.kind = .instr
  · obtain ⟨hle, hiff⟩ := pass2Line_instr_counts opt (pass1 lines).sym r.1 hk
    have hnil : (resolveOperands (pass1 lines).sym r.2.lineNo r.2.instr).2 = [] :=
      resolveOperands_nil_iff.mpr fun k hlt => absurd hlt (by rw [hnops]; exact Nat.not_lt_zero _)
    exact ⟨hle, iff_of_true (hiff.mpr (by rw [hnil]; exact Nat.zero_le _)) hfew⟩
  · have heq := pass2Line_counts opt (pass1 lines).sym r.1 hk
    exact ⟨Nat.le_of_eq heq, iff_of_true heq hfew⟩

theorem row_counts (hr : r ∈ rows lines) :
    (rowOut opt lines r).nErrors ≤ (rowOut opt lines r).diags.length ∧
    ((rowOut opt lines r).nErrors = (rowOut opt lines r).diags.length ↔
      AtMostOneUndefined lines r.1) := by
  obtain ⟨i, hi⟩ := List.mem_iff_getElem?.mp hr
  obtain ⟨hline, hparsed⟩ := List.getElem?_zip_eq_some.mp hi
  rcases accepts_or_rejected r.1 (i + 1) with ⟨pl, hacc⟩ | hrej
  · obtain ⟨a, hrec⟩ := pass1_record hline hacc
    obtain ⟨s, hs, hof⟩ := hacc.readsAs
    have hpl : r.2 = { pl with address := a } := Option.some.inj (hparsed.symm.trans hrec)
    exact row_counts_stmt opt hs (hpl ▸ ⟨hof.label, hof.cmd⟩)
  · apply row_counts_rejected opt (row_rejected hi hrej ▸ recordOf_nops hrej)
    intro s hs
    obtain ⟨pl, ⟨tl, hlex, hparse⟩, -⟩ := hs.accepts (i + 1)
    rw [Rejected, hlex, hparse] at hrej
    exact hrej.elim (fun h => h rfl) fun h => h rfl

end Rows

/-- Sums of terms that are in order are equal when the terms are. -/
theorem sum_eq_iff_of_le {α : Type} {l : List α} {f g : α → Nat} (hle : ∀ x ∈ l, f x ≤ g x) :
    (l.map f).sum = (l.map g).sum ↔ ∀ x ∈ l, f x = g x := by
  constructor
  · intro hsum x hx
    by_contra hne
    have hlt := List.sum_lt_sum f g hle ⟨x, hx, Nat.lt_of_le_of_ne (hle x hx) hne⟩
    exact absurd hsum (Nat.ne_of_lt hlt)
  · intro h
    rw [List.map_congr_left h]

theorem foldl_add_diags (outs : List LineOut) (st : Pass2) :
    (outs.foldl Pass2.add st).diags.length =
      st.diags.length + (outs.map fun out => out.diags.length).sum := by
  induction outs generalizing st with
  | nil => rfl
  | cons out outs ih =>
    rw [List.foldl_cons, ih, List.map_cons, List.sum_cons, ← Nat.add_assoc]
    exact congrArg (· + _) List.length_append

theorem diags_eq (opt : AsmOptions) (lines : List Bytes) :
    (assembleLines opt lines).diags.length = (pass1 lines).diags.length +
      ((rows lines).map fun r => (rowOut opt lines r).diags.length).sum := by
  have hsum := foldl_add_diags ((rows lines).map (rowOut opt lines))
    { nErrors := (pass1 lines).nErrors, diags := (pass1 lines).diags }
  rw [← pass2_eq, List.map_map] at hsum
  exact hsum

/-- **When `n_errors` is the number of diagnostics.** No hypothesis on the source: rejected lines
are counted and reported once, placed ones as often as they are at fault, and only an instruction
with two undefined names is reported more often than it is counted. -/
theorem nErrors_counts_iff (opt : AsmOptions) (lines : List Bytes) :
    (assembleLines opt lines).result.nErrors = (assembleLines opt lines).diags.length ↔
      ∀ src ∈ lines, AtMostOneUndefined lines src := by
  rw [nErrors_eq, diags_eq, pass1_counts, Nat.add_left_cancel_iff,
    sum_eq_iff_of_le fun r hr => (row_counts opt hr).1]
  conv_rhs => rw [← rows_fst lines]
  rw [List.forall_mem_map, rows_fst]
  exact forall₂_congr fun r hr => (row_counts opt hr).2

/-- Two undefined names on a line: two diagnostics, one error. -/
theorem nErrors_not_counts :
    let out := assembleLines {} [ascii "ADD R1, X, Y"]
    out.result.nErrors = 1 ∧ out.diags = [
      ⟨1, .undefinedLabel, ascii "label 'X' is not defined"⟩,
      ⟨1, .undefinedLabel, ascii "label 'Y' is not defined"⟩] ∧
    out.result.nErrors ≠ out.diags.length := by
  decide +kernel

end Proof
end EduCpu16
