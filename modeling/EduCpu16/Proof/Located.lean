import EduCpu16.Proof.AssemblerRun
import EduCpu16.Proof.Diagnostics

/-!
# Where the diagnostics point

Every diagnostic carries the number of the line it was made for: the lexer's and the parser's by
`lexLine_located` and `parseLine_located`, those of the passes because the record of a line keeps
its number (`row_located`). With that, the lines that are named are the lines at fault, and no
others (`diagnostics_name_faults`).

What it is for a line to be at fault is not said in terms of the passes' messages. `PlacedBehind`
and `Blameless` ask whether the line is a statement, whether it can be placed in the table the lines
before it make, and whether its command assembles in the table of all of them. The table is that of
pass 1 and not of an ideal one, so a line that fails because an earlier one went wrong is at fault,
as the assembler has it.
-/

namespace EduCpu16
namespace Proof

open CLib Source

/-! ## What is at fault

In terms of statements and of the table that the passes really have, so a fault has nothing to do
with the wording or the number of the diagnostics. -/

/-- Pass 1 has nothing to report about a line behind `pre`: it is a statement, the operand of a
`.org` is an address, and the table takes its names. The table is the one `pre` leaves, so a name
that is defined twice is the fault of the second line. -/
def PlacedBehind (pre : List Bytes) (src : Bytes) (s : Stmt) : Prop :=
  ReadsAs src s ∧ s.cmd.InRange ∧
    ∀ rc ∈ (insertAll (pass1 pre).sym (s.defs (pass1 pre).addr)).1, rc = .ok

/-- Nor has pass 2: the command assembles at its address, in the table of the whole source. Here
names may be defined anywhere, and the address is where pass 1 put the line. -/
def Blameless (lines pre : List Bytes) (src : Bytes) : Prop :=
  ∃ s, PlacedBehind pre src s ∧
    (s.cmd.words (envOf (pass1 lines).sym) (pass1 pre).addr).isSome = true

/-! ## The front end

Lexer and parser are given the number of the line and put it into every diagnostic they make. -/

def Located (n : Nat) (err : Option Diag) : Prop := ∀ d ∈ err, d.line = n

theorem located_none {n : Nat} : Located n none := fun d hd => by cases hd

theorem located_some {n : Nat} {code : AsmError} {msg : Bytes} :
    Located n (some ⟨n, code, msg⟩) := fun d hd => by cases hd; rfl

section FrontEnd

variable (lineNo : Nat)

theorem lexLoop_located (fuel : Nat) (p : Bytes) (toks : List Token) :
    Located lineNo (lexLoop lineNo fuel p toks).2 := by
  induction fuel generalizing p toks with
  | zero => exact located_none
  | succ fuel ih =>
    rw [lexLoop_succ]
    cases turn p with
    | stop => exact located_none
    | fail msg => exact located_some
    | token kind text rest =>
      simp only
      split
      · exact located_some
      · exact ih _ _

theorem lexLine_located (src : Bytes) : Located lineNo (lexLine src lineNo).2 :=
  lexLoop_located lineNo (src.length + 1) src []

theorem parseOperands_located (args : List Token) (out : ParsedLine) (n : Nat) :
    Located lineNo (parseOperands lineNo args out n).2 := by
  induction args generalizing out n with
  | nil => exact located_none
  | cons t ts ih =>
    unfold parseOperands
    split
    · split
      · exact located_some
      · exact ih _ _
    · exact located_some

variable (args : List Token) (out : ParsedLine)

theorem parseOrg_located : Located lineNo (parseOrg lineNo args out).2 := by
  unfold parseOrg
  split
  · exact located_some
  · simp only
    split
    · split
      · exact located_none
      · exact located_some
    · exact located_some

theorem parseWord_located : Located lineNo (parseWord lineNo args out).2 := by
  unfold parseWord
  split
  · exact located_some
  · simp only
    split
    · exact located_none
    · exact located_some

theorem parseAscii_located : Located lineNo (parseAscii lineNo args out).2 := by
  unfold parseAscii
  split
  · exact located_none
  · exact located_some

theorem parseEqu_located : Located lineNo (parseEqu lineNo args out).2 := by
  unfold parseEqu
  split
  · simp only
    split
    · exact located_some
    · exact located_none
  · exact located_some

theorem parseDirective_located (d : Token) :
    Located lineNo (parseDirective lineNo d args out).2 := by
  unfold parseDirective
  simp only
  split
  · exact parseOrg_located lineNo args _
  split
  · exact parseWord_located lineNo args _
  split
  · exact parseAscii_located lineNo args _
  split
  · exact parseEqu_located lineNo args _
  · exact located_some

theorem parseHead_located (head : Token) : Located lineNo (parseHead lineNo head args out).2 := by
  unfold parseHead
  split
  · exact parseDirective_located lineNo args out head
  · exact parseOperands_located lineNo args _ 0
  · exact located_some

end FrontEnd

theorem parseLine_located (tl : TokenLine) : Located tl.lineNo (parseLine tl).2 := by
  unfold parseLine
  simp only
  split
  · exact located_none
  · split
    · exact located_none
    · exact parseHead_located _ _ _ _
  · exact parseHead_located _ _ _ _

/-- And the record keeps the number. -/
theorem parseLine_lineNo (tl : TokenLine) : (parseLine tl).1.lineNo = tl.lineNo := by
  have hhead : ∀ head args (out : ParsedLine),
      (parseHead tl.lineNo head args out).1.lineNo = out.lineNo := by
    intro head args out
    obtain ⟨k, i, d, h⟩ := parseHead_frame tl.lineNo head args out
    rw [h]
  unfold parseLine
  simp only
  split
  · rfl
  · split
    · rfl
    · exact hhead _ _ _
  · exact hhead _ _ _

theorem Accepts.lineNo {src : Bytes} {n : Nat} {pl : ParsedLine} (h : Accepts src n pl) :
    pl.lineNo = n := by
  obtain ⟨tl, hlex, hparse⟩ := h
  have hrec := parseLine_lineNo tl
  rw [hparse] at hrec
  rw [hrec]
  exact (lexLine_iff.mp hlex).1

/-! ## Pass 1

Pass 1 reports a line at once, so its diagnostics are in order and can be split at any line
(`pass1_diags_snoc`). The induction adds lines at the end, since what a line reports depends on
those before it. -/

/-- The step reports on line `n` and on no other. -/
def ReportsOn (n : Nat) (st st' : Pass1) : Prop :=
  ∃ new, st'.diags = st.diags ++ new ∧ ∀ d ∈ new, d.line = n

section Reports

variable {n : Nat} {st st' st'' : Pass1}

theorem ReportsOn.of_eq (h : st'.diags = st.diags) : ReportsOn n st st' :=
  ⟨[], by rw [h, List.append_nil], fun d hd => absurd hd List.not_mem_nil⟩

theorem ReportsOn.trans (h : ReportsOn n st st') (h' : ReportsOn n st' st'') :
    ReportsOn n st st'' := by
  obtain ⟨new, heq, hline⟩ := h
  obtain ⟨new', heq', hline'⟩ := h'
  refine ⟨new ++ new', by rw [heq', heq, List.append_assoc], fun d hd => ?_⟩
  exact (List.mem_append.mp hd).elim (hline d) (hline' d)

theorem ReportsOn.report {d : Diag} (hd : d.line = n) : ReportsOn n st (st.report d) :=
  ⟨[d], rfl, fun _ hmem => List.mem_singleton.mp hmem ▸ hd⟩

theorem define_reportsOn (what name : Bytes) (addr : Word) :
    ReportsOn n st (st.define n what name addr) := by
  unfold Pass1.define
  split
  simp only
  split
  · exact .of_eq rfl
  · exact .report rfl

theorem placeLabel_reportsOn {pl : ParsedLine} (hpl : pl.lineNo = n) :
    ReportsOn n st (placeLabel st pl) := by
  unfold placeLabel
  split
  · exact hpl ▸ define_reportsOn _ _ _
  · exact .of_eq rfl

theorem placeBody_reportsOn {pl : ParsedLine} (hpl : pl.lineNo = n) :
    ReportsOn n st (placeBody st pl) := by
  unfold placeBody
  split
  · simp only
    split
    · exact .report hpl
    · split
      · exact .of_eq rfl
      · exact .of_eq rfl
  · split
    · exact hpl ▸ define_reportsOn _ _ _
    · exact .of_eq rfl

end Reports

/-- **A line of pass 1 reports on itself.** -/
theorem pass1Line_reportsOn (st : Pass1) (src : Bytes) :
    ReportsOn (st.parsed.length + 1) st (pass1Line st src) := by
  unfold pass1Line
  split
  · rename_i d hlex
    have hd := lexLine_located (st.parsed.length + 1) src d (by rw [hlex]; rfl)
    exact ⟨[d], rfl, fun d' hd' => List.mem_singleton.mp hd' ▸ hd⟩
  · rename_i tl hlex
    have htl := (lexLine_iff.mp hlex).1
    split
    · rename_i pl d hparse
      have hd := parseLine_located tl d (by rw [hparse]; rfl)
      exact ⟨[d], rfl, fun d' hd' => List.mem_singleton.mp hd' ▸ hd.trans htl⟩
    · rename_i pl hparse
      have hpl : pl.lineNo = st.parsed.length + 1 := Accepts.lineNo ⟨tl, hlex, hparse⟩
      rw [place_eq]
      refine ReportsOn.trans ?_ (placeBody_reportsOn hpl)
      refine ReportsOn.trans ?_ (placeLabel_reportsOn hpl)
      exact .of_eq rfl

/-- It reports when the line is no statement or cannot be placed. -/
theorem pass1Line_nErrors_iff (pre : List Bytes) (src : Bytes) :
    (pass1Line (pass1 pre) src).nErrors = (pass1 pre).nErrors ↔ ∃ s, PlacedBehind pre src s := by
  by_cases hread : ∃ s, ReadsAs src s
  · obtain ⟨s, hs⟩ := hread
    rw [(pass1Line_of_readsAs hs (pass1 pre)).1]
    constructor
    · intro h
      exact ⟨s, hs, h⟩
    · rintro ⟨s', hs', h⟩
      obtain rfl := hs'.unique hs
      exact h
  · refine iff_of_false (fun heq => ?_) fun ⟨s, hs, _⟩ => hread ⟨s, hs⟩
    rcases pass1Line_cases (pass1 pre) src with ⟨d, pl, hline⟩ | ⟨pl, hacc, -⟩
    · rw [hline] at heq
      exact Nat.succ_ne_self _ heq
    · obtain ⟨s, hs, -⟩ := hacc.readsAs
      exact hread ⟨s, hs⟩

theorem pass1_diags_snoc (pre : List Bytes) (src : Bytes) :
    ∃ new, (pass1 (pre ++ [src])).diags = (pass1 pre).diags ++ new ∧
      (∀ d ∈ new, d.line = pre.length + 1) ∧ (new = [] ↔ ∃ s, PlacedBehind pre src s) := by
  obtain ⟨new, heq, hline⟩ := pass1Line_reportsOn (pass1 pre) src
  rw [pass1_length] at hline
  refine ⟨new, by rw [pass1_snoc, heq], hline, ?_⟩
  -- Errors are counted one by one.
  have hcount := pass1_counts (pre ++ [src])
  rw [pass1_snoc, heq, List.length_append, ← pass1_counts pre] at hcount
  rw [← pass1Line_nErrors_iff, hcount, ← List.length_eq_zero_iff]
  omega

/-- A split of a list with one more element. -/
theorem exists_split_snoc {α : Type} {P : List α → α → Prop} {xs : List α} {x : α} :
    (∃ pre y post, xs ++ [x] = pre ++ y :: post ∧ P pre y) ↔
      (∃ pre y post, xs = pre ++ y :: post ∧ P pre y) ∨ P xs x := by
  constructor
  · rintro ⟨pre, y, post, heq, h⟩
    rcases List.eq_nil_or_concat post with rfl | ⟨post, z, rfl⟩
    · obtain ⟨rfl, hy⟩ := List.append_inj' heq rfl
      exact .inr ((List.cons.inj hy).1 ▸ h)
    · rw [List.concat_eq_append, ← List.cons_append, ← List.append_assoc] at heq
      exact .inl ⟨pre, y, post, (List.append_inj' heq rfl).1, h⟩
  · rintro (⟨pre, y, post, rfl, h⟩ | h)
    · exact ⟨pre, y, post ++ [x], by rw [List.append_assoc, List.cons_append], h⟩
    · exact ⟨xs, x, [], rfl, h⟩

/-- **The lines pass 1 names.** -/
theorem pass1_names (lines : List Bytes) (n : Nat) :
    (∃ d ∈ (pass1 lines).diags, d.line = n) ↔ ∃ pre src post, lines = pre ++ src :: post ∧
      n = pre.length + 1 ∧ ¬ ∃ s, PlacedBehind pre src s := by
  induction lines using List.reverseRecOn with
  | nil =>
    refine iff_of_false (fun ⟨d, hd, _⟩ => absurd hd List.not_mem_nil) ?_
    rintro ⟨pre, src, post, heq, -⟩
    exact absurd heq.symm (List.append_ne_nil_of_right_ne_nil _ (List.cons_ne_nil _ _))
  | append_singleton lines src ih =>
    obtain ⟨new, heq, hline, hnil⟩ := pass1_diags_snoc lines src
    rw [exists_split_snoc (P := fun pre src => n = pre.length + 1 ∧ ¬ ∃ s, PlacedBehind pre src s),
      ← ih, heq]
    simp only [List.mem_append, or_and_right, exists_or]
    apply or_congr_right
    rw [← hnil]
    constructor
    · rintro ⟨d, hd, rfl⟩
      exact ⟨hline d hd, List.ne_nil_of_mem hd⟩
    · rintro ⟨rfl, hne⟩
      obtain ⟨d, hd⟩ := List.exists_mem_of_ne_nil new hne
      exact ⟨d, hd, hline d hd⟩

theorem pass1_diags_le {lines : List Bytes} {d : Diag} (hd : d ∈ (pass1 lines).diags) :
    d.line ≤ lines.length := by
  obtain ⟨pre, src, post, rfl, hn, -⟩ := (pass1_names lines d.line).mp ⟨d, hd, rfl⟩
  rw [hn, List.length_append, List.length_cons]
  omega

/-- In order. -/
def InLineOrder (ds : List Diag) : Prop := ds.Pairwise fun d d' => d.line ≤ d'.line

theorem pass1_inLineOrder (lines : List Bytes) : InLineOrder (pass1 lines).diags := by
  induction lines using List.reverseRecOn with
  | nil => exact .nil
  | append_singleton lines src ih =>
    obtain ⟨new, heq, hline, -⟩ := pass1_diags_snoc lines src
    rw [heq]
    refine List.pairwise_append.mpr ⟨ih, ?_, fun d hd d' hd' => ?_⟩
    · refine List.pairwise_of_forall_mem_list fun d hd d' hd' => ?_
      rw [hline d hd, hline d' hd']
    · have hle := pass1_diags_le hd
      rw [hline d' hd']
      omega

/-! ## Pass 2

A row without a record is a line that pass 1 has reported; it has no number, and nothing to report.
-/

theorem resolveOperand_located (sym : Symtable) (n : Nat) (o : Operand) :
    Located n (resolveOperand sym n o).2 := by
  unfold resolveOperand
  split
  · exact located_none
  · simp only
    split
    · exact located_some
    · exact located_none

section Rows

variable (opt : AsmOptions) (sym : Symtable) (src : Bytes) (pl : ParsedLine)

theorem pass2Line_located : ∀ d ∈ (pass2Line opt sym src pl).diags, d.line = pl.lineNo := by
  intro d hd
  unfold pass2Line at hd
  split at hd
  · have hall : ∀ d' ∈ (resolveOperands sym pl.lineNo pl.instr).2, d'.line = pl.lineNo := by
      intro d' hd'
      obtain ⟨k, -, hk⟩ := List.mem_filterMap.mp hd'
      exact resolveOperand_located sym pl.lineNo _ d' hk
    split at hd
    · split at hd
      · cases hd
      · rw [List.mem_singleton.mp hd]
    · rename_i hres
      rw [hres] at hall
      exact hall d hd
  · split at hd
    · have hone := resolveOperand_located sym pl.lineNo pl.dir.value
      split at hd
      · rename_i d' hres
        rw [hres] at hone
        rw [List.mem_singleton.mp hd]
        exact hone d' rfl
      · cases hd
    · cases hd
    · cases hd
    · cases hd
  · cases hd
  · cases hd

theorem pass2Line_diags_nil_iff :
    (pass2Line opt sym src pl).diags = [] ↔ (pass2Line opt sym src pl).nErrors = 0 := by
  by_cases hk : pl.kind = .instr
  · have hle := (pass2Line_instr_counts opt sym src hk).1
    refine ⟨fun hnil => ?_, fun hzero => ?_⟩
    · rw [hnil] at hle
      exact Nat.le_zero.mp hle
    · exact pass2Line_quiet hzero
  · rw [pass2Line_counts opt sym src hk, List.length_eq_zero_iff]

end Rows

section Sources

variable {lines : List Bytes}

/-- The record of a line has its number, or nothing in it. -/
theorem row_lineNo {i : Nat} {r : Bytes × ParsedLine} (hr : (rows lines)[i]? = some r) :
    r.2.lineNo = i + 1 ∨ r.2 = {} := by
  obtain ⟨hline, hparsed⟩ := List.getElem?_zip_eq_some.mp hr
  rcases accepts_or_rejected r.1 (i + 1) with ⟨pl, hacc⟩ | hrej
  · obtain ⟨a, hrec⟩ := pass1_record hline hacc
    rw [Option.some.inj (hparsed.symm.trans hrec)]
    exact .inl hacc.lineNo
  · rw [row_rejected hr hrej, recordOf]
    split
    · exact .inl (parseLine_lineNo _)
    · exact .inr rfl

/-- **A line of pass 2 reports on itself.** -/
theorem row_located (opt : AsmOptions) {i : Nat} {r : Bytes × ParsedLine}
    (hr : (rows lines)[i]? = some r) : ∀ d ∈ (rowOut opt lines r).diags, d.line = i + 1 := by
  intro d hd
  have hline := pass2Line_located opt (pass1 lines).sym r.1 r.2 d hd
  rcases row_lineNo hr with hno | hempty
  · exact hline.trans hno
  · rw [rowOut, hempty] at hd
    cases hd

/-- It reports when the command does not assemble. -/
theorem row_quiet_iff (opt : AsmOptions) {pre post : List Bytes} {src : Bytes} {s : Stmt}
    (hlines : lines = pre ++ src :: post) (hs : ReadsAs src s) :
    ∃ r, (rows lines)[pre.length]? = some r ∧ ((rowOut opt lines r).diags = [] ↔
      (s.cmd.words (envOf (pass1 lines).sym) (pass1 pre).addr).isSome = true) := by
  obtain ⟨pl, hacc, hof⟩ := hs.accepts (pre.length + 1)
  have hrec : (pass1 (pre ++ src :: post)).parsed[pre.length]? =
      some { pl with address := (pass1 pre).addr } := pass1_parsed_get hacc
  have hline : lines[pre.length]? = some src := by
    rw [hlines, List.getElem?_append_right (Nat.le_refl _), Nat.sub_self]
    rfl
  rw [← hlines] at hrec
  have hat : RecordAt ((pass1 pre).addr, s) { pl with address := (pass1 pre).addr } :=
    ⟨rfl, hof.label, hof.cmd⟩
  refine ⟨(src, _), List.getElem?_zip_eq_some.mpr ⟨hline, hrec⟩, ?_⟩
  rw [rowOut, pass2Line_diags_nil_iff]
  exact (pass2Line_emits hat).1

/-- The diagnostics of pass 2, line by line. -/
def pass2Diags (opt : AsmOptions) (lines : List Bytes) : List Diag :=
  (rows lines).flatMap fun r => (rowOut opt lines r).diags

theorem assembleLines_diags (opt : AsmOptions) (lines : List Bytes) :
    (assembleLines opt lines).diags = (pass1 lines).diags ++ pass2Diags opt lines :=
  pass2_lists (f := Pass2.diags) (fun _ _ => rfl) opt lines

theorem pass2_inLineOrder (opt : AsmOptions) (lines : List Bytes) :
    InLineOrder (pass2Diags opt lines) := by
  refine List.pairwise_flatMap.mpr ⟨fun r hr => ?_, List.pairwise_iff_getElem.mpr ?_⟩
  · obtain ⟨i, hi⟩ := List.mem_iff_getElem?.mp hr
    refine List.pairwise_of_forall_mem_list fun d hd d' hd' => ?_
    rw [row_located opt hi d hd, row_located opt hi d' hd']
  · intro i j hi hj hlt d hd d' hd'
    have hat := row_located opt (List.getElem?_eq_getElem hi) d hd
    have hat' := row_located opt (List.getElem?_eq_getElem hj) d' hd'
    omega

theorem split_at {i : Nat} {src : Bytes} (h : lines[i]? = some src) :
    ∃ pre post, lines = pre ++ src :: post ∧ pre.length = i := by
  obtain ⟨hi, rfl⟩ := List.getElem?_eq_some_iff.mp h
  refine ⟨lines.take i, lines.drop (i + 1), ?_, List.length_take_of_le (Nat.le_of_lt hi)⟩
  rw [← List.drop_eq_getElem_cons hi, List.take_append_drop]

end Sources

/-- **The diagnostics name the lines at fault.** Those of pass 1 come first, then those of pass 2,
and each pass reports in the order of the lines. A line number is among them exactly if the line
with that number is not `Blameless`; how many diagnostics a line gets is another matter. -/
theorem diagnostics_name_faults (opt : AsmOptions) (lines : List Bytes) :
    let diags := (assembleLines opt lines).diags
    (diags = (pass1 lines).diags ++ pass2Diags opt lines ∧ InLineOrder (pass1 lines).diags ∧
      InLineOrder (pass2Diags opt lines)) ∧
    ∀ n, (∃ d ∈ diags, d.line = n) ↔ ∃ pre src post, lines = pre ++ src :: post ∧
      n = pre.length + 1 ∧ ¬ Blameless lines pre src := by
  intro diags
  have hdiags : diags = (pass1 lines).diags ++ pass2Diags opt lines :=
    assembleLines_diags opt lines
  refine ⟨⟨hdiags, pass1_inLineOrder lines, pass2_inLineOrder opt lines⟩, fun n => ?_⟩
  rw [hdiags]
  constructor
  · rintro ⟨d, hd, rfl⟩
    rcases List.mem_append.mp hd with hd | hd
    · obtain ⟨pre, src, post, hlines, hn, hno⟩ := (pass1_names lines d.line).mp ⟨d, hd, rfl⟩
      exact ⟨pre, src, post, hlines, hn, fun ⟨s, hs, _⟩ => hno ⟨s, hs⟩⟩
    · obtain ⟨r, hr, hd⟩ := List.mem_flatMap.mp hd
      obtain ⟨i, hi⟩ := List.mem_iff_getElem?.mp hr
      obtain ⟨pre, post, hlines, rfl⟩ := split_at (List.getElem?_zip_eq_some.mp hi).1
      refine ⟨pre, r.1, post, hlines, row_located opt hi d hd, ?_⟩
      rintro ⟨s, hs, hwords⟩
      obtain ⟨r', hr', hquiet⟩ := row_quiet_iff opt hlines hs.1
      obtain rfl := Option.some.inj (hi.symm.trans hr')
      rw [hquiet.mpr hwords] at hd
      exact absurd hd List.not_mem_nil
  · rintro ⟨pre, src, post, hlines, rfl, hfault⟩
    by_cases hplaced : ∃ s, PlacedBehind pre src s
    · -- Pass 1 is content, so the command is what does not assemble.
      obtain ⟨s, hs⟩ := hplaced
      obtain ⟨r, hr, hquiet⟩ := row_quiet_iff opt hlines hs.1
      have hne : (rowOut opt lines r).diags ≠ [] := fun hnil =>
        hfault ⟨s, hs, hquiet.mp hnil⟩
      obtain ⟨d, hd⟩ := List.exists_mem_of_ne_nil _ hne
      refine ⟨d, List.mem_append_right _ ?_, row_located opt hr d hd⟩
      exact List.mem_flatMap.mpr ⟨r, List.mem_of_getElem? hr, hd⟩
    · obtain ⟨d, hd, hn⟩ := (pass1_names lines _).mpr ⟨pre, src, post, hlines, rfl, hplaced⟩
      exact ⟨d, List.mem_append_left _ hd, hn⟩

end Proof
end EduCpu16
