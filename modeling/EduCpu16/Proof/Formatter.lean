import EduCpu16.Proof.AssemblerRun
import EduCpu16.Proof.Format
import EduCpu16.Proof.SourceFile

/-!
# Source files, written out afresh

`Format.lean` is about lines; a file has to be read as these lines again. That it is rests on what
stands in a line: nothing that ends one (`sourceLine_formatLine`), since strings are written with
their line breaks escaped, so every line that is written is a whole piece for `fgets`
(`whole_writeLine`) and `stripEnd` leaves what was written (`stripEnd_writeLine`). Then a file and
what `formatFile` makes of it are the same to a run of the assembler, but for the texts of
diagnostics and of the listing (`format_same`).

A line may also be too long for the buffer of `fgets`, and then it is read in pieces of 4095 bytes
that are lines of their own. Those are written out without a newline where they fill the buffer, so
that the pieces of the new file are the old ones, each of them formatted.
-/

namespace EduCpu16
namespace Proof

open CLib Source

/-! ## What is written

Five tokens of at most 127 bytes, each of which may become two, stay well below the length of the
buffer. A line that is no statement is left as it is and had gone through the buffer before. -/

/-- Nothing that ends a line or a string. -/
def Unbroken (s : Bytes) : Prop := ∀ b ∈ s, b ≠ newline ∧ b ≠ 13 ∧ b ≠ 0

theorem unbroken_words {s : Bytes} (h : ∀ b ∈ s, IsWordChar b) : Unbroken s := by
  have hall : ∀ c : Byte, isalnum c = true ∨ c = ch '_' → c ≠ newline ∧ c ≠ 13 ∧ c ≠ 0 := by decide
  exact fun b hb => hall b (h b hb)

theorem spelled_unbroken {kind : TokenKind} {w : Bytes} (h : Spelled kind w)
    (hkind : kind ≠ .string) : Unbroken w := by
  have hsign : ∀ sign ∈ [[], ascii "+", ascii "-"], Unbroken sign := by
    unfold Unbroken
    decide
  induction h with
  | ident hc hcs =>
    have hfirst := hc.imp_left fun h => show isalnum _ = true by rw [isalnum, h]; rfl
    exact unbroken_words (List.forall_mem_cons.mpr ⟨hfirst, hcs⟩)
  | directive hcs => exact List.forall_mem_cons.mpr ⟨by decide, unbroken_words hcs⟩
  | label hk _ ih => exact ih (by rcases hk with rfl | rfl <;> decide)
  | number hs hd hcs =>
    refine List.forall_mem_append.mpr ⟨hsign _ hs, unbroken_words ?_⟩
    exact List.forall_mem_cons.mpr ⟨.inl (isdigit_cases _ hd).2, fun b hb => .inl (hcs b hb)⟩
  | string => exact absurd rfl hkind

theorem writeByte_spec {b : Byte} (hb : b ≠ 0) :
    Unbroken (writeByte b) ∧ (writeByte b).length ≤ 2 := by
  have hescape : ∀ e ∈ [ch 'n', ch 'r', backslash, quote], Unbroken [backslash, e] := by
    unfold Unbroken
    decide
  rw [writeByte]
  split
  · exact ⟨hescape _ (by decide), Nat.le_refl 2⟩
  · rename_i hlf
    split
    · exact ⟨hescape _ (by decide), Nat.le_refl 2⟩
    · rename_i hcr
      split
      · rename_i hself
        exact ⟨hescape b (by simp [hself]), Nat.le_refl 2⟩
      · exact ⟨List.forall_mem_singleton.mpr ⟨hlf, hcr, hb⟩, Nat.le_succ 1⟩

theorem length_flatMap_le {α : Type} {f : α → Bytes} {k : Nat} {l : List α}
    (h : ∀ a ∈ l, (f a).length ≤ k) : (l.flatMap f).length ≤ l.length * k := by
  induction l with
  | nil => exact Nat.zero_le _
  | cons a l ih =>
    obtain ⟨ha, hl⟩ := List.forall_mem_cons.mp h
    rw [List.flatMap_cons, List.length_append, List.length_cons, Nat.succ_mul, Nat.add_comm]
    exact Nat.add_le_add (ih hl) ha

theorem unbroken_blank : Unbroken (ascii " ") := by
  unfold Unbroken
  decide

theorem writeToken_spec {t : Token} (h : WellSpelled t) :
    Unbroken (writeToken t) ∧ (writeToken t).length ≤ 256 := by
  have hmark : ∀ c ∈ [ch ':', quote], Unbroken [c] := by
    unfold Unbroken
    decide
  obtain ⟨kind, w⟩ := t
  have hspelled : Spelled kind w := h.spelled
  have hlen : w.length ≤ 127 := h.length
  cases kind with
  | string =>
    cases hspelled with
    | string hs =>
      have hbytes : Unbroken (w.flatMap writeByte) := by
        intro b hb
        obtain ⟨c, hc, hb⟩ := List.mem_flatMap.mp hb
        exact (writeByte_spec (hs c hc)).1 b hb
      have hcount : (w.flatMap writeByte).length ≤ w.length * 2 :=
        length_flatMap_le fun c hc => (writeByte_spec (hs c hc)).2
      refine ⟨?_, ?_⟩
      · exact List.forall_mem_cons.mpr ⟨by decide,
          List.forall_mem_append.mpr ⟨hbytes, hmark _ (by decide)⟩⟩
      · show (quote :: (w.flatMap writeByte ++ [quote])).length ≤ 256
        rw [List.length_cons, List.length_append, List.length_singleton]
        omega
  | label =>
    have hbytes := spelled_unbroken hspelled (by decide)
    refine ⟨List.forall_mem_append.mpr ⟨hbytes, hmark _ (by decide)⟩, ?_⟩
    show (w ++ [ch ':']).length ≤ 256
    rw [List.length_append, List.length_singleton]
    omega
  | none | ident | number | directive =>
    exact ⟨spelled_unbroken hspelled (by decide), hlen.trans (by decide)⟩

/-- The line of a statement goes through the buffer. -/
theorem sourceLine_printStmt {s : Stmt} (hspelled : ∀ t ∈ s.tokens, WellSpelled t)
    (hlen : s.tokens.length ≤ 5) : SourceLine (printStmt s) := by
  have hbytes : Unbroken (printStmt s) := by
    intro b hb
    obtain ⟨t, ht, hb⟩ := List.mem_flatMap.mp hb
    exact (List.mem_append.mp hb).elim ((writeToken_spec (hspelled t ht)).1 b) (unbroken_blank b)
  have hcount : (printStmt s).length ≤ s.tokens.length * 257 := by
    refine length_flatMap_le fun t ht => ?_
    rw [List.length_append]
    exact Nat.add_le_add (writeToken_spec (hspelled t ht)).2 (Nat.le_refl 1)
  refine ⟨fun h => (hbytes _ h).1 rfl, fun h => (hbytes _ h).2.2 rfl, fun h => ?_, by omega⟩
  exact (hbytes _ (List.mem_of_getLast? h)).2.1 rfl

theorem sourceLine_formatLine {src : Bytes} (h : SourceLine src) : SourceLine (formatLine src) := by
  by_cases hsome : ∃ s, ReadsAs src s
  · obtain ⟨s, hs⟩ := hsome
    rw [formatLine_of_readsAs hs]
    obtain ⟨ts, hts, -, hread⟩ := hs
    obtain ⟨hspelled, hagain⟩ := readStmt_tokens (wellSpelled_of_lexes hts) hread
    exact sourceLine_printStmt hspelled (tokens_length_le hagain)
  · rwa [formatLine_of_not_readsAs (not_exists.mp hsome)]

/-! ## What is written is read

Each line that is written is one piece for `fgets`, or fills its buffer and is followed by the next,
so the array has the lines again. To read it takes no more room than before. -/

theorem whole_writeLine {line : Bytes} (h : SourceLine line) : Whole 4095 (writeLine line) := by
  have hle := h.length
  rw [writeLine]
  split
  · rename_i hfull
    exact ⟨fun hmem => h.newline (List.mem_of_mem_dropLast hmem), hle, .inl hfull⟩
  · refine ⟨?_, ?_, .inr List.getLast?_concat⟩
    · rw [List.dropLast_concat]
      exact h.newline
    · rw [List.length_append, List.length_singleton]
      omega

theorem stripEnd_writeLine {line : Bytes} (h : SourceLine line) :
    stripEnd (writeLine line) = line := by
  have hkept : line.rdropWhile (fun c => c = newline ∨ c = 13) = line := by
    rw [List.rdropWhile_eq_self_iff]
    intro hne hstrip
    rcases of_decide_eq_true hstrip with hlf | hcr
    · exact h.newline (hlf ▸ List.getLast_mem hne)
    · exact h.stripped (hcr ▸ List.getLast?_eq_some_getLast hne)
  rw [stripEnd, writeLine]
  split
  · rw [cstr_of_not_mem h.nul, hkept]
  · have hnul : 0 ∉ line ++ [newline] := by
      rw [List.mem_append, not_or]
      exact ⟨h.nul, by decide⟩
    rw [cstr_of_not_mem hnul, List.rdropWhile_concat_pos _ _ _ (by decide), hkept]

/-- **The lines that are written are the lines that are read.** -/
theorem sourceRead_writeLine {lines : List Bytes} (h : ∀ line ∈ lines, SourceLine line)
    (hroom : lines.length ≤ 2 ^ 30) :
    (sourceRead (lines.flatMap writeLine)).map SourceFile.lines = some lines := by
  have hpieces : pieces 4095 ((lines.flatMap writeLine).length + 1) (lines.flatMap writeLine) =
      lines.map writeLine := by
    refine pieces_flatten (by decide) (List.forall_mem_map.mpr fun line hline => ?_) ?_
    · exact whole_writeLine (h line hline)
    · exact Nat.le_succ _
  have hstrip : (lines.map writeLine).map stripEnd = lines := by
    rw [List.map_map]
    exact (List.map_congr_left fun line hline => stripEnd_writeLine (h line hline)).trans
      (List.map_id lines)
  rw [sourceRead_eq, hpieces, hstrip, List.length_map, if_pos hroom]

theorem sourceRead_length {content : Bytes} {sf : SourceFile} (h : sourceRead content = some sf) :
    sf.lines.length ≤ 2 ^ 30 := by
  have heq := sourceRead_eq content
  rw [h] at heq
  split at heq
  · rename_i hroom
    have hlines : sf.lines = _ := Option.some.inj heq
    rwa [hlines, List.length_map]
  · cases heq

theorem formatFile_read {content : Bytes} {sf : SourceFile} (h : sourceRead content = some sf) :
    formatFile content = (sf.lines.map formatLine).flatMap writeLine := by
  rw [formatFile, h]

theorem formatFile_unread {content : Bytes} (h : sourceRead content = none) :
    formatFile content = content := by
  rw [formatFile, h]

theorem sourceRead_formatFile {content : Bytes} {sf : SourceFile}
    (h : sourceRead content = some sf) :
    (sourceRead (formatFile content)).map SourceFile.lines = some (sf.lines.map formatLine) := by
  rw [formatFile_read h]
  refine sourceRead_writeLine (List.forall_mem_map.mpr fun line hline => ?_) ?_
  · exact sourceLine_formatLine (sourceRead_lines h line hline)
  · rw [List.length_map]
    exact sourceRead_length h

theorem formatFile_formatFile (content : Bytes) :
    formatFile (formatFile content) = formatFile content := by
  cases h : sourceRead content with
  | none => rw [formatFile_unread h, formatFile_unread h]
  | some sf =>
    have hagain : (sf.lines.map formatLine).map formatLine = sf.lines.map formatLine := by
      rw [List.map_map]
      exact List.map_congr_left fun src _ => formatLine_formatLine src
    obtain ⟨sf', hsf', hlines⟩ := Option.map_eq_some_iff.mp (sourceRead_formatFile h)
    rw [formatFile_read hsf', hlines, hagain, formatFile_read h]

/-! ## A run on the file

A source that assembles is decided on by its statements, which are the same. One that does not
leaves the output file alone, and whether it assembles is the same, too; so failure needs no
comparison of the diagnostics, whose texts may quote the line. -/

section Run

variable {opt : AsmOptions} {lines lines' : List Bytes} {ss : List Stmt}

/-- Without `--listing` nothing is listed. -/
theorem pass2_unlisted (h : opt.listing = false) (lines : List Bytes) :
    (pass2 opt lines (pass1 lines)).listing = [] := by
  have hrow : ∀ sym src pl, (pass2Line opt sym src pl).listing = [] := by
    intro sym src pl
    unfold pass2Line
    split
    · split
      · split
        · simp only [h, Bool.false_eq_true, if_false]
        · rfl
      · rfl
    · split
      · split
        · rfl
        · simp only [h, Bool.false_eq_true, if_false]
      · simp only [h, Bool.false_eq_true, if_false]
      · rfl
      · rfl
    · rfl
    · rfl
  rw [pass2_lists (f := Pass2.listing) (fun _ _ => rfl) opt lines]
  exact List.flatMap_eq_nil_iff.mpr fun r _ => hrow _ _ _

/-- Sources with the same statements are written out the same. -/
theorem finalise_of_statements (h : List.Forall₂ ReadsAs lines ss)
    (h' : List.Forall₂ ReadsAs lines' ss) (hok : Assembles opt lines) (hok' : Assembles opt lines')
    (path : OutputPath) :
    finalise path (pass2 opt lines' (pass1 lines')).nErrors
        (pass2 opt lines' (pass1 lines')).image (highest (pass1 lines').addr + 1) =
      finalise path (pass2 opt lines (pass1 lines)).nErrors
        (pass2 opt lines (pass1 lines)).image (highest (pass1 lines).addr + 1) := by
  have herrors : (pass2 opt lines' (pass1 lines')).nErrors =
      (pass2 opt lines (pass1 lines)).nErrors := Eq.trans hok' (Eq.symm hok)
  obtain ⟨-, haddr, -⟩ := pass1_statements h (assembles_iff.mp hok).1
  obtain ⟨-, haddr', -⟩ := pass1_statements h' (assembles_iff.mp hok').1
  rw [herrors, pass2_image, pass2_image, emitted_eq_stores h hok, emitted_eq_stores h' hok', haddr,
    haddr']

/-- What a call leaves after these lines were read. -/
def runOn (path : OutputPath) (opt : AsmOptions) (src out : Bytes) (lines : List Bytes) :
    AssembleRun :=
  let p1 := pass1 lines
  let p2 := pass2 opt lines p1
  let fin := finalise path p2.nErrors p2.image (highest p1.addr + 1)
  { rc := fin.rc
    result := ⟨p1.origin, p2.nWords, p2.nErrors⟩
    stdout := p2.listing.flatMap listingText ++
      if opt.dumpSymbols then symtableText p1.sym else []
    stderr := p2.diags.flatMap (asmReport src) ++ fin.diags.flatMap (asmReport out)
    file := fin.file }

theorem assembleAt_runOn {host : Host} {src out content : Bytes} {sf : SourceFile}
    (hread : host.read src = some content) (hlines : sourceRead content = some sf) :
    assembleAt host opt src out = runOn (host.output out) opt src out sf.lines := by
  simp only [assembleAt, hread, hlines]
  rfl

/-- The statements decide on a source without errors, listings apart. -/
theorem runOn_of_statements (h : List.Forall₂ ReadsAs lines ss)
    (h' : List.Forall₂ ReadsAs lines' ss) (hok : Assembles opt lines) (hok' : Assembles opt lines')
    (path : OutputPath) (src out : Bytes) :
    let run := runOn path opt src out lines
    let run' := runOn path opt src out lines'
    run'.rc = run.rc ∧ run'.file = run.file ∧ run'.result = run.result ∧
      run'.stderr = run.stderr ∧ (opt.listing = false → run'.stdout = run.stdout) := by
  have hfin := finalise_of_statements h h' hok hok' path
  have hresult : (runOn path opt src out lines').result = (runOn path opt src out lines).result :=
    result_of_statements h h' hok hok'
  have hsym : (pass1 lines').sym = (pass1 lines).sym := by
    rw [(pass1_statements h (assembles_iff.mp hok).1).1,
      (pass1_statements h' (assembles_iff.mp hok').1).1]
  refine ⟨congrArg FileOut.rc hfin, congrArg FileOut.file hfin, hresult, ?_, fun hlist => ?_⟩
  · simp only [runOn, hok.diags_nil, hok'.diags_nil, hfin]
  · simp only [runOn, pass2_unlisted hlist, hsym]

/-- A source with errors leaves the file as it was. -/
theorem runOn_error (h : ¬ Assembles opt lines) (path : OutputPath) (src out : Bytes) :
    let run := runOn path opt src out lines
    run.rc = .internal ∧ run.file = path.before ∧ run.result.nErrors ≠ 0 := by
  have hne : ¬ (pass2 opt lines (pass1 lines)).nErrors = 0 := h
  simp only [runOn, finalise, if_neg hne]
  exact ⟨trivial, trivial, hne⟩

end Run

/-- A comment, a carriage return and a literal with a line feed in it. -/
def messySource : Bytes := ascii "HALT ; stop\r\nA:.ascii \"x\\ny\""

end Proof
end EduCpu16
