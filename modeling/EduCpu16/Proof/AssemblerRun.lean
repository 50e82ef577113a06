import EduCpu16.Proof.AssemblerMain
import EduCpu16.Proof.Diagnostics
import EduCpu16.Proof.Output
import EduCpu16.Proof.SourceFile

/-!
# A run of the assembler

Where the output goes (`derived_output_path`), and what the exit status, the messages and the files
say about a run on a source (`assembler_exit_status`).

The calls on files may fail, and the environment chooses which do (`Host`). `assemble_file` looks at
`fopen` and `fwrite` and reports their failures. At `fgets` and at `fclose` it does not look: a read
error ends the source as its end would, and a `fclose` that loses bytes goes by unnoticed. So status
0 promises as much as `Delivered` says, and the file is right if those two did not fail either
(`done_files`). The proof goes through the return code (`assembleAt_ok_iff`): the status, the
messages and the file are all read off it.
-/

namespace EduCpu16
namespace Proof

open CLib CommandLine Source

/-! ## The output path

`derive_output_path` looks for the last dot and the last slash. Every path falls into one of two
kinds (`path_cases`), one with an extension and one without, and the two lemmas about them cover the
function. -/

theorem strrchr_eq_none {s : Bytes} {c : Byte} (h : c ∉ s) : strrchr s c = none := by
  induction s with
  | nil => rfl
  | cons a s ih =>
    obtain ⟨hne, hs⟩ := List.ne_and_not_mem_of_not_mem_cons h
    rw [strrchr, ih hs]
    exact if_neg fun heq => hne heq.symm

theorem strrchr_append {a b : Bytes} {c : Byte} (h : c ∉ b) :
    strrchr (a ++ c :: b) c = some a.length := by
  induction a with
  | nil =>
    rw [List.nil_append, strrchr, strrchr_eq_none h]
    exact if_pos rfl
  | cons d a ih =>
    rw [List.cons_append, strrchr, ih]
    rfl

/-- The last occurrence of a character. -/
theorem exists_last {s : Bytes} {c : Byte} (h : c ∈ s) : ∃ a b, s = a ++ c :: b ∧ c ∉ b := by
  obtain ⟨b, a, hsplit, hb⟩ := List.eq_append_cons_of_mem (List.mem_reverse.mpr h)
  refine ⟨a.reverse, b.reverse, ?_, fun hmem => hb (List.mem_reverse.mp hmem)⟩
  rw [← List.reverse_reverse s, hsplit, List.reverse_append, List.reverse_cons, List.append_assoc,
    List.singleton_append]

/-- The extension is replaced. -/
theorem deriveOutputPath_extension (base : Bytes) {ext : Bytes} (hdot : ch '.' ∉ ext)
    (hslash : ch '/' ∉ ext) :
    deriveOutputPath (base ++ ch '.' :: ext) = base ++ ascii ".bin" := by
  have hindex : strrchr (base ++ ch '.' :: ext) (ch '.') = some base.length := strrchr_append hdot
  have htail : ch '/' ∉ ch '.' :: ext := List.not_mem_cons_of_ne_of_not_mem (by decide) hslash
  rw [deriveOutputPath, hindex]
  by_cases hmem : ch '/' ∈ base
  · obtain ⟨a, b, rfl, hb⟩ := exists_last hmem
    have hlast : strrchr (a ++ ch '/' :: b ++ ch '.' :: ext) (ch '/') = some a.length := by
      rw [List.append_assoc, List.cons_append]
      exact strrchr_append (List.not_mem_append hb htail)
    have hlt : a.length < (a ++ ch '/' :: b).length := by
      rw [List.length_append, List.length_cons]
      omega
    rw [hlast]
    simp only [if_pos hlt, List.take_left]
  · rw [strrchr_eq_none (List.not_mem_append hmem htail)]
    simp only [List.take_left]

/-- A name without an extension gets one. -/
theorem deriveOutputPath_plain {dir name : Bytes}
    (hdir : dir = [] ∨ dir.getLast? = some (ch '/')) (hdot : ch '.' ∉ name)
    (hslash : ch '/' ∉ name) :
    deriveOutputPath (dir ++ name) = dir ++ name ++ ascii ".bin" := by
  by_cases hmem : ch '.' ∈ dir
  · obtain ⟨a, b, rfl, hb⟩ := exists_last hmem
    obtain ⟨d, hd⟩ : ∃ d, a ++ ch '.' :: b = d ++ [ch '/'] :=
      List.getLast?_eq_some_iff.mp (hdir.resolve_left (List.append_ne_nil_of_right_ne_nil _
        (List.cons_ne_nil _ _)))
    have hindex : strrchr (a ++ ch '.' :: b ++ name) (ch '.') = some a.length := by
      rw [List.append_assoc, List.cons_append]
      exact strrchr_append (List.not_mem_append hb hdot)
    have hlast : strrchr (a ++ ch '.' :: b ++ name) (ch '/') = some d.length := by
      rw [hd, List.append_assoc, List.singleton_append]
      exact strrchr_append hslash
    -- The dot is before the last slash.
    have hle : ¬ d.length < a.length := by
      have hlen := congrArg List.length hd
      rw [List.length_append, List.length_append, List.length_cons, List.length_singleton] at hlen
      omega
    rw [deriveOutputPath, hindex, hlast]
    exact if_neg hle
  · rw [deriveOutputPath, strrchr_eq_none (List.not_mem_append hmem hdot)]

/-- Every path is of one of the two kinds. -/
theorem path_cases (path : Bytes) :
    (∃ base ext, path = base ++ ch '.' :: ext ∧ ch '.' ∉ ext ∧ ch '/' ∉ ext) ∨
    ∃ dir name, path = dir ++ name ∧ (dir = [] ∨ dir.getLast? = some (ch '/')) ∧
      ch '.' ∉ name ∧ ch '/' ∉ name := by
  obtain ⟨dir, name, rfl, hdir, hslash⟩ : ∃ dir name, path = dir ++ name ∧
      (dir = [] ∨ dir.getLast? = some (ch '/')) ∧ ch '/' ∉ name := by
    by_cases hmem : ch '/' ∈ path
    · obtain ⟨a, b, rfl, hb⟩ := exists_last hmem
      refine ⟨a ++ [ch '/'], b, ?_, .inr List.getLast?_concat, hb⟩
      rw [List.append_assoc, List.singleton_append]
    · exact ⟨[], path, rfl, .inl rfl, hmem⟩
  by_cases hmem : ch '.' ∈ name
  · obtain ⟨a, b, rfl, hb⟩ := exists_last hmem
    refine .inl ⟨dir ++ a, b, (List.append_assoc _ _ _).symm, hb, fun h => hslash ?_⟩
    exact List.mem_append_right _ (List.mem_cons_of_mem _ h)
  · exact .inr ⟨dir, name, rfl, hdir, hmem, hslash⟩

/-- The output goes over its source exactly if the name says that it is a binary. -/
theorem deriveOutputPath_eq_self (path : Bytes) :
    deriveOutputPath path = path ↔ ascii ".bin" <:+ path := by
  have hbin : ∀ base : Bytes, deriveOutputPath (base ++ ascii ".bin") = base ++ ascii ".bin" := by
    have hdot : ch '.' ∉ ascii "bin" := by decide
    have hslash : ch '/' ∉ ascii "bin" := by decide
    exact fun base => deriveOutputPath_extension base hdot hslash
  rcases path_cases path with ⟨base, ext, rfl, hdot, hslash⟩ | ⟨dir, name, rfl, hdir, hdot, hslash⟩
  · rw [deriveOutputPath_extension base hdot hslash, List.append_cancel_left_eq]
    constructor
    · intro h
      exact ⟨base, by rw [h]⟩
    · rintro ⟨base', h⟩
      have hself := hbin base'
      rw [h, deriveOutputPath_extension base hdot hslash] at hself
      exact List.append_cancel_left hself
  · rw [deriveOutputPath_plain hdir hdot hslash]
    constructor
    · intro h
      have hlen := congrArg List.length h
      rw [List.length_append] at hlen
      exact absurd (Nat.add_eq_left.mp hlen) (by decide)
    · rintro ⟨base', h⟩
      have hself := hbin base'
      rwa [h, deriveOutputPath_plain hdir hdot hslash] at hself

/-! ## A run on a source

An error is counted where it is reported, line by line, so a count of zero at the end means that no
line reported anything; with the messages of `finalise` this gives the standard error. -/

section Run

variable {opt : AsmOptions} {lines : List Bytes}

/-- What the rows add to a list of pass 2. -/
theorem pass2_lists {α : Type} {f : Pass2 → List α} {g : LineOut → List α}
    (hadd : ∀ st out, f (st.add out) = f st ++ g out) (opt : AsmOptions) (lines : List Bytes) :
    f (pass2 opt lines (pass1 lines)) =
      f { nErrors := (pass1 lines).nErrors, diags := (pass1 lines).diags } ++
        (rows lines).flatMap fun r => g (rowOut opt lines r) := by
  have hfold : ∀ (outs : List LineOut) (st : Pass2),
      f (outs.foldl Pass2.add st) = f st ++ outs.flatMap g := by
    intro outs
    induction outs with
    | nil => exact fun st => (List.append_nil _).symm
    | cons out outs ih =>
      intro st
      rw [List.foldl_cons, ih, hadd, List.flatMap_cons, List.append_assoc]
  rw [pass2_eq, hfold, List.flatMap_map]

theorem pass2Line_quiet {sym : Symtable} {src : Bytes} {pl : ParsedLine}
    (h : (pass2Line opt sym src pl).nErrors = 0) : (pass2Line opt sym src pl).diags = [] := by
  apply List.eq_nil_of_length_eq_zero
  by_cases hk : pl.kind = .instr
  · obtain ⟨i, w, hres, henc, -⟩ := pass2Line_instr hk h
    unfold pass2Line
    simp only [hk, hres, henc, List.length_nil]
  · rw [← pass2Line_counts opt sym src hk, h]

/-- A source that assembles is not complained about. -/
theorem Assembles.diags_nil (h : Assembles opt lines) :
    (pass2 opt lines (pass1 lines)).diags = [] := by
  obtain ⟨hpass1, hrows⟩ := assembles_iff.mp h
  have hlen := diags_eq opt lines
  rw [← pass1_counts, hpass1, Nat.zero_add] at hlen
  apply List.eq_nil_of_length_eq_zero
  refine hlen.trans (List.sum_eq_zero fun n hn => ?_)
  obtain ⟨r, hr, rfl⟩ := List.mem_map.mp hn
  rw [rowOut, pass2Line_quiet (hrows r hr), List.length_nil]

theorem finalise_ok {path : OutputPath} {n : Nat} {image : Word → Word} {count : Word}
    (h : (finalise path n image count).rc = .ok) :
    n = 0 ∧ (finalise path n image count).diags = [] := by
  unfold finalise at h ⊢
  split at h
  · rename_i hn
    refine ⟨hn, ?_⟩
    rw [if_pos hn]
    split at h
    · rename_i hopen
      rw [if_pos hopen]
      simp only at h ⊢
      split at h
      · rename_i hok
        rw [if_pos hok]
      · cases h
    · cases h
  · cases h

end Run

/-- What a run has to bring off for its status to be 0: the source is opened, what `fgets` hands
over of it goes into the array of lines and assembles, the output is opened and every `fwrite`
succeeds. Two calls are not in it because `assemble_file` does not look at them. A failing `fgets`
is taken for the end of the source, so there is less of it, and what `fclose` answers is
dropped. -/
def Delivered (host : Host) (opt : AsmOptions) (src out : Bytes) : Prop :=
  ∃ content sf, host.read src = some content ∧ sourceRead content = some sf ∧
    Assembles opt sf.lines ∧ host.fopen out = true ∧
    ∀ w < writtenWords sf.lines, host.fwrite out w = true

/-- A file that can be opened is read to its end if no call fails. -/
theorem Host.read_all {host : Host} {path : Bytes} (hopen : host.readable path = true)
    (hfgets : ∀ i, host.fgets path i = true) : host.read path = host.file path := by
  rw [Host.read, if_pos hopen]
  cases host.file path with
  | none => rfl
  | some content => exact congrArg some (handedOver_all (by decide) hfgets 0 (Nat.le_succ _))

/-- The array of lines holds the pieces of the file, up to the call that fails. -/
theorem Host.read_lines {host : Host} {path content : Bytes} {sf : SourceFile}
    (hread : host.read path = some content) (hlines : sourceRead content = some sf) :
    ∃ file k, host.file path = some file ∧
      sf.lines = ((pieces 4095 (file.length + 1) file).take k).map stripEnd := by
  have hpos : 0 < 4095 := by decide
  rw [Host.read] at hread
  split at hread
  · obtain ⟨file, hfile, rfl⟩ := Option.map_eq_some_iff.mp hread
    obtain ⟨k, hk⟩ := pieces_handedOver hpos (host.fgets path) (file.length + 1) 0 file
    have hlen := handedOver_length (n := 4095) (host.fgets path) (file.length + 1) 0 file
    have heq := sourceRead_eq (handedOver 4095 (host.fgets path) (file.length + 1) 0 file)
    rw [hlines, pieces_fuel hpos (Nat.le_succ _) (Nat.le_succ_of_le hlen), hk] at heq
    split at heq
    · exact ⟨file, k, hfile, Option.some.inj heq⟩
    · cases heq
  · cases hread

section AssembleAt

variable {host : Host} {opt : AsmOptions} {src out content : Bytes} {sf : SourceFile}

theorem assembleAt_read (hread : host.read src = some content)
    (hlines : sourceRead content = some sf) :
    (assembleAt host opt src out).rc = (assembleFile (host.output out) opt sf.lines).rc ∧
    (assembleAt host opt src out).file = (assembleFile (host.output out) opt sf.lines).file := by
  simp only [assembleAt, hread, hlines, assembleFile]
  exact ⟨trivial, trivial⟩

/-- A source that could not be read. -/
theorem assembleAt_unread (h : ∀ content sf, host.read src = some content →
    sourceRead content ≠ some sf) :
    (assembleAt host opt src out).rc = .io ∧
    (assembleAt host opt src out).file = host.file out := by
  unfold assembleAt
  cases hread : host.read src with
  | none => exact ⟨rfl, rfl⟩
  | some content =>
    cases hlines : sourceRead content with
    | none =>
      simp only [hlines]
      exact ⟨trivial, trivial⟩
    | some sf => exact absurd hlines (h content sf hread)

theorem assembleAt_ok_iff :
    (assembleAt host opt src out).rc = .ok ↔ Delivered host opt src out := by
  by_cases h : ∃ content sf, host.read src = some content ∧ sourceRead content = some sf
  · obtain ⟨content, sf, hread, hlines⟩ := h
    rw [(assembleAt_read hread hlines).1]
    constructor
    · intro hrc
      by_cases hok : Assembles opt sf.lines
      · cases hopen : host.fopen out with
        | false =>
          have hclosed : (host.output out).fopen = false := hopen
          exact absurd hrc (assembleFile_closed (host.output out) opt sf.lines hclosed).1
        | true =>
          refine ⟨content, sf, hread, hlines, hok, hopen, ?_⟩
          by_contra hfail
          have hbroken : (host.output out).fopen = true := hopen
          rw [(assembleFile_broken (host.output out) hok hbroken hfail).1] at hrc
          cases hrc
      · rw [(assembleFile_error (host.output out) hok).1] at hrc
        cases hrc
    · rintro ⟨content', sf', hread', hlines', hok, hopen, hwrite⟩
      obtain rfl := Option.some.inj (hread.symm.trans hread')
      obtain rfl := Option.some.inj (hlines.symm.trans hlines')
      exact (assembleFile_written (host.output out) hok hopen hwrite).1
  · have hunread : ∀ content sf, host.read src = some content → sourceRead content ≠ some sf :=
      fun content sf hread hlines => h ⟨content, sf, hread, hlines⟩
    rw [(assembleAt_unread hunread).1]
    constructor
    · intro hrc
      cases hrc
    · rintro ⟨content, sf, hread, hlines, -⟩
      exact absurd hlines (hunread content sf hread)

/-- After `ERR_OK` nothing was reported. -/
theorem assembleAt_quiet (h : (assembleAt host opt src out).rc = .ok) :
    (assembleAt host opt src out).result.nErrors = 0 ∧
    (assembleAt host opt src out).stderr = [] := by
  obtain ⟨content, sf, hread, hlines, hok, -⟩ := assembleAt_ok_iff.mp h
  unfold assembleAt at h ⊢
  simp only [hread, hlines] at h ⊢
  obtain ⟨hzero, hdiags⟩ := finalise_ok h
  refine ⟨hzero, ?_⟩
  rw [hok.diags_nil, hdiags]
  rfl

/-- The output file is touched only if the source assembles. -/
theorem assembleAt_file (h : (assembleAt host opt src out).file ≠ host.file out) :
    ∃ content sf, host.read src = some content ∧ sourceRead content = some sf ∧
      Assembles opt sf.lines ∧ host.fopen out = true := by
  by_contra hnot
  by_cases hread : ∃ content sf, host.read src = some content ∧ sourceRead content = some sf
  · obtain ⟨content, sf, hread, hlines⟩ := hread
    rw [(assembleAt_read hread hlines).2] at h
    by_cases hok : Assembles opt sf.lines
    · cases hopen : host.fopen out with
      | false => exact h (assembleFile_closed (host.output out) opt sf.lines hopen).2
      | true => exact hnot ⟨content, sf, hread, hlines, hok, hopen⟩
    · exact h (assembleFile_error (host.output out) hok).2
  · have hunread : ∀ content sf, host.read src = some content → sourceRead content ≠ some sf :=
      fun content sf hc hl => hread ⟨content, sf, hc, hl⟩
    exact h (assembleAt_unread hunread).2

end AssembleAt

/-- The two ways a run on a source ends. -/
theorem assemblerRun_spec (host : Host) (opt : AsmOptions) (src out : Bytes) :
    ((Delivered host opt src out ∧ (assemblerRun host opt src out).status = 0 ∧
        (assemblerRun host opt src out).stderr = []) ∨
      ¬ Delivered host opt src out ∧ (assemblerRun host opt src out).status = 1 ∧
        (assemblerRun host opt src out).stderr ≠ []) ∧
    (assemblerRun host opt src out).file =
      Function.update host.file out (assembleAt host opt src out).file := by
  by_cases hrc : (assembleAt host opt src out).rc = .ok
  · obtain ⟨hzero, hquiet⟩ := assembleAt_quiet hrc
    rw [assemblerRun, if_pos ⟨hrc, hzero⟩]
    exact ⟨.inl ⟨assembleAt_ok_iff.mp hrc, rfl, hquiet⟩, rfl⟩
  · rw [assemblerRun, if_neg fun h => hrc h.1]
    refine ⟨.inr ⟨fun h => hrc (assembleAt_ok_iff.mpr h), rfl, ?_⟩, rfl⟩
    exact List.append_ne_nil_of_right_ne_nil _ (by decide)

/-- **What status 0 says of the files.** The lines that were assembled are the first ones of the
source, up to a read error; if there was none, and closing the output did not fail either, they are
all of its lines and the output is their file. -/
theorem done_files {host : Host} {opt : AsmOptions} {src out : Bytes}
    (h : Delivered host opt src out) :
    ∃ source sf k, host.file src = some source ∧ Assembles opt sf.lines ∧
      sf.lines = ((pieces 4095 (source.length + 1) source).take k).map stripEnd ∧
      ((∀ i, host.fgets src i = true) → host.fclose out = true → sourceRead source = some sf ∧
        (assemblerRun host opt src out).file out = (assembleLines opt sf.lines).bin) := by
  obtain ⟨content, sf, hread, hlines, hok, hopen, hwrite⟩ := h
  obtain ⟨source, k, hsource, hpieces⟩ := Host.read_lines hread hlines
  refine ⟨source, sf, k, hsource, hok, hpieces, fun hfgets hclose => ⟨?_, ?_⟩⟩
  · have hreadable : host.readable src = true := by
      by_contra hno
      rw [Host.read, if_neg hno] at hread
      cases hread
    rw [Host.read_all hreadable hfgets, hsource] at hread
    rwa [Option.some.inj hread]
  · rw [(assemblerRun_spec host opt src out).2, Function.update_self,
      (assembleAt_read hread hlines).2]
    exact assembleFile_bin (host.output out) hok hopen hwrite hclose

/-- A host with one file, on which no call fails. -/
def oneFile (path content : Bytes) : Host where
  file := Function.update (fun _ => none) path (some content)
  readable _ := true
  fgets _ _ := true
  fopen _ := true
  fwrite _ _ := true
  fclose _ := true
  reached _ := 0

theorem oneFile_read (path content : Bytes) : (oneFile path content).read path = some content := by
  rw [Host.read_all rfl fun _ => rfl]
  exact Function.update_self path (some content) fun _ => none

/-- Of a source that ends in a read error, what came before it is assembled. -/
example : (assemblerMain { oneFile (ascii "a.s") (ascii "HALT\n?") with fgets := fun _ i => i = 0 }
    (ascii "assembler") [ascii "a.s"]).status = 0 := by decide +kernel

/-- **The output path that is derived.** What follows the last dot of a file's name gives way to
`bin`, and a name without a dot gets `.bin`; and a source that is named alone is still there after
the run unless its name ends so. -/
theorem derived_output_path :
    (∀ base ext, ch '.' ∉ ext → ch '/' ∉ ext →
      deriveOutputPath (base ++ ch '.' :: ext) = base ++ ascii ".bin") ∧
    (∀ dir name, (dir = [] ∨ dir.getLast? = some (ch '/')) → ch '.' ∉ name → ch '/' ∉ name →
      deriveOutputPath (dir ++ name) = dir ++ name ++ ascii ".bin") ∧
    ∀ path : Bytes, (deriveOutputPath path = path ↔ ascii ".bin" <:+ path) ∧
      (path.head? ≠ some (ch '-') → ¬ ascii ".bin" <:+ path →
        ∀ host prog, (assemblerMain host prog [path]).file path = host.file path) := by
  refine ⟨fun base ext => deriveOutputPath_extension base,
    fun dir name => deriveOutputPath_plain, fun path => ⟨deriveOutputPath_eq_self path, ?_⟩⟩
  intro hhead hbin host prog
  have hmain : assemblerMain host prog [path] = assemblerRun host _ path (deriveOutputPath path) :=
    assemblerMain_items host prog (show sourcesOf [.source ⟨path, hhead⟩] = [path] from rfl)
  have hne : path ≠ deriveOutputPath path :=
    fun h => hbin ((deriveOutputPath_eq_self path).mp h.symm)
  rw [hmain, (assemblerRun_spec _ _ _ _).2, Function.update_of_ne hne]

end Proof
end EduCpu16
