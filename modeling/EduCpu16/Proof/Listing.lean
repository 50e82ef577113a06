import EduCpu16.Proof.AssemblerRun
import EduCpu16.Proof.Console
import EduCpu16.Proof.SourceFile

/-!
# What `--listing` prints

A listing has a line for every word of the image, with the address and the word in hex
(`assembleLines_listed`). The lines of the source are printed behind them and have no newline in
them, so the text can be taken apart again (`listing_tells`), and what a run prints on its standard
output tells its image (`listing_tells_image`).

It is a statement about any two runs: other hosts, other sources, other options besides `--listing`.
The files need not be equal: how long they are is up to the final location counter, which is not
printed, and to what a failing `fclose` has left; so one begins with the other.
-/

namespace EduCpu16
namespace Proof

open CLib Printed

/-! ## The words of a listing

Pass 2 stores a word and lists it in the same place, so the two lists are one. -/

/-- The address and the word of a line. -/
def listed : EduCpu16.Listing → Word × Word
  | .instr addr word _ => (addr, word)
  | .word addr word _ => (addr, word)
  | .ascii addr word => (addr, word)

/-- The listing, line by line. -/
theorem assembleLines_listing (opt : AsmOptions) (lines : List Bytes) :
    (assembleLines opt lines).listing =
      (rows lines).flatMap fun r => (rowOut opt lines r).listing :=
  pass2_lists (f := Pass2.listing) (fun _ _ => rfl) opt lines

section Listed

variable {opt : AsmOptions} (hlist : opt.listing = true)
include hlist

/-- Pass 2 lists what it stores. -/
theorem pass2Line_listed (sym : Symtable) (src : Bytes) (pl : ParsedLine) :
    (pass2Line opt sym src pl).listing.map listed = (pass2Line opt sym src pl).stores := by
  unfold pass2Line
  split
  · split
    · split
      · simp only [hlist, if_true]
        rfl
      · rfl
    · rfl
  · split
    · split
      · rfl
      · simp only [hlist, if_true]
        rfl
    · simp only [hlist, if_true, List.map_map]
      exact List.map_id _
    · rfl
    · rfl
  · rfl
  · rfl

theorem assembleLines_listed (lines : List Bytes) :
    (assembleLines opt lines).listing.map listed = emitted opt lines := by
  rw [assembleLines_listing, List.map_flatMap]
  exact List.flatMap_congr fun r _ => pass2Line_listed hlist _ r.1 r.2

end Listed

/-! ## The text

Address and word are printed with a fixed number of digits, and the line of the source is cut off at
the newline behind it. -/

/-- What a line has behind the word. -/
def listingTail : EduCpu16.Listing → Bytes
  | .instr _ _ src => ascii "   " ++ src
  | .word _ _ v => ascii "   ; .word " ++ signedDecimal v.toInt
  | .ascii _ _ => ascii "   ; .ascii"

def OneLine (l : EduCpu16.Listing) : Prop := newline ∉ listingTail l

theorem listingText_eq (l : EduCpu16.Listing) : listingText l =
    ascii "  " ++ (fmt04X (listed l).1 ++ (ascii "  " ++ (fmt04X (listed l).2 ++
      (listingTail l ++ [newline])))) := by
  have hnewline : ascii "\n" = [newline] := rfl
  cases l with
  | instr addr word src => simp only [listingText, listed, listingTail, hnewline, List.append_assoc]
  | word addr word v => simp only [listingText, listed, listingTail, hnewline, List.append_assoc]
  | ascii addr word =>
    have hend : ascii "   ; .ascii\n" = ascii "   ; .ascii" ++ [newline] := rfl
    simp only [listingText, listed, listingTail, hend, List.append_assoc]

/-- A line tells its word and where it ends. -/
theorem listingText_tells {l l' : EduCpu16.Listing} (hl : OneLine l) (hl' : OneLine l')
    {s t : Bytes} (h : listingText l ++ s = listingText l' ++ t) :
    listed l = listed l' ∧ s = t := by
  rw [listingText_eq, listingText_eq] at h
  simp only [List.append_assoc] at h
  obtain ⟨haddr, hrest⟩ := delimits_fmt04X (List.append_cancel_left h)
  obtain ⟨hword, hrest⟩ := delimits_fmt04X (List.append_cancel_left hrest)
  have htail : Delimits fun x : { xs : Bytes // newline ∉ xs } => x.val ++ [newline] :=
    delimits_of_mark Subtype.val_injective fun x => x.property
  simp only [← List.append_assoc] at hrest
  obtain ⟨-, hend⟩ := @htail ⟨_, hl⟩ ⟨_, hl'⟩ s t hrest
  exact ⟨Prod.ext haddr hword, hend⟩

/-- Behind the listing: something that does not look like a line of it. -/
def NotListed (s : Bytes) : Prop := s.head? ≠ some (ch ' ')

theorem listing_tells {ls ls' : List EduCpu16.Listing} (hls : ∀ l ∈ ls, OneLine l)
    (hls' : ∀ l ∈ ls', OneLine l) {s t : Bytes} (hs : NotListed s) (ht : NotListed t)
    (h : ls.flatMap listingText ++ s = ls'.flatMap listingText ++ t) :
    ls.map listed = ls'.map listed ∧ s = t := by
  have hhead : ∀ l rest, ((l :: rest).flatMap listingText ++ s).head? = some (ch ' ') ∧
      ((l :: rest).flatMap listingText ++ t).head? = some (ch ' ') := by
    intro l rest
    rw [List.flatMap_cons, listingText_eq]
    exact ⟨rfl, rfl⟩
  induction ls generalizing ls' with
  | nil =>
    cases ls' with
    | nil => exact ⟨rfl, h⟩
    | cons l' ls' =>
      have hat := (hhead l' ls').2
      rw [← h] at hat
      exact absurd hat hs
  | cons l ls ih =>
    cases ls' with
    | nil =>
      have hat := (hhead l ls).1
      rw [h] at hat
      exact absurd hat ht
    | cons l' ls' =>
      obtain ⟨hl, hls⟩ := List.forall_mem_cons.mp hls
      obtain ⟨hl', hls'⟩ := List.forall_mem_cons.mp hls'
      simp only [List.flatMap_cons, List.append_assoc] at h
      obtain ⟨hword, hrest⟩ := listingText_tells hl hl' h
      obtain ⟨hwords, hend⟩ := ih hls hls' hrest
      exact ⟨by rw [List.map_cons, List.map_cons, hword, hwords], hend⟩

/-! ## Lines without a newline

This holds of the lines of a file, which `fgets` has cut there, and of what pass 2 prints in their
place. -/

theorem signedDecimal_newline (v : Int) : newline ∉ signedDecimal v := by
  have hdigits : newline ∉ decimal v.natAbs := by
    intro hmem
    exact absurd ((decimal_digits v.natAbs).2 newline hmem) (by decide)
  unfold signedDecimal
  split
  · rw [List.mem_cons, not_or]
    exact ⟨by decide, hdigits⟩
  · exact hdigits

/-- A listing has the lines of the source in it, and no other text that could have a newline. -/
theorem pass2Line_oneLine (opt : AsmOptions) (sym : Symtable) {src : Bytes} (hsrc : newline ∉ src)
    (pl : ParsedLine) : ∀ l ∈ (pass2Line opt sym src pl).listing, OneLine l := by
  have hif : ∀ {ls : List EduCpu16.Listing}, (∀ l ∈ ls, OneLine l) →
      ∀ l ∈ (if opt.listing then ls else []), OneLine l := by
    intro ls hls
    split
    · exact hls
    · exact fun l hl => absurd hl List.not_mem_nil
  unfold pass2Line
  split
  · split
    · split
      · apply hif
        intro l hl
        rw [List.mem_singleton.mp hl, OneLine, listingTail, List.mem_append, not_or]
        exact ⟨by decide, hsrc⟩
      · exact fun l hl => absurd hl List.not_mem_nil
    · exact fun l hl => absurd hl List.not_mem_nil
  · split
    · split
      · exact fun l hl => absurd hl List.not_mem_nil
      · apply hif
        intro l hl
        rw [List.mem_singleton.mp hl, OneLine, listingTail, List.mem_append, not_or]
        exact ⟨by decide, signedDecimal_newline _⟩
    · apply hif
      intro l hl
      obtain ⟨s, -, rfl⟩ := List.mem_map.mp hl
      exact show newline ∉ ascii "   ; .ascii" by decide
    · exact fun l hl => absurd hl List.not_mem_nil
    · exact fun l hl => absurd hl List.not_mem_nil
  · exact fun l hl => absurd hl List.not_mem_nil
  · exact fun l hl => absurd hl List.not_mem_nil

theorem assembleLines_oneLine (opt : AsmOptions) {lines : List Bytes}
    (hlines : ∀ line ∈ lines, newline ∉ line) :
    ∀ l ∈ (assembleLines opt lines).listing, OneLine l := by
  rw [assembleLines_listing]
  intro l hl
  obtain ⟨r, hr, hl⟩ := List.mem_flatMap.mp hl
  have hsrc : r.1 ∈ lines := by
    rw [← rows_fst lines]
    exact List.mem_map_of_mem hr
  exact pass2Line_oneLine opt _ (hlines r.1 hsrc) r.2 l hl

/-! ## A run

Behind the listing the standard output goes on with the symbol table, if it was asked for, or with
nothing; in neither case with a blank, as every line of the listing does. -/

/-- The file holds the words of a successful run, and they are printed first. -/
theorem done_listing {host : Host} {opt : AsmOptions} {src out : Bytes}
    (hdone : (assemblerRun host opt src out).status = 0) :
    ∃ content sf, host.read src = some content ∧ sourceRead content = some sf ∧
      (∃ n k, (assemblerRun host opt src out).file out =
        some ((imageBytes (Stores.write (fun _ => 0) (emitted opt sf.lines)) n).take k)) ∧
      ∃ tail, NotListed tail ∧ (assemblerRun host opt src out).stdout =
        (assembleLines opt sf.lines).listing.flatMap listingText ++ tail := by
  obtain ⟨hends, hfile⟩ := assemblerRun_spec host opt src out
  rcases hends with ⟨⟨content, sf, hread, hlines, hok, hopen, hwrite⟩, -, -⟩ | ⟨-, hone, -⟩
  · have hrc : (assembleAt host opt src out).rc = .ok :=
      assembleAt_ok_iff.mpr ⟨content, sf, hread, hlines, hok, hopen, hwrite⟩
    refine ⟨content, sf, hread, hlines, ?_, ?_⟩
    · rw [hfile, Function.update_self, (assembleAt_read hread hlines).2,
        (assembleFile_written (host.output out) hok hopen hwrite).2]
      exact ⟨_, _, rfl⟩
    · have hstdout : (assembleAt host opt src out).stdout =
          (assembleLines opt sf.lines).listing.flatMap listingText ++
            if opt.dumpSymbols then symtableText (pass1 sf.lines).sym else [] := by
        simp only [assembleAt, hread, hlines]
        rfl
      rw [assemblerRun, if_pos ⟨hrc, (assembleAt_quiet hrc).1⟩]
      simp only [hstdout, List.append_assoc]
      refine ⟨_, ?_, rfl⟩
      -- The symbols start with a dash, the summary with a letter.
      unfold NotListed
      split
      · exact show some (ch '-') ≠ some (ch ' ') by decide
      · exact show some (ch 'a') ≠ some (ch ' ') by decide
  · cases hdone.symm.trans hone

/-- The words from address 0 on, more or fewer of them. -/
theorem imageBytes_le (image : Word → Word) {m n : Nat} (h : m ≤ n) :
    imageBytes image m <+: imageBytes image n := by
  obtain ⟨k, rfl⟩ := Nat.exists_eq_add_of_le h
  rw [imageBytes, imageBytes, List.range_add, List.flatMap_append]
  exact List.prefix_append _ _

/-- **A listing tells the image.** Two runs with `--listing` that succeed and print the same store
the same words, one after the other at the same addresses, and of the two output files one begins
with the other. -/
theorem listing_tells_image {host host' : Host} {opt opt' : AsmOptions} {src src' out out' : Bytes}
    (hlist : opt.listing = true) (hlist' : opt'.listing = true)
    (hdone : (assemblerRun host opt src out).status = 0)
    (hdone' : (assemblerRun host' opt' src' out').status = 0)
    (hsame : (assemblerRun host opt src out).stdout = (assemblerRun host' opt' src' out').stdout) :
    ∃ sf sf' file file', (host.read src).bind sourceRead = some sf ∧
      (host'.read src').bind sourceRead = some sf' ∧
      emitted opt sf.lines = emitted opt' sf'.lines ∧
      (assemblerRun host opt src out).file out = some file ∧
      (assemblerRun host' opt' src' out').file out' = some file' ∧
      (file <+: file' ∨ file' <+: file) := by
  obtain ⟨content, sf, hread, hlines, ⟨n, k, hfile⟩, tail, htail, hstdout⟩ := done_listing hdone
  obtain ⟨content', sf', hread', hlines', ⟨n', k', hfile'⟩, tail', htail', hstdout'⟩ :=
    done_listing hdone'
  rw [hstdout, hstdout'] at hsame
  have hone := assembleLines_oneLine opt fun _ h => (sourceRead_lines hlines _ h).newline
  have hone' := assembleLines_oneLine opt' fun _ h => (sourceRead_lines hlines' _ h).newline
  have hwords := (listing_tells hone hone' htail htail' hsame).1
  rw [assembleLines_listed hlist, assembleLines_listed hlist'] at hwords
  rw [← hwords] at hfile'
  refine ⟨sf, sf', _, _, by rw [hread]; exact hlines, by rw [hread']; exact hlines', hwords,
    hfile, hfile', ?_⟩
  apply List.prefix_or_prefix_of_prefix
  · exact (List.take_prefix _ _).trans (imageBytes_le _ (Nat.le_max_left n n'))
  · exact (List.take_prefix _ _).trans (imageBytes_le _ (Nat.le_max_right n n'))

/-- A blank line more. -/
theorem listing_tells_image_blank :
    let host := oneFile (ascii "a.s") (ascii "HALT")
    let host' := oneFile (ascii "a.s") (ascii "\nHALT")
    let opt : AsmOptions := ⟨true, false⟩
    ∃ sf sf' file file', (host.read (ascii "a.s")).bind sourceRead = some sf ∧
      (host'.read (ascii "a.s")).bind sourceRead = some sf' ∧
      emitted opt sf.lines = emitted opt sf'.lines ∧
      (assemblerRun host opt (ascii "a.s") (ascii "a.bin")).file (ascii "a.bin") = some file ∧
      (assemblerRun host' opt (ascii "a.s") (ascii "a.bin")).file (ascii "a.bin") = some file' ∧
      (file <+: file' ∨ file' <+: file) :=
  listing_tells_image rfl rfl (by decide +kernel) (by decide +kernel) (by decide +kernel)

end Proof
end EduCpu16
