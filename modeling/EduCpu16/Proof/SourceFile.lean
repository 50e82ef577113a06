import EduCpu16.Assembler.SourceFile
import Mathlib.Algebra.Group.Defs
import Mathlib.Data.List.Infix

/-!
# The lines of a source file

The array of `source_read` holds the pieces `fgets` delivers, with the ends of lines taken off, as
long as its capacity is an `int` (`sourceLoop_eq`). These are the lines of the file if every line
goes through the buffer in one piece (`sourceRead_iff`).

The buffer has room for 4095 bytes and the NUL. A longer line is delivered in pieces, each of which
becomes a line of the array: the end of a long comment is read as a statement. The capacity doubles
from 64 on, and at `2 ^ 30` lines the next doubling has no room in an `int`.
-/

namespace EduCpu16
namespace Proof

open CLib

/-- A line without its newline and the carriage returns before it. -/
def chomp (line : Bytes) : Bytes :=
  (if line.getLast? = some newline then line.dropLast else line).rdropWhile (· = 13)

/-- What `source_read` should deliver. -/
def fileLines (content : Bytes) : List Bytes := (textLines content).map chomp

/-- The array was never full, or is one of the doubled ones. -/
def CapacityOk (sf : SourceFile) : Prop :=
  sf.capacity = 0 ∧ sf.lines = [] ∨
    ∃ k ≤ 24, sf.capacity = 64 * 2 ^ k ∧ sf.lines.length ≤ sf.capacity

theorem CapacityOk.length_le {sf : SourceFile} (h : CapacityOk sf) : sf.lines.length ≤ 2 ^ 30 := by
  rcases h with ⟨-, hnil⟩ | ⟨k, hk, hcap, hle⟩
  · rw [hnil]
    exact Nat.zero_le _
  · have hpow : 2 ^ k ≤ 2 ^ 24 := Nat.pow_le_pow_right (by decide) hk
    omega

/-- The array grows up to `2 ^ 30` lines. -/
theorem grow_spec {sf : SourceFile} (h : CapacityOk sf) (line : Bytes) :
    (sf.lines.length = 2 ^ 30 ∧ sf.grow = none) ∨
    (sf.lines.length < 2 ^ 30 ∧ ∃ cap, sf.grow = some { sf with capacity := cap } ∧
      CapacityOk { lines := sf.lines ++ [line], capacity := cap }) := by
  have hlen : (sf.lines ++ [line]).length = sf.lines.length + 1 := List.length_append
  rcases h with ⟨hcap, hnil⟩ | ⟨k, hk, hcap, hle⟩
  · right
    obtain ⟨lines, capacity⟩ := sf
    obtain rfl : capacity = 0 := hcap
    obtain rfl : lines = [] := hnil
    exact ⟨by decide, 64, rfl, .inr ⟨0, by decide, rfl, hlen.trans_le (show 1 ≤ 64 by decide)⟩⟩
  · have hpow : 2 ^ k ≤ 2 ^ 24 := Nat.pow_le_pow_right (by decide) hk
    by_cases hfull : sf.lines.length = sf.capacity
    · have hne : sf.capacity ≠ 0 := by
        have := Nat.two_pow_pos k
        omega
      rw [SourceFile.grow, if_pos hfull, if_pos hne]
      by_cases htop : k = 24
      · -- The next capacity would be `2 ^ 31`.
        left
        subst htop
        exact ⟨by omega, if_neg (by rw [hcap]; decide)⟩
      · right
        have hnext : 2 ^ (k + 1) ≤ 2 ^ 24 := Nat.pow_le_pow_right (by decide) (by omega)
        have hdouble : 2 ^ (k + 1) = 2 ^ k * 2 := pow_succ 2 k
        have hmax : intMax = 2147483647 := rfl
        refine ⟨by omega, _, if_pos (by omega), .inr ⟨k + 1, by omega, ?_, ?_⟩⟩
        · show sf.capacity * 2 = 64 * 2 ^ (k + 1)
          omega
        · show (sf.lines ++ [line]).length ≤ sf.capacity * 2
          omega
    · right
      rw [SourceFile.grow, if_neg hfull]
      refine ⟨by omega, sf.capacity, rfl, .inr ⟨k, hk, hcap, ?_⟩⟩
      show (sf.lines ++ [line]).length ≤ sf.capacity
      omega

/-- **The array**: the pieces of the file, if there is room for them. -/
theorem sourceLoop_eq : ∀ (fuel : Nat) (f : Bytes) (sf : SourceFile), CapacityOk sf →
    (sourceLoop fuel f sf).map SourceFile.lines =
      if sf.lines.length + (pieces 4095 fuel f).length ≤ 2 ^ 30 then
        some (sf.lines ++ (pieces 4095 fuel f).map stripEnd)
      else none := by
  intro fuel
  induction fuel with
  | zero =>
    intro f sf hcap
    rw [sourceLoop, pieces, List.length_nil, Nat.add_zero, if_pos hcap.length_le, List.map_nil,
      List.append_nil]
    rfl
  | succ fuel ih =>
    intro f sf hcap
    rw [sourceLoop, pieces, fgets]
    by_cases hf : f = []
    · rw [if_pos hf, if_pos hf, List.length_nil, Nat.add_zero, if_pos hcap.length_le,
        List.map_nil, List.append_nil]
      rfl
    · rw [if_neg hf, if_neg hf, List.length_cons]
      simp only [Nat.reduceSub]
      rcases grow_spec hcap (stripEnd (readLine 4095 f).1) with
        ⟨hfull, hgrow⟩ | ⟨hroom, cap, hgrow, hcap'⟩
      · rw [hgrow, if_neg (by omega)]
        rfl
      · have hlen : (sf.lines ++ [stripEnd (readLine 4095 f).1]).length =
            sf.lines.length + 1 := List.length_append
        rw [hgrow]
        simp only
        rw [ih _ _ hcap', hlen, List.map_cons, List.append_assoc, List.singleton_append]
        have hsum : sf.lines.length + 1 + (pieces 4095 fuel (readLine 4095 f).2).length =
            sf.lines.length + ((pieces 4095 fuel (readLine 4095 f).2).length + 1) := by omega
        rw [hsum]

theorem sourceRead_eq (content : Bytes) : (sourceRead content).map SourceFile.lines =
    if (pieces 4095 (content.length + 1) content).length ≤ 2 ^ 30 then
      some ((pieces 4095 (content.length + 1) content).map stripEnd)
    else none := by
  rw [sourceRead, sourceLoop_eq _ _ _ (.inl ⟨rfl, rfl⟩), List.length_nil, Nat.zero_add,
    List.nil_append]

/-! ## The ends of lines

`source_read` strips carriage returns and newlines from the end in one loop. On a piece that `fgets`
delivers the newline can only be the last byte, and then this is what `chomp` takes off. -/

theorem rdropWhile_congr {α : Type*} {p q : α → Bool} (l : List α) (h : ∀ a ∈ l, p a = q a) :
    l.rdropWhile p = l.rdropWhile q := by
  induction l using List.reverseRecOn with
  | nil => rfl
  | append_singleton l a ih =>
    obtain ⟨hl, ha⟩ := List.forall_mem_append.mp h
    rw [List.rdropWhile_concat, List.rdropWhile_concat, ha a (List.mem_singleton_self a), ih hl]

/-- A newline is at the end of its line. -/
theorem newline_not_mem_dropLast {s : Bytes} :
    ∀ line ∈ textLines s, newline ∉ line.dropLast := by
  have hboth : ∀ line ∈ textLines s, line ≠ [] ∧ newline ∉ line.dropLast := by
    apply textLines_forall
    · intro c
      exact ⟨List.cons_ne_nil _ _, List.not_mem_nil⟩
    · rintro c line hc ⟨hne, hline⟩
      refine ⟨List.cons_ne_nil _ _, ?_⟩
      rw [List.dropLast_cons_of_ne_nil hne, List.mem_cons, not_or]
      exact ⟨Ne.symm hc, hline⟩
  exact fun line hline => (hboth line hline).2

/-- What is stripped from a line is its end. -/
theorem stripEnd_eq_chomp {line : Bytes} (hnul : 0 ∉ line) (hend : newline ∉ line.dropLast) :
    stripEnd line = chomp line := by
  rw [stripEnd, cstr_of_not_mem hnul, chomp]
  -- Behind the newline, if there is one, the two loops look for the same.
  have hcr : ∀ {l : Bytes}, newline ∉ l →
      l.rdropWhile (fun c => c = newline ∨ c = 13) = l.rdropWhile (fun c => c = 13) := by
    intro l hl
    refine rdropWhile_congr l fun c hc => decide_eq_decide.mpr ?_
    have hne : c ≠ newline := fun h => hl (h ▸ hc)
    exact or_iff_right hne
  cases line using List.reverseRecOn with
  | nil => rfl
  | append_singleton l c =>
    rw [List.dropLast_concat] at hend
    rw [List.getLast?_concat, List.dropLast_concat]
    by_cases hc : c = newline
    · subst hc
      rw [List.rdropWhile_concat_pos _ _ _ (by decide), if_pos rfl, hcr hend]
    · rw [if_neg fun h => hc (Option.some.inj h)]
      apply hcr
      intro hmem
      rcases List.mem_append.mp hmem with hl | hl
      · exact hend hl
      · exact hc (List.mem_singleton.mp hl).symm

/-! ## The lines of the file

If a line does not fit there are more pieces than lines, so comparing the numbers is enough for the
second direction. -/

/-- A line that comes in pieces is more than one entry. -/
theorem fits_of_sourceRead {content : Bytes}
    (h : (sourceRead content).map SourceFile.lines = some (fileLines content)) :
    (∀ line ∈ textLines content, line.length ≤ 4095) ∧ (textLines content).length ≤ 2 ^ 30 := by
  obtain ⟨-, -, hmore⟩ := pieces_spec (show 0 < 4095 by decide) (content.length + 1) content
    (Nat.le_succ _)
  rw [sourceRead_eq] at h
  split at h
  · rename_i hroom
    have hlen := congrArg List.length (Option.some.inj h)
    rw [fileLines, List.length_map, List.length_map] at hlen
    refine ⟨?_, hlen ▸ hroom⟩
    by_contra hlong
    exact Nat.ne_of_gt (hmore hlong) hlen
  · cases h

/-- **When the array holds the lines of the file**: every line goes through the buffer in one
piece, and the capacity does not outgrow an `int`. -/
theorem sourceRead_iff {content : Bytes} (hnul : 0 ∉ content) :
    (sourceRead content).map SourceFile.lines = some (fileLines content) ↔
      (∀ line ∈ textLines content, line.length ≤ 4095) ∧ (textLines content).length ≤ 2 ^ 30 := by
  refine ⟨fits_of_sourceRead, ?_⟩
  rintro ⟨hfits, hroom⟩
  obtain ⟨-, hsame, -⟩ := pieces_spec (show 0 < 4095 by decide) (content.length + 1) content
    (Nat.le_succ _)
  rw [sourceRead_eq, hsame hfits, if_pos hroom, fileLines]
  refine congrArg some (List.map_congr_left fun line hline => ?_)
  have hzero : 0 ∉ line := fun h =>
    hnul (textLines_flatten content ▸ List.mem_flatten_of_mem hline h)
  exact stripEnd_eq_chomp hzero (newline_not_mem_dropLast line hline)

theorem sourceRead_iff_halt :
    (sourceRead (ascii "HALT\r\n\n; end")).map SourceFile.lines =
      some (fileLines (ascii "HALT\r\n\n; end")) :=
  (sourceRead_iff (by decide)).mpr (by decide)

/-- The end of a long comment is a line of its own. -/
theorem sourceRead_splits :
    (sourceRead (List.replicate 4095 (ch ';') ++ ascii "HALT" ++ [newline])).map
        SourceFile.lines ≠
      some (fileLines (List.replicate 4095 (ch ';') ++ ascii "HALT" ++ [newline])) := by
  have hline : newline ∉ List.replicate 4095 (ch ';') ++ ascii "HALT" := by
    intro hmem
    rcases List.mem_append.mp hmem with h | h
    · exact absurd (List.eq_of_mem_replicate h) (by decide)
    · exact absurd h (by decide)
  intro h
  obtain ⟨hfits, -⟩ := fits_of_sourceRead h
  rw [textLines_line hline, List.forall_mem_singleton] at hfits
  simp only [List.length_append, List.length_replicate, List.length_singleton] at hfits
  omega

/-! ## What a line can be

The converse of reading: texts of this form are what the array can hold, and a file that is written
from them is read as them again (`Formatter.lean`). -/

/-- The newline at the end is stripped. -/
theorem stripEnd_newline {buf : Bytes} (h : newline ∉ buf.dropLast) : newline ∉ stripEnd buf := by
  intro hmem
  have hne : stripEnd buf ≠ [] := List.ne_nil_of_mem hmem
  have hleft : stripEnd buf <+: buf :=
    (List.rdropWhile_prefix _ (cstr buf)).trans (List.takeWhile_prefix _)
  obtain ⟨rest, hrest⟩ := hleft
  -- What is left does not end in one, so it is before the end of the buffer.
  have hlast : (stripEnd buf).getLast hne ≠ newline := by
    intro heq
    apply List.rdropWhile_last_not _ (cstr buf) hne
    rw [decide_eq_true_iff]
    exact .inl heq
  have hinit : newline ∈ (stripEnd buf).dropLast := by
    rw [← List.dropLast_append_getLast hne, List.mem_append, List.mem_singleton] at hmem
    exact hmem.resolve_right (Ne.symm hlast)
  cases rest with
  | nil => exact h (by rwa [← hrest, List.append_nil])
  | cons c rest =>
    apply h
    rw [← hrest, List.dropLast_append_of_ne_nil (List.cons_ne_nil c rest)]
    exact List.mem_append_left _ (List.mem_of_mem_dropLast hinit)

/-- What the array can hold: no byte that ends a line or a string, none that would be stripped, and
no more than the buffer does. -/
structure SourceLine (line : Bytes) : Prop where
  newline : newline ∉ line
  nul : 0 ∉ line
  stripped : line.getLast? ≠ some 13
  length : line.length ≤ 4095

theorem sourceLine_stripEnd {piece : Bytes} (hinner : newline ∉ piece.dropLast)
    (hlen : piece.length ≤ 4095) : SourceLine (stripEnd piece) := by
  have hleft : stripEnd piece <+: cstr piece := List.rdropWhile_prefix _ _
  refine ⟨stripEnd_newline hinner, fun hmem => not_mem_cstr piece (hleft.subset hmem), ?_, ?_⟩
  · intro hlast
    obtain ⟨hne, hget⟩ := List.mem_getLast?_eq_getLast hlast
    apply List.rdropWhile_last_not _ (cstr piece) hne
    rw [decide_eq_true_iff]
    exact .inr hget.symm
  · exact (hleft.trans (List.takeWhile_prefix _)).length_le.trans hlen

theorem sourceRead_lines {content : Bytes} {sf : SourceFile} (h : sourceRead content = some sf) :
    ∀ line ∈ sf.lines, SourceLine line := by
  have heq := sourceRead_eq content
  rw [h] at heq
  split at heq
  · have hlines : sf.lines = _ := Option.some.inj heq
    intro line hline
    rw [hlines] at hline
    obtain ⟨piece, hpiece, rfl⟩ := List.mem_map.mp hline
    obtain ⟨hinner, hlen⟩ := pieces_spelled _ _ _ piece hpiece
    exact sourceLine_stripEnd hinner hlen
  · cases heq

end Proof
end EduCpu16
