import EduCpu16.Proof.AssemblerRun
import EduCpu16.Proof.SourceFile

/-!
# Ends of lines

A source with `\r\n` at the ends of its lines is the source with `\n` (`crlf_same`), as long as the
lines go through the buffer with the byte that they have more. The lines of the one file are those
of the other with the byte put in (`textLines_toCrlf`), and `stripEnd` takes it off again.

The bound on the lengths is needed: a line that just fills the buffer is read in one piece, and with
one byte more in two. Everything after reading is the same by equality of the arrays of lines, so
the theorem is about the whole call, diagnostics and all.
-/

namespace EduCpu16
namespace Proof

open CLib

/-- A carriage return before each newline. -/
def toCrlf (s : Bytes) : Bytes := s.flatMap fun c => if c = newline then [13, newline] else [c]

theorem toCrlf_cons_newline (s : Bytes) : toCrlf (newline :: s) = 13 :: newline :: toCrlf s := rfl

theorem toCrlf_cons {c : Byte} (hc : c ≠ newline) (s : Bytes) :
    toCrlf (c :: s) = c :: toCrlf s := by
  rw [toCrlf, List.flatMap_cons, if_neg hc]
  rfl

theorem toCrlf_append (s t : Bytes) : toCrlf (s ++ t) = toCrlf s ++ toCrlf t :=
  List.flatMap_append

theorem toCrlf_of_notMem {s : Bytes} (h : newline ∉ s) : toCrlf s = s := by
  induction s with
  | nil => rfl
  | cons c s ih =>
    rw [List.mem_cons, not_or] at h
    rw [toCrlf_cons (Ne.symm h.1), ih h.2]

theorem textLines_toCrlf (s : Bytes) : textLines (toCrlf s) = (textLines s).map toCrlf := by
  induction s with
  | nil => rfl
  | cons c s ih =>
    by_cases hc : c = newline
    · subst hc
      rw [toCrlf_cons_newline, textLines, if_neg (by decide), textLines, if_pos rfl, textLines,
        if_pos rfl, ih]
      rfl
    · rw [toCrlf_cons hc, textLines, if_neg hc, textLines, if_neg hc, ih]
      cases textLines s with
      | nil => exact congrArg (fun l => [l]) (toCrlf_cons hc []).symm
      | cons line lines => exact congrArg (· :: lines.map toCrlf) (toCrlf_cons hc line).symm

/-- A line is a text without newlines, with one behind it or none. -/
theorem line_cases {line : Bytes} (h : newline ∉ line.dropLast) :
    newline ∉ line ∨ ∃ body, newline ∉ body ∧ line = body ++ [newline] := by
  cases line using List.reverseRecOn with
  | nil => exact .inl List.not_mem_nil
  | append_singleton body c =>
    rw [List.dropLast_concat] at h
    by_cases hc : c = newline
    · exact .inr ⟨body, h, by rw [hc]⟩
    · left
      intro hmem
      rcases List.mem_append.mp hmem with hbody | hlast
      · exact h hbody
      · exact hc (List.mem_singleton.mp hlast).symm

theorem stripEnd_toCrlf {line : Bytes} (h : newline ∉ line.dropLast) :
    stripEnd (toCrlf line) = stripEnd line := by
  rcases line_cases h with hno | ⟨body, hbody, rfl⟩
  · rw [toCrlf_of_notMem hno]
  · rw [toCrlf_append, toCrlf_of_notMem hbody, stripEnd, stripEnd]
    by_cases hzero : 0 ∈ body
    · obtain ⟨rest, hrest⟩ := cstr_append_of_mem hzero
      rw [hrest, List.append_assoc, List.append_assoc, List.cons_append, List.cons_append,
        cstr_append_zero, cstr_append_zero]
    · have hcrlf : toCrlf [newline] = [13] ++ [newline] := rfl
      have hlf : (0 : Byte) ≠ newline := by decide
      have hcr : (0 : Byte) ≠ 13 := by decide
      have hzero' : 0 ∉ body ++ [newline] := by
        simp only [List.mem_append, List.mem_singleton, hzero, hlf, or_self, not_false_eq_true]
      have hzero'' : 0 ∉ body ++ [13] ++ [newline] := by
        simp only [List.mem_append, List.mem_singleton, hzero, hlf, hcr, or_self,
          not_false_eq_true]
      rw [hcrlf, ← List.append_assoc, cstr_of_not_mem hzero', cstr_of_not_mem hzero'',
        List.rdropWhile_concat_pos _ _ _ (by decide), List.rdropWhile_concat_pos _ _ _ (by decide),
        List.rdropWhile_concat_pos _ _ _ (by decide)]

theorem toCrlf_length {line : Bytes} (h : newline ∉ line.dropLast) :
    (toCrlf line).length ≤ line.length + 1 := by
  rcases line_cases h with hno | ⟨body, hbody, rfl⟩
  · rw [toCrlf_of_notMem hno]
    exact Nat.le_succ _
  · rw [toCrlf_append, toCrlf_of_notMem hbody, List.length_append, List.length_append]
    exact Nat.le_refl _

/-- **The array of lines is the same.** -/
theorem sourceRead_toCrlf {content : Bytes}
    (hfits : ∀ line ∈ textLines content, line.length < 4095) :
    (sourceRead (toCrlf content)).map SourceFile.lines =
      (sourceRead content).map SourceFile.lines := by
  obtain ⟨-, hsame, -⟩ := pieces_spec (show 0 < 4095 by decide) (content.length + 1) content
    (Nat.le_succ _)
  obtain ⟨-, hsame', -⟩ := pieces_spec (show 0 < 4095 by decide) ((toCrlf content).length + 1)
    (toCrlf content) (Nat.le_succ _)
  have hfits' : ∀ line ∈ textLines (toCrlf content), line.length ≤ 4095 := by
    rw [textLines_toCrlf, List.forall_mem_map]
    intro line hline
    exact Nat.le_trans (toCrlf_length (newline_not_mem_dropLast line hline)) (hfits line hline)
  rw [sourceRead_eq, sourceRead_eq, hsame fun line hline => Nat.le_of_lt (hfits line hline),
    hsame' hfits', textLines_toCrlf, List.length_map, List.map_map]
  congr 2
  apply List.map_congr_left
  intro line hline
  exact stripEnd_toCrlf (newline_not_mem_dropLast line hline)

end Proof
end EduCpu16
