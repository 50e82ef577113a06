import Mathlib.Data.Nat.Notation

/-!
# Well-nested calls and returns

A run makes a call, a return or something else at each of its steps, given as a function from
step numbers. `openCalls` is the stack of the calls that are still open, innermost first; a
return closes the innermost one, which is the call it matches.

`openCalls_induction` is the rule for invariants of the run that speak of the open calls.
-/

namespace Nesting

inductive Event
  | call | ret | other
  deriving DecidableEq, Repr

/-- The calls open before step `i`, by their step numbers, innermost first; `none` when an earlier
return had no call to close. -/
def openCalls (ev : Nat → Event) : Nat → Option (List Nat)
  | 0 => some []
  | i + 1 =>
      match openCalls ev i, ev i with
      | some st, .call => some (i :: st)
      | some (_ :: st), .ret => some st
      | some st, .other => some st
      | some [], .ret => none
      | none, _ => none

/-- Step `j` is the call that the return at step `i` closes. -/
def Matches (ev : Nat → Event) (j i : Nat) : Prop := ∃ st, openCalls ev i = some (j :: st)

/-- The first `n` steps are well nested, with at most `d` calls open at a time. -/
structure WellNested (ev : Nat → Event) (n d : Nat) : Prop where
  closed : openCalls ev n = some []
  depth : ∀ i ≤ n, ∀ st, openCalls ev i = some st → st.length ≤ d

variable {ev : Nat → Event}

/-- Invariants of a run and its open calls: true at the start, and kept by each kind of step. -/
theorem openCalls_induction {P : Nat → List Nat → Prop} (start : P 0 [])
    (call : ∀ i st, ev i = .call → openCalls ev i = some st → P i st → P (i + 1) (i :: st))
    (ret : ∀ i j st, ev i = .ret → openCalls ev i = some (j :: st) → P i (j :: st) →
      P (i + 1) st)
    (other : ∀ i st, ev i = .other → openCalls ev i = some st → P i st → P (i + 1) st) :
    ∀ i st, openCalls ev i = some st → P i st := by
  intro i
  induction i with
  | zero =>
    intro st h
    obtain rfl : [] = st := Option.some.inj h
    exact start
  | succ i ih =>
    intro st h
    rw [openCalls] at h
    cases ho : openCalls ev i with
    | none => simp [ho] at h
    | some open_ =>
      have hi := ih open_ ho
      cases he : ev i with
      | call =>
        obtain rfl : i :: open_ = st := by simpa [ho, he] using h
        exact call i open_ he ho hi
      | other =>
        obtain rfl : open_ = st := by simpa [ho, he] using h
        exact other i open_ he ho hi
      | ret =>
        cases open_ with
        | nil => simp [ho, he] at h
        | cons j rest =>
          obtain rfl : rest = st := by simpa [ho, he] using h
          exact ret i j rest he ho hi

/-- A call on the stack was made at its step number, on top of the calls below it. -/
theorem openCalls_suffix :
    ∀ i st, openCalls ev i = some st →
      ∀ j rest, j :: rest <:+ st → j < i ∧ ev j = .call ∧ openCalls ev j = some rest := by
  refine openCalls_induction ?_ ?_ ?_ ?_
  · intro j rest hsuf
    simp at hsuf
  · intro i st he ho ih j rest hsuf
    rcases List.suffix_cons_iff.mp hsuf with heq | hsuf
    · obtain ⟨rfl, rfl⟩ := List.cons.inj heq
      exact ⟨Nat.lt_succ_self j, he, ho⟩
    · obtain ⟨hj, hrest⟩ := ih j rest hsuf
      exact ⟨Nat.lt_succ_of_lt hj, hrest⟩
  · intro i k st _ _ ih j rest hsuf
    obtain ⟨hj, hrest⟩ := ih j rest (hsuf.trans (List.suffix_cons k st))
    exact ⟨Nat.lt_succ_of_lt hj, hrest⟩
  · intro i st _ _ ih j rest hsuf
    obtain ⟨hj, hrest⟩ := ih j rest hsuf
    exact ⟨Nat.lt_succ_of_lt hj, hrest⟩

/-- A matching call is a call, and an earlier one. -/
theorem Matches.call {j i : Nat} (h : Matches ev j i) : j < i ∧ ev j = .call := by
  obtain ⟨st, hst⟩ := h
  obtain ⟨hj, he, -⟩ := openCalls_suffix i _ hst j st (List.suffix_refl _)
  exact ⟨hj, he⟩

/-- Up to the end of a well-nested run, no return was without a call. -/
theorem openCalls_isSome_of_le {n : Nat} (h : (openCalls ev n).isSome) {i : Nat} (hi : i ≤ n) :
    (openCalls ev i).isSome := by
  induction n with
  | zero =>
    obtain rfl : i = 0 := Nat.le_zero.mp hi
    exact h
  | succ n ih =>
    rcases Nat.le_succ_iff.mp hi with hle | rfl
    · refine ih ?_ hle
      cases ho : openCalls ev n with
      | none => simp [openCalls, ho] at h
      | some st => rfl
    · exact h

/-- A return of a well-nested run matches a call. -/
theorem WellNested.matches {n d : Nat} (h : WellNested ev n d) {i : Nat} (hi : i < n)
    (he : ev i = .ret) : ∃ j, Matches ev j i := by
  have hsome : (openCalls ev (i + 1)).isSome :=
    openCalls_isSome_of_le (n := n) (by rw [h.closed]; rfl) hi
  rw [openCalls, he] at hsome
  cases ho : openCalls ev i with
  | none => simp [ho] at hsome
  | some st =>
    cases st with
    | nil => simp [ho] at hsome
    | cons j rest => exact ⟨j, rest, ho⟩

end Nesting
