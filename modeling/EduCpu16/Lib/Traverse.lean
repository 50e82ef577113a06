import Mathlib.Data.List.Forall2
import Mathlib.Data.Option.Basic

/-!
# Mapping a partial function over a list

`List.mapM` in `Option` succeeds when the function does on every element, and its result stands
element by element beside the list (`mapM_eq_some_iff`), so that `List.Forall₂` is the form to
reason about it in.
-/

namespace Traverse

variable {α β γ : Type} {f : α → Option β} {xs : List α} {ys : List β}

theorem mapM_eq_some_iff :
    xs.mapM f = some ys ↔ List.Forall₂ (fun x y => f x = some y) xs ys := by
  induction xs generalizing ys with
  | nil =>
    rw [List.mapM_nil, List.forall₂_nil_left_iff]
    exact ⟨fun h => (Option.some.inj h).symm, fun h => congrArg some h.symm⟩
  | cons x xs ih =>
    rw [List.mapM_cons, List.forall₂_cons_left_iff]
    constructor
    · intro h
      obtain ⟨y, hy, h⟩ := Option.bind_eq_some_iff.mp h
      obtain ⟨ys', hys, h⟩ := Option.bind_eq_some_iff.mp h
      exact ⟨y, ys', hy, ih.mp hys, (Option.some.inj h).symm⟩
    · rintro ⟨y, ys', hy, hys, rfl⟩
      rw [hy, ih.mpr hys]
      rfl

theorem isSome_mapM_iff : (xs.mapM f).isSome = true ↔ ∀ x ∈ xs, (f x).isSome = true := by
  induction xs with
  | nil => simp
  | cons x xs ih =>
    rw [List.forall_mem_cons, ← ih, List.mapM_cons]
    cases f x <;> cases xs.mapM f <;> simp

/-- Only the elements matter. -/
theorem mapM_congr {g : α → Option β} (h : ∀ x ∈ xs, f x = g x) : xs.mapM f = xs.mapM g := by
  induction xs with
  | nil => rfl
  | cons x xs ih =>
    rw [List.mapM_cons, List.mapM_cons, h x List.mem_cons_self,
      ih fun y hy => h y (List.mem_cons_of_mem _ hy)]

/-- The element of the list beside an element of the result. -/
theorem forall₂_getElem? {R : α → β → Prop} (h : List.Forall₂ R xs ys) {k : Nat} {y : β}
    (hy : ys[k]? = some y) : ∃ x, xs[k]? = some x ∧ R x y := by
  induction h generalizing k with
  | nil => simp at hy
  | cons hxy _ ih =>
    cases k with
    | zero =>
      obtain rfl := Option.some.inj hy
      exact ⟨_, rfl, hxy⟩
    | succ k => exact ih hy

/-- An element has one beside it. -/
theorem exists_right_of_mem {R : α → β → Prop} (h : List.Forall₂ R xs ys) {x : α} (hx : x ∈ xs) :
    ∃ y ∈ ys, R x y := by
  induction h with
  | nil => exact absurd hx List.not_mem_nil
  | cons hxy _ ih =>
    rcases List.mem_cons.mp hx with rfl | hx
    · exact ⟨_, List.mem_cons_self, hxy⟩
    · obtain ⟨y, hy, hR⟩ := ih hx
      exact ⟨y, List.mem_cons_of_mem _ hy, hR⟩

theorem exists_left_of_mem {R : α → β → Prop} (h : List.Forall₂ R xs ys) {y : β} (hy : y ∈ ys) :
    ∃ x ∈ xs, R x y :=
  exists_right_of_mem h.flip hy

/-- What stands beside two lists in a row is two lists in a row. -/
theorem forall₂_append_left {R : α → β → Prop} {xs' : List α}
    (h : List.Forall₂ R (xs ++ xs') ys) : ∃ zs zs', ys = zs ++ zs' ∧ List.Forall₂ R xs zs ∧
      List.Forall₂ R xs' zs' :=
  ⟨ys.take xs.length, ys.drop xs.length, (List.take_append_drop _ _).symm,
    (List.forall₂_take_append ys xs xs' h.flip).flip,
    (List.forall₂_drop_append ys xs xs' h.flip).flip⟩

/-- Lists made from elements side by side. -/
theorem flatMap_eq_of_forall₂ {f : α → List γ} {g : β → List γ}
    (h : List.Forall₂ (fun x y => f x = g y) xs ys) : xs.flatMap f = ys.flatMap g := by
  induction h with
  | nil => rfl
  | cons hxy _ ih => rw [List.flatMap_cons, List.flatMap_cons, hxy, ih]

/-- A list as much of which is kept as of the one beside it. -/
theorem length_filterMap_eq {f : α → Option γ} {p : β → Bool}
    (h : List.Forall₂ (fun x y => (f x).isSome = p y) xs ys) :
    (xs.filterMap f).length = (ys.filter p).length := by
  induction h with
  | nil => rfl
  | @cons x y xs ys hxy _ ih =>
    cases hf : f x with
    | none =>
      rw [hf] at hxy
      rw [List.filterMap_cons_none hf, List.filter_cons_of_neg (by simp [← hxy]), ih]
    | some z =>
      rw [hf] at hxy
      rw [List.filterMap_cons_some hf, List.filter_cons_of_pos (by simp [← hxy]),
        List.length_cons, List.length_cons, ih]

end Traverse
