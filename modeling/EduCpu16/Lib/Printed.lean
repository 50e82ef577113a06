import Mathlib.Data.List.Basic
import Mathlib.Logic.Function.Basic

/-!
# Texts that can be taken apart again

A printer delimits its values if what it prints, with anything behind it, tells the value and where
the text ends. Printers of one length delimit if they are injective (`delimits_of_length`), fields
of any length do behind a mark that they do not contain (`delimits_of_mark`), and texts put together
from delimiting ones can be taken apart part by part (`Delimits.behind`, `delimits_list`).
-/

namespace Printed

variable {α γ ι : Type*}

/-- What is printed tells the value and where it ends. -/
def Delimits (p : α → List γ) : Prop := ∀ ⦃a b s t⦄, p a ++ s = p b ++ t → a = b ∧ s = t

/-- Something printed before. -/
theorem Delimits.before {p : α → List γ} (hp : Delimits p) (c : List γ) :
    Delimits fun a => c ++ p a := by
  intro a b s t h
  rw [List.append_assoc, List.append_assoc] at h
  exact hp (List.append_cancel_left h)

/-- Something printed behind, also of the value itself. -/
theorem Delimits.behind {p : α → List γ} (hp : Delimits p) (q : α → List γ) :
    Delimits fun a => p a ++ q a := by
  intro a b s t h
  rw [List.append_assoc, List.append_assoc] at h
  obtain ⟨rfl, hrest⟩ := hp h
  exact ⟨rfl, List.append_cancel_left hrest⟩

/-- Texts of one length. -/
theorem delimits_of_length {p : α → List γ} (n : Nat) (hlen : ∀ a, (p a).length = n)
    (hp : Function.Injective p) : Delimits p := by
  intro a b s t h
  obtain ⟨htext, hend⟩ := List.append_inj h ((hlen a).trans (hlen b).symm)
  exact ⟨hp htext, hend⟩

/-- Texts up to a mark that is not in them. -/
theorem delimits_of_mark {p : α → List γ} {c : γ} (hp : Function.Injective p)
    (hc : ∀ a, c ∉ p a) : Delimits fun a => p a ++ [c] := by
  have hsplit : ∀ {xs ys s t : List γ}, c ∉ xs → c ∉ ys → xs ++ c :: s = ys ++ c :: t →
      xs = ys ∧ s = t := by
    intro xs
    induction xs with
    | nil =>
      intro ys s t _ hys h
      cases ys with
      | nil => exact ⟨rfl, (List.cons.inj h).2⟩
      | cons y ys =>
        obtain ⟨rfl, -⟩ := List.cons.inj h
        exact absurd List.mem_cons_self hys
    | cons x xs ih =>
      intro ys s t hxs hys h
      cases ys with
      | nil =>
        obtain ⟨rfl, -⟩ := List.cons.inj h
        exact absurd List.mem_cons_self hxs
      | cons y ys =>
        obtain ⟨rfl, hrest⟩ := List.cons.inj h
        obtain ⟨rfl, hend⟩ := ih (fun hm => hxs (List.mem_cons_of_mem _ hm))
          (fun hm => hys (List.mem_cons_of_mem _ hm)) hrest
        exact ⟨rfl, hend⟩
  intro a b s t h
  simp only [List.append_assoc, List.singleton_append] at h
  obtain ⟨htext, hend⟩ := hsplit (hc a) (hc b) h
  exact ⟨hp htext, hend⟩

/-- A table, printed row by row. -/
theorem delimits_table {p : ι → α → List γ} (hp : ∀ i, Delimits (p i)) :
    ∀ (l : List ι) {f g : ι → α} {s t : List γ},
      l.flatMap (fun i => p i (f i)) ++ s = l.flatMap (fun i => p i (g i)) ++ t →
      (∀ i ∈ l, f i = g i) ∧ s = t
  | [], _, _, _, _, h => ⟨fun _ hi => absurd hi List.not_mem_nil, h⟩
  | i :: l, f, g, s, t, h => by
    rw [List.flatMap_cons, List.flatMap_cons, List.append_assoc, List.append_assoc] at h
    obtain ⟨hi, hrest⟩ := hp i h
    obtain ⟨hl, hend⟩ := delimits_table hp l hrest
    exact ⟨List.forall_mem_cons.mpr ⟨hi, hl⟩, hend⟩

/-- A list of values, none of which prints as nothing. -/
theorem delimits_list {p : α → List γ} (hp : Delimits p) (hne : ∀ a, p a ≠ []) :
    Function.Injective fun l : List α => l.flatMap p := by
  intro l
  induction l with
  | nil =>
    intro l' h
    cases l' with
    | nil => rfl
    | cons a l' => exact absurd (List.append_eq_nil_iff.mp h.symm).1 (hne a)
  | cons a l ih =>
    intro l' h
    cases l' with
    | nil => exact absurd (List.append_eq_nil_iff.mp h).1 (hne a)
    | cons b l' =>
      obtain ⟨rfl, hrest⟩ := hp h
      rw [ih hrest]

end Printed
