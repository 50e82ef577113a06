import Mathlib.Data.List.Basic

/-!
# Command lines

A command line is read item by item, an item being a few words. The loop that does it takes an item
off the front and applies it to what it has found so far, or refuses. What such a loop does is said
by the items alone: behind items that are applied it goes on with the rest
(`ItemLoop.loop_items`), and it stops only where no item follows or the one that does is refused
(`ItemLoop.loop_split`).
-/

namespace CommandLine

variable {α ι σ ρ : Type*}

/-- What items do one after the other. -/
def applyAll (apply : σ → ι → Option σ) (items : List ι) (s : σ) : Option σ :=
  items.foldlM apply s

/-- A loop over the words of items. -/
structure ItemLoop (words : ι → List α) (apply : σ → ι → Option σ)
    (loop : List α → σ → ρ) : Prop where
  nonempty : ∀ i, words i ≠ []
  item : ∀ {i rest s s'}, apply s i = some s' → loop (words i ++ rest) s = loop rest s'

/-- No item that would be applied comes next. -/
def Stuck (words : ι → List α) (apply : σ → ι → Option σ) (ws : List α) (s : σ) : Prop :=
  ∀ i rest, ws = words i ++ rest → apply s i = none

section

variable {words : ι → List α} {apply : σ → ι → Option σ} {loop : List α → σ → ρ}

theorem applyAll_cons (i : ι) (items : List ι) (s : σ) :
    applyAll apply (i :: items) s = (apply s i).bind (applyAll apply items) :=
  List.foldlM_cons

/-- **The loop gets past items that are applied.** -/
theorem ItemLoop.loop_items (h : ItemLoop words apply loop) {rest : List α} :
    ∀ {items : List ι} {s s' : σ}, applyAll apply items s = some s' →
      loop (items.flatMap words ++ rest) s = loop rest s' := by
  intro items
  induction items with
  | nil =>
    intro s s' happly
    obtain rfl := Option.some.inj happly
    rfl
  | cons i items ih =>
    intro s s' happly
    rw [applyAll_cons, Option.bind_eq_some_iff] at happly
    obtain ⟨t, hi, hrest⟩ := happly
    rw [List.flatMap_cons, List.append_assoc, h.item hi, ih hrest]

/-- **Every command line is items that are applied, and then one that is stuck.** -/
theorem ItemLoop.loop_split (h : ItemLoop words apply loop) : ∀ (n : Nat) (ws : List α) (s : σ),
    ws.length ≤ n → ∃ items rest s', ws = items.flatMap words ++ rest ∧
      applyAll apply items s = some s' ∧ Stuck words apply rest s' := by
  intro n
  induction n with
  | zero =>
    intro ws s hlen
    refine ⟨[], ws, s, rfl, rfl, fun i rest hws => ?_⟩
    rw [List.length_eq_zero_iff.mp (Nat.le_zero.mp hlen)] at hws
    exact absurd (List.append_eq_nil_iff.mp hws.symm).1 (h.nonempty i)
  | succ n ih =>
    intro ws s hlen
    by_cases hstuck : Stuck words apply ws s
    · exact ⟨[], ws, s, rfl, rfl, hstuck⟩
    · unfold Stuck at hstuck
      push Not at hstuck
      obtain ⟨i, rest, rfl, happly⟩ := hstuck
      obtain ⟨t, ht⟩ := Option.ne_none_iff_exists'.mp happly
      have hpos := List.length_pos_iff.mpr (h.nonempty i)
      rw [List.length_append] at hlen
      obtain ⟨items, rest', s', rfl, happly', hstuck'⟩ := ih rest t (by omega)
      refine ⟨i :: items, rest', s', ?_, ?_, hstuck'⟩
      · rw [List.flatMap_cons, List.append_assoc]
      · rw [applyAll_cons, ht, Option.bind_some, happly']

end

end CommandLine
