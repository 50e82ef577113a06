import Mathlib.Data.List.Induction
import Mathlib.Data.List.Nodup
import Mathlib.Logic.Function.Basic

/-!
# Sequences of stores into a memory

A memory is a total function from addresses to values, and a run of stores is the list of the
pairs written, in program order. `write` performs them; `last?` is the value a store to an
address left last. The memory after the stores holds, at each address, the last value stored
there or what it held before (`write_apply`).
-/

namespace Stores

variable {A V : Type*} [DecidableEq A]

/-- Perform the stores in order. -/
def write (m : A → V) (ss : List (A × V)) : A → V :=
  ss.foldl (fun m s => Function.update m s.1 s.2) m

/-- The value of the last store to `a`. -/
def last? (ss : List (A × V)) (a : A) : Option V :=
  (ss.reverse.find? (·.1 = a)).map Prod.snd

theorem write_append (m : A → V) (ss ts : List (A × V)) :
    write m (ss ++ ts) = write (write m ss) ts := by
  simp [write, List.foldl_append]

theorem last?_eq_none {ss : List (A × V)} {a : A} :
    last? ss a = none ↔ a ∉ ss.map Prod.fst := by
  simp only [last?, Option.map_eq_none_iff, List.find?_eq_none, List.mem_reverse, List.mem_map]
  constructor
  · rintro h ⟨s, hs, hsa⟩
    exact h s hs (by simpa using hsa)
  · intro h s hs hsa
    exact h ⟨s, hs, by simpa using hsa⟩

theorem mem_of_last?_eq_some {ss : List (A × V)} {a : A} {v : V} (h : last? ss a = some v) :
    (a, v) ∈ ss := by
  obtain ⟨⟨b, w⟩, hf, rfl⟩ := Option.map_eq_some_iff.mp h
  have hb : b = a := by simpa using List.find?_some hf
  exact hb ▸ List.mem_reverse.mp (List.mem_of_find?_eq_some hf)

/-- **The memory after the stores.** -/
theorem write_apply (m : A → V) (ss : List (A × V)) (a : A) :
    write m ss a = (last? ss a).getD (m a) := by
  induction ss using List.reverseRecOn with
  | nil => rfl
  | append_singleton ss s ih =>
    rw [write_append]
    by_cases hs : s.1 = a
    · subst hs
      simp [write, last?]
    · have hne : a ≠ s.1 := fun h => hs h.symm
      have hl : last? (ss ++ [s]) a = last? ss a := by simp [last?, hs]
      rw [hl, ← ih]
      simp [write, Function.update_of_ne hne]

/-- An address stored to once holds what was stored. -/
theorem last?_of_nodup {ss : List (A × V)} (hnd : (ss.map Prod.fst).Nodup) {a : A} {v : V}
    (hmem : (a, v) ∈ ss) : last? ss a = some v := by
  cases hl : last? ss a with
  | none => exact absurd (List.mem_map_of_mem (f := Prod.fst) hmem) (last?_eq_none.mp hl)
  | some w =>
    have hw := List.inj_on_of_nodup_map hnd (mem_of_last?_eq_some hl) hmem rfl
    simpa using congrArg Prod.snd hw

/-- So does the memory. -/
theorem write_of_nodup {m : A → V} {ss : List (A × V)} (hnd : (ss.map Prod.fst).Nodup) {a : A}
    {v : V} (hmem : (a, v) ∈ ss) : write m ss a = v := by
  rw [write_apply, last?_of_nodup hnd hmem, Option.getD_some]

theorem write_of_notMem {m : A → V} {ss : List (A × V)} {a : A} (h : a ∉ ss.map Prod.fst) :
    write m ss a = m a := by
  rw [write_apply, last?_eq_none.mpr h, Option.getD_none]

/-- Stores to other addresses, one for one. -/
theorem write_map {B : Type*} [DecidableEq B] {g : A → B} (hg : Function.Injective g) {m : A → V}
    {m' : B → V} {a : A} (h : m' (g a) = m a) (ss : List (A × V)) :
    write m' (ss.map (Prod.map g id)) (g a) = write m ss a := by
  induction ss using List.reverseRecOn with
  | nil => exact h
  | append_singleton ss s ih =>
    rw [List.map_append, write_append, write_append]
    by_cases hs : a = s.1
    · simp [write, hs]
    · have hne : g a ≠ g s.1 := fun heq => hs (hg heq)
      simpa [write, Function.update_of_ne hs, Function.update_of_ne hne] using ih

end Stores
