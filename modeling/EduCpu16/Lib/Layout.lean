import Mathlib.Algebra.Ring.Nat
import Mathlib.Data.List.Nodup
import Mathlib.Data.List.Range
import Mathlib.Data.List.TakeWhile
import Mathlib.Tactic.SplitIfs

/-!
# Placing words with a location counter

A source is a list of items: an origin moves the counter, anything else takes a number of words
at the counter and moves it past them. The counter is a natural number here, so nothing wraps;
what a machine counter of a fixed width does is compared with this one.

`addrs` is where the words go, and `blocks` the stretches between one origin and the next. The
words go to different addresses exactly when no two blocks share an address
(`addrs_nodup_iff`), and they go upwards when no origin moves back (`addrs_sorted`).
-/

namespace Layout

inductive Item
  | org (v : Nat)
  | words (n : Nat)
  deriving DecidableEq, Repr

/-- The counter after an item. -/
def Item.next (c : Nat) : Item → Nat
  | org v => v
  | words n => c + n

def Item.isOrg : Item → Bool
  | org _ => true
  | words _ => false

/-- The number of words an item takes. -/
def Item.size : Item → Nat
  | org _ => 0
  | words n => n

/-- The counter after some items. -/
def counter (c : Nat) (is : List Item) : Nat := is.foldl Item.next c

/-- The addresses of the words, in order. -/
def addrs (c : Nat) : List Item → List Nat
  | [] => []
  | i :: is => List.range' c i.size ++ addrs (i.next c) is

/-- The origins, in order. -/
def orgs (is : List Item) : List Nat :=
  is.filterMap fun
    | .org v => some v
    | .words _ => none

/-- The items before the first that takes a word. -/
def lead (is : List Item) : List Item := is.takeWhile fun i => i.size = 0

/-- The stretches between one origin and the next, each by its start and its length, of which
the first is under way. -/
def blocks (start len : Nat) : List Item → List (Nat × Nat)
  | [] => [(start, len)]
  | .org v :: is => (start, len) :: blocks v 0 is
  | .words n :: is => blocks start (len + n) is

/-- The addresses of a block. -/
def blockAddrs (b : Nat × Nat) : List Nat := List.range' b.1 b.2

/-! ## The counter

It is a number here, without a bound. `Within` says that a machine counter of some width never has
to wrap to follow it. -/

theorem counter_cons (c : Nat) (i : Item) (is : List Item) :
    counter c (i :: is) = counter (i.next c) is := rfl

theorem counter_append (c : Nat) (is js : List Item) :
    counter c (is ++ js) = counter (counter c is) js := by
  simp [counter, List.foldl_append]

theorem next_of_not_org {i : Item} (h : i.isOrg = false) (c : Nat) : i.next c = c + i.size := by
  cases i with
  | org v => exact absurd h (by simp [Item.isOrg])
  | words n => rfl

/-- With no origin among them, items move the counter by their sizes. -/
theorem counter_of_no_org {is : List Item} (h : ∀ i ∈ is, i.isOrg = false) (c : Nat) :
    counter c is = c + (is.map Item.size).sum := by
  induction is generalizing c with
  | nil => rfl
  | cons i is ih =>
    obtain ⟨hi, his⟩ := List.forall_mem_cons.mp h
    rw [counter_cons, ih his, next_of_not_org hi, List.map_cons, List.sum_cons, Nat.add_assoc]

/-- With no words among them, items leave the counter at the last origin. -/
theorem counter_of_no_words {is : List Item} (h : ∀ i ∈ is, i.size = 0) (c : Nat) :
    counter c is = (orgs is).getLastD c := by
  induction is generalizing c with
  | nil => rfl
  | cons i is ih =>
    obtain ⟨hi, his⟩ := List.forall_mem_cons.mp h
    rw [counter_cons, ih his]
    cases i with
    | org v => exact List.getLastD_cons.symm
    | words n =>
      obtain rfl : n = 0 := hi
      rfl

theorem lead_size (is : List Item) : ∀ i ∈ lead is, i.size = 0 := by
  intro i hi
  simpa using List.mem_takeWhile_imp (p := fun i : Item => i.size = 0) hi

/-- The counter never gets past `limit`. -/
def Within (limit c : Nat) (is : List Item) : Prop :=
  ∀ js, js <+: is → counter c js ≤ limit

theorem within_cons {limit c : Nat} {i : Item} {is : List Item} :
    Within limit c (i :: is) ↔ c ≤ limit ∧ Within limit (i.next c) is := by
  constructor
  · intro h
    exact ⟨h [] List.nil_prefix, fun js hjs => h (i :: js) (List.cons_prefix_cons.mpr ⟨rfl, hjs⟩)⟩
  · rintro ⟨hc, h⟩ js hjs
    cases js with
    | nil => exact hc
    | cons j js =>
      obtain ⟨rfl, hpre⟩ := List.cons_prefix_cons.mp hjs
      exact h js hpre

theorem within_nil {limit c : Nat} : Within limit c [] ↔ c ≤ limit := by
  constructor
  · intro h
    exact h [] List.nil_prefix
  · intro h js hjs
    obtain rfl := List.prefix_nil.mp hjs
    exact h

/-- The counter stays within a limit exactly when every block ends within it. -/
theorem within_iff_blocks {limit start len : Nat} {is : List Item} :
    Within limit (start + len) is ↔ ∀ b ∈ blocks start len is, b.1 + b.2 ≤ limit := by
  induction is generalizing start len with
  | nil => simp [blocks, within_nil]
  | cons i is ih =>
    cases i with
    | org v =>
      have hv : Within limit (v + 0) is ↔ ∀ b ∈ blocks v 0 is, b.1 + b.2 ≤ limit := ih
      rw [within_cons, blocks, List.forall_mem_cons, Item.next, ← hv, Nat.add_zero]
    | words n =>
      rw [within_cons, blocks, Item.next, Nat.add_assoc, ih]
      constructor
      · exact And.right
      · intro h
        refine ⟨?_, h⟩
        have hend := (ih.mpr h) [] List.nil_prefix
        simp only [counter, List.foldl_nil] at hend
        omega

/-! ## The addresses

Where each word goes, in the order of the items. Two words may go to one address, and `Apart` says
of the blocks when none do. -/

theorem addrs_cons (c : Nat) (i : Item) (is : List Item) :
    addrs c (i :: is) = List.range' c i.size ++ addrs (i.next c) is := rfl

/-- With no origin among them, the words are one stretch. -/
theorem addrs_of_no_org {is : List Item} (h : ∀ i ∈ is, i.isOrg = false) (c : Nat) :
    addrs c is = List.range' c (is.map Item.size).sum := by
  induction is generalizing c with
  | nil => rfl
  | cons i is ih =>
    obtain ⟨hi, his⟩ := List.forall_mem_cons.mp h
    rw [addrs_cons, ih his, next_of_not_org hi, List.map_cons, List.sum_cons,
      List.range'_append_1]

/-- The first word goes where the items before it leave the counter. -/
theorem addrs_head? {c : Nat} {is : List Item} (h : addrs c is ≠ []) :
    (addrs c is).head? = some (counter c (lead is)) := by
  induction is generalizing c with
  | nil => exact absurd rfl h
  | cons i is ih =>
    by_cases hi : i.size = 0
    · have hlead : lead (i :: is) = i :: lead is := List.takeWhile_cons_of_pos (by simpa using hi)
      rw [addrs_cons, hi, List.range'_zero, List.nil_append] at h ⊢
      rw [ih h, hlead, counter_cons]
    · have hlead : lead (i :: is) = [] := List.takeWhile_cons_of_neg (by simpa using hi)
      obtain ⟨n, hn⟩ := Nat.exists_eq_succ_of_ne_zero hi
      rw [addrs_cons, hn, List.range'_succ, hlead]
      rfl

theorem addrs_length (c : Nat) (is : List Item) :
    (addrs c is).length = (is.map Item.size).sum := by
  induction is generalizing c with
  | nil => rfl
  | cons i is ih =>
    rw [addrs_cons, List.length_append, List.length_range', ih, List.map_cons, List.sum_cons]

/-- The blocks hold the same addresses, in the same order. -/
theorem blocks_addrs (start len : Nat) (is : List Item) :
    (blocks start len is).flatMap blockAddrs =
      List.range' start len ++ addrs (start + len) is := by
  induction is generalizing start len with
  | nil => simp [blocks, addrs, blockAddrs]
  | cons i is ih =>
    cases i with
    | org v =>
      rw [blocks, List.flatMap_cons, ih]
      simp [addrs, blockAddrs, Item.size, Item.next]
    | words n =>
      have hrange : List.range' start (len + n) =
          List.range' start len ++ List.range' (start + len) n := by
        rw [List.range'_append_1]
      rw [blocks, ih, addrs, hrange, List.append_assoc, Item.size, Item.next, Nat.add_assoc]

/-- Every address lies in a block. -/
theorem mem_addrs {a : Nat} {is : List Item} (h : a ∈ addrs 0 is) :
    ∃ b ∈ blocks 0 0 is, b.1 ≤ a ∧ a < b.1 + b.2 := by
  have hflat := blocks_addrs 0 0 is
  rw [List.range'_zero, List.nil_append, Nat.add_zero] at hflat
  rw [← hflat, List.mem_flatMap] at h
  obtain ⟨b, hb, ha⟩ := h
  exact ⟨b, hb, List.mem_range'_1.mp ha⟩

/-- Two blocks have no address in common. -/
def Apart (b b' : Nat × Nat) : Prop :=
  ∀ a, ¬ ((b.1 ≤ a ∧ a < b.1 + b.2) ∧ (b'.1 ≤ a ∧ a < b'.1 + b'.2))

theorem apart_iff {b b' : Nat × Nat} : Apart b b' ↔ (blockAddrs b).Disjoint (blockAddrs b') := by
  simp only [Apart, List.Disjoint, blockAddrs, List.mem_range'_1]
  constructor
  · intro h a ha hb
    exact h a ⟨ha, hb⟩
  · intro h a ⟨ha, hb⟩
    exact h ha hb

/-- **The words go to different addresses exactly when the blocks are apart.** -/
theorem addrs_nodup_iff (is : List Item) :
    (addrs 0 is).Nodup ↔ (blocks 0 0 is).Pairwise Apart := by
  have hflat := blocks_addrs 0 0 is
  rw [List.range'_zero, List.nil_append, Nat.add_zero] at hflat
  rw [← hflat, List.nodup_flatMap]
  constructor
  · rintro ⟨-, hpair⟩
    exact hpair.imp apart_iff.mpr
  · intro hpair
    exact ⟨fun b _ => List.nodup_range', hpair.imp apart_iff.mp⟩

/-! ## Origins that never move back

Then the addresses only go up, so no two are the same and the last is the highest. -/

/-- No origin is below the counter it finds. -/
def Forward (c : Nat) : List Item → Prop
  | [] => True
  | i :: is => c ≤ i.next c ∧ Forward (i.next c) is

/-- An item that does not move the counter back moves it past its words. -/
theorem size_le_next {c : Nat} {i : Item} (h : c ≤ i.next c) : c + i.size ≤ i.next c := by
  cases i with
  | org v => exact h
  | words n => exact Nat.le_refl _

/-- The words then go upwards. -/
theorem addrs_sorted {c : Nat} {is : List Item} (h : Forward c is) :
    (addrs c is).Pairwise (· < ·) ∧ ∀ a ∈ addrs c is, c ≤ a := by
  induction is generalizing c with
  | nil => exact ⟨List.Pairwise.nil, fun a ha => absurd ha List.not_mem_nil⟩
  | cons i is ih =>
    obtain ⟨hle, hrest⟩ := h
    obtain ⟨hsort, hlow⟩ := ih hrest
    have hsize := size_le_next hle
    refine ⟨?_, ?_⟩
    · rw [addrs, List.pairwise_append]
      refine ⟨List.pairwise_lt_range', hsort, ?_⟩
      intro a ha b hb
      have hab := hlow b hb
      rw [List.mem_range'_1] at ha
      omega
    · intro a ha
      rcases List.mem_append.mp ha with ha | ha
      · exact (List.mem_range'_1.mp ha).1
      · exact Nat.le_trans hle (hlow a ha)

theorem le_counter {c : Nat} {is : List Item} (h : Forward c is) : c ≤ counter c is := by
  induction is generalizing c with
  | nil => exact Nat.le_refl c
  | cons i is ih => exact Nat.le_trans h.1 (ih h.2)

/-- And the counter ends above all of them. -/
theorem addrs_lt_counter {c : Nat} {is : List Item} (h : Forward c is) :
    ∀ a ∈ addrs c is, a < counter c is := by
  induction is generalizing c with
  | nil =>
    intro a ha
    exact absurd ha List.not_mem_nil
  | cons i is ih =>
    intro a ha
    rw [addrs_cons, List.mem_append] at ha
    rcases ha with ha | ha
    · have hend := Nat.le_trans (size_le_next h.1) (le_counter h.2)
      rw [List.mem_range'_1] at ha
      exact Nat.lt_of_lt_of_le ha.2 hend
    · exact ih h.2 a ha

/-! ## One layout behind another -/

theorem forward_append {c : Nat} {is js : List Item} :
    Forward c (is ++ js) ↔ Forward c is ∧ Forward (counter c is) js := by
  induction is generalizing c with
  | nil => exact (and_iff_right trivial).symm
  | cons i is ih => rw [List.cons_append, Forward, Forward, ih, counter_cons, and_assoc]

theorem within_append {limit c : Nat} {is js : List Item} :
    Within limit c (is ++ js) ↔ Within limit c is ∧ Within limit (counter c is) js := by
  induction is generalizing c with
  | nil =>
    rw [List.nil_append, within_nil]
    exact ⟨fun h => ⟨h [] List.nil_prefix, h⟩, And.right⟩
  | cons i is ih => rw [List.cons_append, within_cons, within_cons, ih, counter_cons, and_assoc]

theorem forward_words : ∀ n c : Nat, Forward c (List.replicate n (.words 1))
  | 0, _ => trivial
  | n + 1, c => ⟨Nat.le_succ c, forward_words n (c + 1)⟩

theorem within_words : ∀ {n c limit : Nat}, c + n ≤ limit →
    Within limit c (List.replicate n (.words 1))
  | 0, _, _, h => within_nil.mpr h
  | n + 1, c, limit, h => by
    rw [List.replicate_succ, within_cons]
    exact ⟨by omega, within_words (by rw [Item.next]; omega)⟩

end Layout
