import EduCpu16.Lib.BoundedMap
import Mathlib.Algebra.Ring.Nat
import Mathlib.Data.Fintype.Card
import Mathlib.Data.Finset.Card
import Mathlib.Logic.Function.Basic

/-!
# Open addressing with linear probing

A table is a function from `N` slots to optional entries. A search for a key starts at the
key's hash, visits the slots one after the other, wrapping around, and stops at the first slot
that is free or holds the key. `search` answers that slot, or `none` when all `N` slots were
visited without a stop.

Two layers. The first is about one key and asks nothing of the table: a slot at which a search
*finds* its key stays the answer whatever is written into free slots later
(`search_update_hit`). The second is about all keys at once: `WellPlaced` says that every entry
is where its key's search finds it, and an insertion at the slot the search answered keeps it
(`WellPlaced.update`). Under it the table is the finite map of its entries
(`WellPlaced.lookup_eq_some`), and `Refines` states that against the bounded map of
`BoundedMap`.
-/

namespace OpenAddressing

variable {E K V : Type*} {N : Nat}

/-! ## The number of entries -/

/-- The slots that hold an entry. -/
def occupied (occ : Fin N → Option E) : Finset (Fin N) :=
  Finset.univ.filter fun i => (occ i).isSome

theorem card_occupied_empty : (occupied (fun _ : Fin N => (none : Option E))).card = 0 := by
  simp [occupied]

theorem card_occupied_update {occ : Fin N → Option E} {i : Fin N} {e : E} (hi : occ i = none) :
    (occupied (Function.update occ i (some e))).card = (occupied occ).card + 1 := by
  have hset : occupied (Function.update occ i (some e)) = insert i (occupied occ) := by
    ext k
    by_cases hk : k = i
    · subst hk; simp [occupied]
    · simp [occupied, hk]
  rw [hset, Finset.card_insert_of_notMem (by simp [occupied, hi])]

/-- A table with fewer than `N` entries has a free slot. -/
theorem exists_free {occ : Fin N → Option E} (h : (occupied occ).card < N) :
    ∃ i, occ i = none := by
  by_contra hall
  have huniv : occupied occ = Finset.univ := by
    ext i
    have hi : occ i ≠ none := fun hn => hall ⟨i, hn⟩
    simpa [occupied, Option.isSome_iff_ne_none] using hi
  rw [huniv, Finset.card_univ, Fintype.card_fin] at h
  exact Nat.lt_irrefl N h

/-! ## The entries -/

/-- What is in the slots, one after the other. -/
def entries (occ : Fin N → Option E) : List E := (List.finRange N).filterMap occ

theorem entries_empty : entries (fun _ : Fin N => (none : Option E)) = [] :=
  List.filterMap_eq_nil_iff.mpr fun _ _ => rfl

/-- An entry is added somewhere, and the others stay. -/
theorem entries_update {occ : Fin N → Option E} {i : Fin N} {e : E} (hi : occ i = none) :
    (entries (Function.update occ i (some e))).Perm (e :: entries occ) := by
  obtain ⟨pre, post, hsplit⟩ := List.append_of_mem (List.mem_finRange i)
  have hnodup := List.nodup_finRange N
  rw [hsplit] at hnodup
  -- The slots before and behind are others.
  have hsame : ∀ l : List (Fin N), i ∉ l →
      l.filterMap (Function.update occ i (some e)) = l.filterMap occ := by
    intro l hl
    refine List.filterMap_congr fun k hk => Function.update_of_ne ?_ _ _
    rintro rfl
    exact hl hk
  obtain ⟨-, hpost, hapart⟩ := List.nodup_append.mp hnodup
  have hpre : i ∉ pre := fun h => hapart i h i List.mem_cons_self rfl
  rw [entries, entries, hsplit, List.filterMap_append, List.filterMap_append,
    List.filterMap_cons_some (Function.update_self i (some e) occ), List.filterMap_cons_none hi,
    hsame pre hpre, hsame post (List.nodup_cons.mp hpost).1]
  exact List.perm_middle

/-! ## Searching

The slots of a key are tried from its hash on, each of them once, and the search fails if all are
taken by other keys. -/

variable [NeZero N]

/-- The `j`-th slot a search from hash `h` visits. -/
def slot (h j : Nat) : Fin N := Fin.ofNat N (h + j)

/-- The slot at which a search for the key `isKey` recognises stops. -/
def search (occ : Fin N → Option E) (isKey : E → Bool) (h : Nat) : Option (Fin N) :=
  ((List.range N).find? fun j => (occ (slot h j)).all isKey).map (slot h)

/-- The entry a search finds. -/
def lookup (occ : Fin N → Option E) (isKey : E → Bool) (h : Nat) : Option E :=
  (search occ isKey h).bind occ

/-! ## One key

What an update does to the search for a key: at the slot the search ends at it is found there, and
elsewhere the search does not notice. -/

theorem search_eq_some {occ : Fin N → Option E} {isKey : E → Bool} {h : Nat} {i : Fin N} :
    search occ isKey h = some i ↔
      ∃ j < N, slot h j = i ∧ (occ i).all isKey = true ∧
        ∀ j' < j, (occ (slot h j')).all isKey = false := by
  simp only [search, Option.map_eq_some_iff, List.find?_range_eq_some, List.mem_range,
    Bool.not_eq_true']
  constructor
  · rintro ⟨j, ⟨hs, hj, hbefore⟩, rfl⟩
    exact ⟨j, hj, rfl, hs, hbefore⟩
  · rintro ⟨j, hj, rfl, hs, hbefore⟩
    exact ⟨j, ⟨hs, hj, hbefore⟩, rfl⟩

/-- A search visits every slot. -/
theorem exists_slot_eq (h : Nat) (i : Fin N) : ∃ j < N, slot h j = i := by
  have hN : 0 < N := Nat.pos_of_neZero N
  -- Count the slots from the hash up to `i`, past the end of the table if need be.
  have hlt : h % N < N := Nat.mod_lt _ hN
  refine ⟨(i.val + (N - h % N)) % N, Nat.mod_lt _ hN, Fin.ext ?_⟩
  have hsum : h % N + (i.val + (N - h % N)) = i.val + N := by omega
  simp only [slot, Fin.ofNat, Nat.add_mod_mod]
  rw [← Nat.mod_add_mod, hsum, Nat.add_mod_right, Nat.mod_eq_of_lt i.isLt]

/-- A free slot makes the search stop somewhere. -/
theorem search_isSome_of_free {occ : Fin N → Option E} {i : Fin N} (hi : occ i = none)
    (isKey : E → Bool) (h : Nat) : (search occ isKey h).isSome := by
  obtain ⟨j, hj, rfl⟩ := exists_slot_eq h i
  simp only [search, Option.isSome_map, List.find?_isSome, List.mem_range]
  exact ⟨j, hj, by simp [hi]⟩

/-- **A search that finds its key is not disturbed by entries written into free slots.** Every
slot it visits is occupied, so none of them is the one written. -/
theorem search_update_hit {occ : Fin N → Option E} {isKey : E → Bool} {h : Nat} {i k : Fin N}
    {e : E} (hs : search occ isKey h = some i) (hi : occ i ≠ none) (hk : occ k = none) :
    search (Function.update occ k (some e)) isKey h = some i := by
  obtain ⟨j, hj, hji, hstop, hbefore⟩ := search_eq_some.mp hs
  have hik : i ≠ k := by rintro rfl; exact hi hk
  refine search_eq_some.mpr ⟨j, hj, hji, by rwa [Function.update_of_ne hik], ?_⟩
  intro j' hj'
  have hne : slot h j' ≠ k := by
    rintro heq
    have hfalse := hbefore j' hj'
    rw [heq, hk] at hfalse
    simp at hfalse
  rw [Function.update_of_ne hne]
  exact hbefore j' hj'

/-- An entry written at the free slot its key's search answered is found there. -/
theorem search_update_self {occ : Fin N → Option E} {isKey : E → Bool} {h : Nat} {i : Fin N}
    {e : E} (hs : search occ isKey h = some i) (hi : occ i = none) (he : isKey e = true) :
    search (Function.update occ i (some e)) isKey h = some i := by
  obtain ⟨j, hj, hji, -, hbefore⟩ := search_eq_some.mp hs
  refine search_eq_some.mpr ⟨j, hj, hji, by simp [he], ?_⟩
  intro j' hj'
  have hne : slot h j' ≠ i := by
    rintro heq
    have hfalse := hbefore j' hj'
    rw [heq, hi] at hfalse
    simp at hfalse
  rw [Function.update_of_ne hne]
  exact hbefore j' hj'

/-! ## All keys

`WellPlaced` is the invariant that makes lookup complete: from the hash of an entry to its slot
there is no free slot on the way. -/

/-- Every entry is where the search for its key finds it. -/
def WellPlaced (isKey : K → E → Bool) (hash : K → Nat) (occ : Fin N → Option E) : Prop :=
  ∀ i e k, occ i = some e → isKey k e = true → search occ (isKey k) (hash k) = some i

section WellPlaced

variable {isKey : K → E → Bool} {hash : K → Nat} {occ : Fin N → Option E}

theorem wellPlaced_empty : WellPlaced isKey hash (fun _ : Fin N => (none : Option E)) := by
  intro i e k he
  simp at he

/-- An entry of the key `k₀` alone, written at the free slot the search for `k₀` answered. -/
theorem WellPlaced.update (hw : WellPlaced isKey hash occ) {k₀ : K} {i₀ : Fin N} {e₀ : E}
    (hs : search occ (isKey k₀) (hash k₀) = some i₀) (hfree : occ i₀ = none)
    (he₀ : ∀ k, isKey k e₀ = true ↔ k = k₀) :
    WellPlaced isKey hash (Function.update occ i₀ (some e₀)) := by
  intro i e k he hk
  by_cases hi : i = i₀
  · subst hi
    rw [Function.update_self, Option.some.injEq] at he
    subst he
    obtain rfl := (he₀ k).mp hk
    exact search_update_self hs hfree ((he₀ k).mpr rfl)
  · -- An older entry: its search visits occupied slots only, and `i₀` was free.
    rw [Function.update_of_ne hi] at he
    exact search_update_hit (hw i e k he hk) (by simp [he]) hfree

/-- A lookup finds exactly the entries of the table. -/
theorem WellPlaced.lookup_eq_some (hw : WellPlaced isKey hash occ) {k : K} {e : E} :
    lookup occ (isKey k) (hash k) = some e ↔ (∃ i, occ i = some e) ∧ isKey k e = true := by
  rw [lookup, Option.bind_eq_some_iff]
  constructor
  · rintro ⟨i, hs, he⟩
    obtain ⟨-, -, -, hstop, -⟩ := search_eq_some.mp hs
    exact ⟨⟨i, he⟩, by simpa [he] using hstop⟩
  · rintro ⟨⟨i, he⟩, hk⟩
    exact ⟨i, hw i e k he hk, he⟩

end WellPlaced

/-! ## The map a table stands for -/

section Refines

variable [DecidableEq K] {hash : K → Nat} {occ : Fin N → Option (K × V)}

/-- The key of an entry that carries its key. -/
def entryKey (k : K) (e : K × V) : Bool := e.1 = k

/-- The table `occ` holds exactly the bindings of `m`, each where its key's search finds it. -/
structure Refines (hash : K → Nat) (occ : Fin N → Option (K × V)) (m : BoundedMap K V N) :
    Prop where
  placed : WellPlaced entryKey hash occ
  entries : ∀ e, (∃ i, occ i = some e) ↔ e ∈ m.bindings
  count : (occupied occ).card = m.bindings.length

theorem refines_empty :
    Refines hash (fun _ => none) (BoundedMap.empty : BoundedMap K V N) where
  placed := wellPlaced_empty
  entries := by simp [BoundedMap.empty]
  count := card_occupied_empty

/-- A lookup in the table is a lookup in the map. -/
theorem Refines.lookup_eq {m : BoundedMap K V N} (hr : Refines hash occ m) (k : K) :
    (lookup occ (entryKey k) (hash k)).map Prod.snd = m.get? k := by
  ext v
  rw [BoundedMap.get?_eq_some, ← hr.entries (k, v), Option.map_eq_some_iff]
  constructor
  · rintro ⟨e, hl, rfl⟩
    obtain ⟨hi, hk⟩ := hr.placed.lookup_eq_some.mp hl
    have hek : e.1 = k := by simpa [entryKey] using hk
    exact hek ▸ hi
  · intro hi
    exact ⟨(k, v), hr.placed.lookup_eq_some.mpr ⟨hi, by simp [entryKey]⟩, rfl⟩

/-- **An insertion into a table that is not full refines the insertion into the map.** The
search stops, because a slot is free: at the key's entry when the key is bound, and at a free
slot when it is not. -/
theorem Refines.insert {m : BoundedMap K V N} (hr : Refines hash occ m)
    (hlt : m.bindings.length < N) (k : K) (v : V) :
    ∃ i, search occ (entryKey k) (hash k) = some i ∧
      ((∃ e, occ i = some e ∧ e.1 = k ∧ m.insert k v = (.present, m)) ∨
       (occ i = none ∧ (m.insert k v).1 = .added ∧
        Refines hash (Function.update occ i (some (k, v))) (m.insert k v).2)) := by
  obtain ⟨i₀, hfree⟩ := exists_free (hr.count ▸ hlt)
  obtain ⟨i, hs⟩ := Option.isSome_iff_exists.mp (search_isSome_of_free hfree (entryKey k) (hash k))
  obtain ⟨-, -, -, hstop, -⟩ := search_eq_some.mp hs
  have hnot : ¬ N ≤ m.bindings.length := Nat.not_le.mpr hlt
  refine ⟨i, hs, ?_⟩
  cases hi : occ i with
  | some e =>
    have hek : e.1 = k := by simpa [hi, entryKey] using hstop
    have hmem : k ∈ m.keys := BoundedMap.mem_keys.mpr ⟨e.2, hek ▸ (hr.entries e).mp ⟨i, hi⟩⟩
    exact .inl ⟨e, rfl, hek, by simp [BoundedMap.insert, hnot, hmem]⟩
  | none =>
    have hmem : k ∉ m.keys := by
      intro hmem
      -- A bound key is found at its entry, so its search does not stop at a free slot.
      obtain ⟨v', hv'⟩ := BoundedMap.mem_keys.mp hmem
      obtain ⟨i', hi'⟩ := (hr.entries (k, v')).mpr hv'
      have hs' := hr.placed i' (k, v') k hi' (by simp [entryKey])
      rw [hs, Option.some.injEq] at hs'
      rw [← hs', hi] at hi'
      simp at hi'
    refine .inr ⟨rfl, by simp [BoundedMap.insert, hnot, hmem], ?_⟩
    have hbind : (m.insert k v).2.bindings = m.bindings ++ [(k, v)] := by
      simp [BoundedMap.insert, hnot, hmem]
    exact {
      placed := hr.placed.update hs hi (by simp [entryKey, eq_comm])
      entries := by
        intro e
        rw [hbind, List.mem_append, List.mem_singleton, ← hr.entries e]
        constructor
        · rintro ⟨j, hj⟩
          by_cases hji : j = i
          · subst hji
            exact .inr (by simpa using hj.symm)
          · exact .inl ⟨j, by rwa [Function.update_of_ne hji] at hj⟩
        · rintro (⟨j, hj⟩ | rfl)
          · have hji : j ≠ i := by rintro rfl; rw [hi] at hj; simp at hj
            exact ⟨j, by rwa [Function.update_of_ne hji]⟩
          · exact ⟨i, by simp⟩
      count := by rw [card_occupied_update hi, hr.count, hbind]; simp }

end Refines

end OpenAddressing
