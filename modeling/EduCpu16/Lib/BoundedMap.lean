import Mathlib.Data.List.Nodup

/-!
# A finite map of bounded size

What a fixed-capacity symbol table is for, with no hash and no slots: the bindings made so far,
oldest first, no key twice and at most `cap` of them. Both conditions are fields, so a map that
breaks them cannot be built.
-/

structure BoundedMap (K V : Type*) (cap : Nat) where
  bindings : List (K × V)
  nodup : (bindings.map Prod.fst).Nodup
  bounded : bindings.length ≤ cap

namespace BoundedMap

variable {K V : Type*} {cap : Nat}

/-- What an insertion did. -/
inductive Inserted
  | added | present | full
  deriving DecidableEq, Repr

def empty : BoundedMap K V cap := ⟨[], List.nodup_nil, Nat.zero_le _⟩

def keys (m : BoundedMap K V cap) : List K := m.bindings.map Prod.fst

theorem mem_keys {m : BoundedMap K V cap} {k : K} :
    k ∈ m.keys ↔ ∃ v, (k, v) ∈ m.bindings := by
  simp [keys]

variable [DecidableEq K]

/-- The value `k` is bound to. -/
def get? (m : BoundedMap K V cap) (k : K) : Option V :=
  (m.bindings.find? (·.1 = k)).map Prod.snd

/-- A full map refuses every key; otherwise a key that is bound keeps its value and a new one is
added. -/
def insert (m : BoundedMap K V cap) (k : K) (v : V) : Inserted × BoundedMap K V cap :=
  if hfull : cap ≤ m.bindings.length then (.full, m)
  else if hk : k ∈ m.keys then (.present, m)
  else
    (.added,
      { bindings := m.bindings ++ [(k, v)]
        nodup := by
          rw [List.map_append, List.nodup_append]
          refine ⟨m.nodup, by simp, fun a ha b hb hab => hk ?_⟩
          have hkb : b = k := by simpa using hb
          exact hkb ▸ hab ▸ ha
        bounded := by simpa using Nat.succ_le_of_lt (Nat.lt_of_not_le hfull) })

/-- With no key twice, the first binding of a key is its only one. -/
theorem get?_eq_some {m : BoundedMap K V cap} {k : K} {v : V} :
    m.get? k = some v ↔ (k, v) ∈ m.bindings := by
  simp only [get?, Option.map_eq_some_iff]
  constructor
  · rintro ⟨⟨k', v'⟩, hf, rfl⟩
    have hk : k' = k := by simpa using List.find?_some hf
    exact hk ▸ List.mem_of_find?_eq_some hf
  · intro hmem
    cases hf : m.bindings.find? (·.1 = k) with
    | none => exact absurd (List.find?_eq_none.mp hf (k, v) hmem) (by simp)
    | some b =>
      have hk : b.1 = k := by simpa using List.find?_some hf
      refine ⟨b, rfl, ?_⟩
      have hb : b = (k, v) :=
        List.inj_on_of_nodup_map m.nodup (List.mem_of_find?_eq_some hf) hmem hk
      rw [hb]

theorem get?_eq_none {m : BoundedMap K V cap} {k : K} : m.get? k = none ↔ k ∉ m.keys := by
  rw [mem_keys, Option.eq_none_iff_forall_ne_some]
  exact ⟨fun h ⟨v, hv⟩ => h v (get?_eq_some.mpr hv), fun h v hv => h ⟨v, get?_eq_some.mp hv⟩⟩

/-- A sequence of insertions: what each did, and the map after them. -/
def insertAll (m : BoundedMap K V cap) : List (K × V) → List Inserted × BoundedMap K V cap
  | [] => ([], m)
  | op :: ops =>
      let r := m.insert op.1 op.2
      let rest := insertAll r.2 ops
      (r.1 :: rest.1, rest.2)

theorem bindings_insert (m : BoundedMap K V cap) (k : K) (v : V) :
    (m.insert k v).2.bindings = m.bindings ∨
    (m.insert k v).2.bindings = m.bindings ++ [(k, v)] := by
  unfold insert
  split
  · exact .inl rfl
  · split
    · exact .inl rfl
    · exact .inr rfl

/-- Every binding after a sequence of insertions was there before or is one of them. -/
theorem mem_bindings_insertAll {b : K × V} (ops : List (K × V)) (m : BoundedMap K V cap)
    (h : b ∈ (m.insertAll ops).2.bindings) : b ∈ m.bindings ∨ b ∈ ops := by
  induction ops generalizing m with
  | nil => exact .inl h
  | cons op ops ih =>
    rcases ih (m.insert op.1 op.2).2 h with hm | hops
    · rcases bindings_insert m op.1 op.2 with heq | heq
      · exact .inl (heq ▸ hm)
      · rw [heq, List.mem_append, List.mem_singleton] at hm
        rcases hm with hm | rfl
        · exact .inl hm
        · exact .inr List.mem_cons_self
    · exact .inr (List.mem_cons_of_mem _ hops)

/-- A sequence of insertions adds everything exactly when no key comes twice, in the map or among
them, and there is room. -/
theorem insertAll_added_iff (ops : List (K × V)) (m : BoundedMap K V cap) :
    (∀ r ∈ (m.insertAll ops).1, r = .added) ↔
      (m.keys ++ ops.map Prod.fst).Nodup ∧ m.bindings.length + ops.length ≤ cap := by
  induction ops generalizing m with
  | nil =>
    refine iff_of_true (fun r hr => absurd hr List.not_mem_nil) ⟨?_, m.bounded⟩
    rw [List.map_nil, List.append_nil]
    exact m.nodup
  | cons op ops ih =>
    obtain ⟨k, v⟩ := op
    rw [insertAll, List.forall_mem_cons, ih, List.map_cons, List.length_cons]
    unfold insert
    by_cases hfull : cap ≤ m.bindings.length
    · rw [dif_pos hfull]
      refine iff_of_false (fun h => ?_) fun h => ?_
      · cases h.1
      · have hroom := h.2
        omega
    rw [dif_neg hfull]
    by_cases hk : k ∈ m.keys
    · rw [dif_pos hk]
      refine iff_of_false (fun h => ?_) fun h => ?_
      · cases h.1
      · exact (List.nodup_append.mp h.1).2.2 k hk k List.mem_cons_self rfl
    · rw [dif_neg hk]
      have hkeys : ∀ m' : BoundedMap K V cap, m'.bindings = m.bindings ++ [(k, v)] →
          m'.keys ++ ops.map Prod.fst = m.keys ++ k :: ops.map Prod.fst := by
        intro m' hm'
        rw [keys, hm', List.map_append, List.append_assoc]
        rfl
      rw [hkeys _ rfl, List.length_append, List.length_singleton, Nat.add_assoc,
        Nat.add_comm 1 ops.length]
      exact and_iff_right rfl

end BoundedMap
