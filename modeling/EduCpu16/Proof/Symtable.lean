import EduCpu16.Assembler.Symtable
import EduCpu16.Lib.OpenAddressing

/-!
# The symbol table against the open-addressing library

The table array is read as an `OpenAddressing` table of name–address pairs (`slots`), its two probe
loops as the library's search (`insertLoop_eq`, `lookupLoop_eq`). `(h + probe) mod 2^32 mod 256` is
the library's slot because 256 divides `2^32`.

Two results follow. For names that fit a slot the table refines the bounded map of its bindings
(`symtable_refines`). For names of any length, a name that was inserted and fits stays bound to its
address whatever is inserted later (`symtableLookup_insert_self`, `symtableLookup_insert_mono`);
that one does not need the other names to fit, because a found name's probe path holds no free slot.

A longer name is hashed whole and stored cut, so it is not found again under its own name, and may
be found under the cut one. No result here excludes this; those that need it excluded ask for the
length of the names.
-/

namespace EduCpu16
namespace Proof

open CLib OpenAddressing

instance : NeZero symCapacity := ⟨by decide⟩

/-- The table array as slots that may hold an entry. -/
def slots (t : Symtable) : Fin symCapacity → Option (Bytes × Word) :=
  fun i => if (t.table i).used then some ((t.table i).name, (t.table i).addr) else none

def hashNat (name : Bytes) : Nat := (hashName name).toNat

/-- What a successful insertion does to the table. -/
def storeSymbol (t : Symtable) (i : Fin symCapacity) (name : Bytes) (addr : Word) : Symtable where
  table := Function.update t.table i { name := name, addr := addr, used := true }
  count := t.count + 1

theorem slots_reset : slots symtableReset = fun _ => none := rfl

theorem slots_eq_none {t : Symtable} {i : Fin symCapacity} :
    slots t i = none ↔ (t.table i).used = false := by
  simp [slots]

theorem slots_eq_some {t : Symtable} {i : Fin symCapacity} {e : Bytes × Word} :
    slots t i = some e ↔ (t.table i).used = true ∧ e = ((t.table i).name, (t.table i).addr) := by
  rw [slots, Option.ite_none_right_eq_some, Option.some.injEq, eq_comm (a := e)]

theorem slots_storeSymbol (t : Symtable) (i : Fin symCapacity) (name : Bytes) (addr : Word) :
    slots (storeSymbol t i name addr) = Function.update (slots t) i (some (name, addr)) := by
  funext k
  by_cases hk : k = i
  · subst hk; simp [slots, storeSymbol]
  · simp [slots, storeSymbol, Function.update_of_ne hk]

/-! ## The probe loops are searches

Both loops stop at the first slot that is free or has the name. The library has one search for this,
over a predicate on keys, and the loops differ in what they do with the slot. -/

theorem probeIndex_eq (h : BitVec 32) (j : Nat) : probeIndex h j = slot h.toNat j := by
  apply Fin.ext
  simp only [probeIndex, slot, Fin.ofNat, symCapacity, BitVec.toNat_add, BitVec.toNat_ofNat]
  omega

theorem insertLoop_eq (t : Symtable) (name : Bytes) (addr : Word) (h : BitVec 32) :
    ∀ js : List Nat, insertLoop t name addr h js =
      match (js.find? fun j => (slots t (slot h.toNat j)).all (entryKey name)).map
        (slot h.toNat) with
      | none => (.internal, t)
      | some i =>
          if (t.table i).used then (.duplicateLabel, t)
          else (.ok, storeSymbol t i (name.take symNameMax) addr)
  | [] => rfl
  | j :: js => by
    rw [insertLoop, probeIndex_eq, insertLoop_eq t name addr h js, List.find?_cons]
    -- A free slot ends the loop, and so does one that holds the name.
    cases hu : (t.table (slot h.toNat j)).used with
    | false => simp [slots, hu, storeSymbol]
    | true =>
      by_cases hn : (t.table (slot h.toNat j)).name = name
      · simp [slots, hu, hn, entryKey]
      · simp [slots, hu, hn, entryKey]

theorem lookupLoop_eq (t : Symtable) (name : Bytes) (h : BitVec 32) :
    ∀ js : List Nat, lookupLoop t name h js =
      match ((js.find? fun j => (slots t (slot h.toNat j)).all (entryKey name)).map
        (slot h.toNat)).bind (slots t) with
      | none => symNotFound
      | some e => e.2.setWidth 32
  | [] => rfl
  | j :: js => by
    rw [lookupLoop, probeIndex_eq, lookupLoop_eq t name h js, List.find?_cons]
    cases hu : (t.table (slot h.toNat j)).used with
    | false => simp [slots, hu]
    | true =>
      by_cases hn : (t.table (slot h.toNat j)).name = name
      · simp [slots, hu, hn, entryKey]
      · simp [slots, hu, hn, entryKey]

/-- A lookup, as the library's. -/
theorem symtableLookup_eq {name : Bytes} (hne : name ≠ []) (t : Symtable) :
    symtableLookup t name =
      match lookup (slots t) (entryKey name) (hashNat name) with
      | none => symNotFound
      | some e => e.2.setWidth 32 := by
  rw [symtableLookup, if_neg hne, lookupLoop_eq]
  rfl

/-- An insertion, as the library's search and a store. -/
theorem symtableInsert_eq {t : Symtable} {name : Bytes} (hne : name ≠ [])
    (hlt : t.count < symCapacity) (addr : Word) :
    symtableInsert t name addr =
      match search (slots t) (entryKey name) (hashNat name) with
      | none => (.internal, t)
      | some i =>
          if (t.table i).used then (.duplicateLabel, t)
          else (.ok, storeSymbol t i (name.take symNameMax) addr) := by
  rw [symtableInsert, if_neg hne, if_neg (Nat.not_le.mpr hlt), insertLoop_eq]
  rfl

/-! ## One name, whatever the others are

What can be said without a bound on the other names. An entry is never changed or removed, so a
search that found a name finds it again. -/

theorem setWidth_ne_symNotFound (a : Word) : a.setWidth 32 ≠ symNotFound := by
  intro h
  have hnat := congrArg BitVec.toNat h
  rw [BitVec.toNat_setWidth, show symNotFound.toNat = 4294967295 from rfl] at hnat
  omega

theorem setWidth_back (a : Word) : (a.setWidth 32 : I32).setWidth 16 = a := by
  rw [BitVec.setWidth_setWidth_of_le a (by decide), BitVec.setWidth_eq]

theorem setWidth_injective {a b : Word} (h : a.setWidth 32 = b.setWidth 32) : a = b := by
  rw [← setWidth_back a, h, setWidth_back]

/-- What an insertion can do: refuse, leaving the table alone, or store at the free slot its
search stopped at. -/
theorem symtableInsert_cases (t : Symtable) (name : Bytes) (addr : Word) :
    ((symtableInsert t name addr).1 ≠ .ok ∧ (symtableInsert t name addr).2 = t) ∨
    (name ≠ [] ∧ t.count < symCapacity ∧
      ∃ i, search (slots t) (entryKey name) (hashNat name) = some i ∧ slots t i = none ∧
        symtableInsert t name addr = (.ok, storeSymbol t i (name.take symNameMax) addr)) := by
  by_cases hne : name = []
  · simp [symtableInsert, hne]
  by_cases hlt : t.count < symCapacity
  · rw [symtableInsert_eq hne hlt]
    cases hs : search (slots t) (entryKey name) (hashNat name) with
    | none => simp
    | some i =>
      cases hu : (t.table i).used with
      | true => simp [hu]
      | false => exact .inr ⟨hne, hlt, i, rfl, slots_eq_none.mpr hu, by simp [hu]⟩
  · simp [symtableInsert, hne, Nat.not_lt.mp hlt]

/-- A refused insertion leaves the table alone. -/
theorem symtableInsert_refused {t : Symtable} {name : Bytes} {addr : Word}
    (h : (symtableInsert t name addr).1 ≠ .ok) : (symtableInsert t name addr).2 = t := by
  rcases symtableInsert_cases t name addr with ⟨-, ht⟩ | ⟨-, -, i, -, -, heq⟩
  · exact ht
  · exact absurd (by rw [heq]) h

/-- A lookup that finds an address found an entry of that name. -/
theorem symtableLookup_eq_addr {t : Symtable} {name : Bytes} {a : Word} :
    symtableLookup t name = a.setWidth 32 ↔
      name ≠ [] ∧ lookup (slots t) (entryKey name) (hashNat name) = some (name, a) := by
  by_cases hne : name = []
  · simpa [symtableLookup, hne] using (setWidth_ne_symNotFound a).symm
  rw [symtableLookup_eq hne]
  cases hl : lookup (slots t) (entryKey name) (hashNat name) with
  | none => simpa using (setWidth_ne_symNotFound a).symm
  | some e =>
    obtain ⟨i, hs, he⟩ := Option.bind_eq_some_iff.mp hl
    obtain ⟨-, -, -, hstop, -⟩ := search_eq_some.mp hs
    have hname : e.1 = name := by simpa [he, entryKey] using hstop
    constructor
    · intro h
      exact ⟨hne, by rw [← setWidth_injective h, ← hname]⟩
    · rintro ⟨-, h⟩
      rw [Option.some.inj h]

/-- **A name that fits and was inserted is found at its address**, whatever the table holds. -/
theorem symtableLookup_insert_self {t : Symtable} {name : Bytes} {addr : Word}
    (hlen : name.length ≤ symNameMax) (h : (symtableInsert t name addr).1 = .ok) :
    symtableLookup (symtableInsert t name addr).2 name = addr.setWidth 32 := by
  rcases symtableInsert_cases t name addr with ⟨hno, -⟩ | ⟨hne, -, i, hs, hfree, heq⟩
  · exact absurd h hno
  · rw [List.take_of_length_le hlen] at heq
    rw [heq, symtableLookup_eq_addr, lookup, slots_storeSymbol,
      search_update_self hs hfree (by simp [entryKey])]
    exact ⟨hne, by simp⟩

/-- **A name that is found stays found**, whatever is inserted. -/
theorem symtableLookup_insert_mono {t : Symtable} {name : Bytes} {a : Word}
    (h : symtableLookup t name = a.setWidth 32) (name' : Bytes) (addr : Word) :
    symtableLookup (symtableInsert t name' addr).2 name = a.setWidth 32 := by
  rcases symtableInsert_cases t name' addr with ⟨-, ht⟩ | ⟨-, -, k, -, hfree, heq⟩
  · rw [ht, h]
  · obtain ⟨hne, hl⟩ := symtableLookup_eq_addr.mp h
    obtain ⟨i, hs, hi⟩ := Option.bind_eq_some_iff.mp hl
    have hik : i ≠ k := by rintro rfl; rw [hi] at hfree; simp at hfree
    rw [heq, symtableLookup_eq_addr, lookup, slots_storeSymbol,
      search_update_hit hs (by simp [hi]) hfree]
    exact ⟨hne, by simpa [Function.update_of_ne hik] using hi⟩

/-! ## The bounded map the table stands for

The abstract state is a list of bindings with room for 256 of them. `SymRefines` relates the two,
and the step and run lemmas are about the return code as well as the table. -/

/-- A sequence of insertions: the return codes, and the table after them. -/
def insertAll (t : Symtable) : List (Bytes × Word) → List AsmError × Symtable
  | [] => ([], t)
  | op :: ops =>
      let r := symtableInsert t op.1 op.2
      let rest := insertAll r.2 ops
      (r.1 :: rest.1, rest.2)

theorem insertAll_append (t : Symtable) (xs ys : List (Bytes × Word)) :
    insertAll t (xs ++ ys) =
      ((insertAll t xs).1 ++ (insertAll (insertAll t xs).2 ys).1,
        (insertAll (insertAll t xs).2 ys).2) := by
  induction xs generalizing t with
  | nil => rfl
  | cons op ops ih => rw [List.cons_append, insertAll, insertAll, ih]; rfl

/-- An insertion of the empty name does nothing, so a run may leave them out. -/
theorem insertAll_filter (t : Symtable) (ops : List (Bytes × Word)) :
    (insertAll t (ops.filter fun op => op.1 ≠ [])).2 = (insertAll t ops).2 := by
  induction ops generalizing t with
  | nil => rfl
  | cons op ops ih =>
    by_cases hne : op.1 = []
    · have hskip : (symtableInsert t op.1 op.2).2 = t := by rw [symtableInsert, if_pos hne]
      rw [List.filter_cons_of_neg (by simp [hne]), ih, insertAll, hskip]
    · rw [List.filter_cons_of_pos (by simp [hne]), insertAll, insertAll, ih]

/-- A name that is found stays found through a run of insertions. -/
theorem symtableLookup_insertAll_mono {name : Bytes} {a : Word} (ops : List (Bytes × Word))
    {t : Symtable} (h : symtableLookup t name = a.setWidth 32) :
    symtableLookup (insertAll t ops).2 name = a.setWidth 32 := by
  induction ops generalizing t with
  | nil => exact h
  | cons op ops ih => exact ih (symtableLookup_insert_mono h op.1 op.2)

/-- When every insertion of a run succeeds, each name that fits is found at its address. -/
theorem symtableLookup_insertAll {name : Bytes} {a : Word} {ops : List (Bytes × Word)}
    {t : Symtable} (hok : ∀ rc ∈ (insertAll t ops).1, rc = .ok) (hlen : name.length ≤ symNameMax)
    (hmem : (name, a) ∈ ops) : symtableLookup (insertAll t ops).2 name = a.setWidth 32 := by
  induction ops generalizing t with
  | nil => exact absurd hmem List.not_mem_nil
  | cons op ops ih =>
    obtain ⟨hfirst, hrest⟩ := List.forall_mem_cons.mp hok
    rcases List.mem_cons.mp hmem with rfl | hmem
    · exact symtableLookup_insertAll_mono ops (symtableLookup_insert_self hlen hfirst)
    · exact ih hrest hmem

/-- The return code for what an insertion into the map did. -/
def insertedCode : BoundedMap.Inserted → AsmError
  | .added => .ok
  | .present => .duplicateLabel
  | .full => .internal

abbrev SymMap := BoundedMap Bytes Word symCapacity

/-- The table stands for the map `m`. -/
structure SymRefines (t : Symtable) (m : SymMap) : Prop where
  entries : Refines hashNat (slots t) m
  count : t.count = m.bindings.length

theorem symRefines_reset : SymRefines symtableReset BoundedMap.empty where
  entries := slots_reset ▸ refines_empty
  count := rfl

/-- A name `symtable_insert` keeps whole. -/
def NameOk (name : Bytes) : Prop := name ≠ [] ∧ name.length ≤ symNameMax

/-- One insertion. -/
theorem SymRefines.insert {t : Symtable} {m : SymMap} (hr : SymRefines t m) {name : Bytes}
    (hname : NameOk name) (addr : Word) :
    (symtableInsert t name addr).1 = insertedCode (m.insert name addr).1 ∧
    SymRefines (symtableInsert t name addr).2 (m.insert name addr).2 := by
  obtain ⟨hne, hlen⟩ := hname
  by_cases hlt : m.bindings.length < symCapacity
  · obtain ⟨i, hs, hcase⟩ := hr.entries.insert hlt name addr
    have heq := symtableInsert_eq hne (hr.count ▸ hlt) addr
    rw [show search (slots t) (entryKey name) (hashNat name) = some i from hs,
      List.take_of_length_le hlen] at heq
    rcases hcase with ⟨e, hi, -, hm⟩ | ⟨hi, hadd, hr'⟩
    · have hu := (slots_eq_some.mp hi).1
      rw [heq, hm]
      exact ⟨by simp [hu, insertedCode], by simpa [hu] using hr⟩
    · have hu := slots_eq_none.mp hi
      have hbind : (m.insert name addr).2.bindings.length = m.bindings.length + 1 :=
        hr'.count ▸ hr.entries.count ▸ card_occupied_update hi
      rw [heq, hadd]
      refine ⟨by simp [hu, insertedCode], ?_, ?_⟩
      · simpa [hu, slots_storeSymbol] using hr'
      · simp [hu, storeSymbol, hbind, hr.count]
  · have hfull : m.insert name addr = (.full, m) := by
      simp [BoundedMap.insert, Nat.not_lt.mp hlt]
    have hge : symCapacity ≤ t.count := hr.count ▸ Nat.not_lt.mp hlt
    rw [hfull, symtableInsert, if_neg hne, if_pos hge]
    exact ⟨rfl, hr⟩

/-- A run of insertions. -/
theorem SymRefines.insertAll {t : Symtable} {m : SymMap} (hr : SymRefines t m)
    (ops : List (Bytes × Word)) (hops : ∀ op ∈ ops, NameOk op.1) :
    (insertAll t ops).1 = (m.insertAll ops).1.map insertedCode ∧
    SymRefines (insertAll t ops).2 (m.insertAll ops).2 := by
  induction ops generalizing t m with
  | nil => exact ⟨rfl, hr⟩
  | cons op ops ih =>
    obtain ⟨hcode, hr'⟩ := hr.insert (hops op List.mem_cons_self) op.2
    obtain ⟨hcodes, hrest⟩ := ih hr' fun o ho => hops o (List.mem_cons_of_mem _ ho)
    exact ⟨by simp [Proof.insertAll, BoundedMap.insertAll, hcode, hcodes], hrest⟩

/-- A lookup answers the address the map has, of names of any length. -/
theorem SymRefines.lookup {t : Symtable} {m : SymMap} (hr : SymRefines t m)
    (hm : ∀ b ∈ m.bindings, b.1 ≠ []) (n : Bytes) :
    symtableLookup t n = (m.get? n).elim symNotFound (BitVec.setWidth 32) := by
  by_cases hne : n = []
  · have hnone : m.get? n = none := by
      rw [BoundedMap.get?_eq_none, BoundedMap.mem_keys]
      rintro ⟨v, hv⟩
      exact hm _ hv hne
    rw [hnone, symtableLookup, if_pos hne]
    rfl
  · rw [symtableLookup_eq hne, ← hr.entries.lookup_eq]
    cases OpenAddressing.lookup (slots t) (entryKey n) (hashNat n) with
    | none => rfl
    | some e => rfl

/-- The names a run of insertions binds are names that were inserted. -/
theorem names_of_insertAll {ops : List (Bytes × Word)} (hops : ∀ op ∈ ops, NameOk op.1) :
    ∀ b ∈ ((BoundedMap.empty : SymMap).insertAll ops).2.bindings, b.1 ≠ [] := by
  intro b hb
  rcases BoundedMap.mem_bindings_insertAll ops _ hb with hnil | hmem
  · exact absurd hnil List.not_mem_nil
  · exact (hops b hmem).1

/-- A name that is not among those inserted is not found, if those fit. -/
theorem symtableLookup_insertAll_none {ops : List (Bytes × Word)} {name : Bytes}
    (hlen : ∀ op ∈ ops, op.1.length ≤ symNameMax) (hno : ∀ op ∈ ops, op.1 ≠ name) :
    symtableLookup (insertAll symtableReset ops).2 name = symNotFound := by
  have hops : ∀ op ∈ ops.filter (fun op => op.1 ≠ []), NameOk op.1 := by
    intro op hop
    obtain ⟨hmem, hne⟩ := List.mem_filter.mp hop
    exact ⟨by simpa using hne, hlen op hmem⟩
  obtain ⟨-, hr⟩ := symRefines_reset.insertAll _ hops
  rw [← insertAll_filter, hr.lookup (names_of_insertAll hops), BoundedMap.get?_eq_none.mpr]
  · rfl
  · intro hkey
    obtain ⟨v, hv⟩ := BoundedMap.mem_keys.mp hkey
    rcases BoundedMap.mem_bindings_insertAll _ _ hv with hnil | hmem
    · exact absurd hnil List.not_mem_nil
    · exact hno _ (List.mem_filter.mp hmem).1 rfl

/-- A run of insertions that succeed has no empty name. -/
theorem ne_nil_of_insertAll {ops : List (Bytes × Word)} {t : Symtable}
    (hok : ∀ rc ∈ (insertAll t ops).1, rc = .ok) : ∀ op ∈ ops, op.1 ≠ [] := by
  induction ops generalizing t with
  | nil => exact fun op hop => absurd hop List.not_mem_nil
  | cons op ops ih =>
    obtain ⟨hfirst, hrest⟩ := List.forall_mem_cons.mp hok
    refine List.forall_mem_cons.mpr ⟨fun hempty => ?_, ih hrest⟩
    rw [symtableInsert, if_pos hempty] at hfirst
    cases hfirst

/-- When all insertions of names that fit succeed. -/
theorem insertAll_ok_iff {ops : List (Bytes × Word)} (hlen : ∀ op ∈ ops, op.1.length ≤ symNameMax) :
    (∀ rc ∈ (insertAll symtableReset ops).1, rc = .ok) ↔
      (∀ op ∈ ops, op.1 ≠ []) ∧ (ops.map Prod.fst).Nodup ∧ ops.length ≤ symCapacity := by
  have hadded : ∀ r : BoundedMap.Inserted, insertedCode r = .ok ↔ r = .added := by
    intro r
    cases r <;> simp [insertedCode]
  have hiff : (∀ op ∈ ops, op.1 ≠ []) → ((∀ rc ∈ (insertAll symtableReset ops).1, rc = .ok) ↔
      (ops.map Prod.fst).Nodup ∧ ops.length ≤ symCapacity) := by
    intro hne
    obtain ⟨hcodes, -⟩ := symRefines_reset.insertAll ops fun op hop => ⟨hne op hop, hlen op hop⟩
    rw [hcodes, List.forall_mem_map]
    simp only [hadded]
    rw [BoundedMap.insertAll_added_iff]
    simp [BoundedMap.keys, BoundedMap.empty]
  constructor
  · intro hok
    have hne := ne_nil_of_insertAll hok
    exact ⟨hne, (hiff hne).mp hok⟩
  · rintro ⟨hne, hrest⟩
    exact (hiff hne).mpr hrest

/-- **The symbol table refines a bounded finite map.** After any insertions of names that fit, the
return codes, every lookup and the count are those of the map the same insertions build, and an
insertion that is refused leaves the table as it was. -/
theorem symtable_refines (ops : List (Bytes × Word))
    (hops : ∀ op ∈ ops, op.1 ≠ [] ∧ op.1.length ≤ symNameMax) :
    let spec := (BoundedMap.empty : BoundedMap Bytes Word symCapacity).insertAll ops
    let code := insertAll symtableReset ops
    code.1 = spec.1.map insertedCode ∧
    (∀ n, symtableLookup code.2 n = (spec.2.get? n).elim symNotFound (BitVec.setWidth 32)) ∧
    symtableCount code.2 = spec.2.keys.length ∧
    (∀ n a, (symtableInsert code.2 n a).1 ≠ .ok → (symtableInsert code.2 n a).2 = code.2) := by
  obtain ⟨hcodes, hr⟩ := symRefines_reset.insertAll ops hops
  refine ⟨hcodes, hr.lookup (names_of_insertAll hops), ?_, fun n a => symtableInsert_refused⟩
  rw [symtableCount, hr.count, BoundedMap.keys, List.length_map]

/-- Two names, one of them inserted twice. -/
theorem symtable_refines_twice :
    (insertAll symtableReset [(ascii "A", 1), (ascii "B", 2), (ascii "A", 3)]).1 =
      [.ok, .ok, .duplicateLabel] :=
  (symtable_refines [(ascii "A", 1), (ascii "B", 2), (ascii "A", 3)] (by decide)).1

end Proof
end EduCpu16
