import EduCpu16.Proof.Assembly

/-!
# Insertions that differ in their addresses

Which slots a run of insertions takes depends on the names and their order, and not on the addresses
that come with them: the hash is of the name, and a slot is passed over because it is used. This is
what lets two sources with the same names and another layout be compared, or a source be asked what
a name means before any address is known.

To say it, the two are kept apart. The slots hold something of any type `V`, and the address is
computed from it by a function that is given later (`tableWith`), so that all runs that differ in
that function only are one run. `tableFor_uniform` is the result: the return codes are the same, and
a lookup either fails under all functions or ends at one and the same entry under all of them. The
proof goes through the probe loops, once for insertion and once for lookup.
-/

namespace EduCpu16
namespace Proof

open CLib Source

variable {V : Type}

/-- A table as `symtable.c` has it, made of slots that hold a name and an element of `V`, and of
what the elements are as addresses. -/
def tableWith (s : Fin symCapacity → Option (Bytes × V)) (count : Nat) (f : V → Word) :
    Symtable where
  table := fun i => (s i).elim {} fun e => { name := e.1, addr := f e.2, used := true }
  count := count

theorem tableWith_table {s : Fin symCapacity → Option (Bytes × V)} {i : Fin symCapacity}
    {e : Bytes × V} (hs : s i = some e) (count : Nat) (f : V → Word) :
    (tableWith s count f).table i = { name := e.1, addr := f e.2, used := true } := by
  simp [tableWith, hs]

theorem insertLoop_tableWith (s : Fin symCapacity → Option (Bytes × V)) (count : Nat) (name : Bytes)
    (x : V) (h : BitVec 32) (probes : List Nat) : ∃ rc s' count',
    (∀ f, insertLoop (tableWith s count f) name (f x) h probes = (rc, tableWith s' count' f)) ∧
    ∀ i e, s' i = some e → s i = some e ∨ e = (name.take symNameMax, x) := by
  induction probes with
  | nil => exact ⟨.internal, s, count, fun _ => rfl, fun _ _ he => .inl he⟩
  | cons probe rest ih =>
    -- Whether a slot is free or holds the name does not depend on the values.
    cases hs : s (probeIndex h probe) with
    | none =>
      refine ⟨.ok, Function.update s (probeIndex h probe) (some (name.take symNameMax, x)),
        count + 1, fun f => ?_, fun i e he => ?_⟩
      · have hfree : ((tableWith s count f).table (probeIndex h probe)).used = false := by
          simp [tableWith, hs]
        rw [insertLoop, if_pos hfree]
        refine Prod.ext rfl (congrArg (Symtable.mk · (count + 1)) (funext fun i => ?_))
        by_cases hi : i = probeIndex h probe
        · subst hi
          simp
        · simp [tableWith, hi]
      · by_cases hi : i = probeIndex h probe
        · subst hi
          rw [Function.update_self] at he
          exact .inr (Option.some.inj he).symm
        · rw [Function.update_of_ne hi] at he
          exact .inl he
    | some e =>
      have hused := tableWith_table hs count
      by_cases hname : e.1 = name
      · refine ⟨.duplicateLabel, s, count, fun f => ?_, fun _ _ he => .inl he⟩
        simp [insertLoop, hused, hname]
      · obtain ⟨rc, s', count', hins, hfrom⟩ := ih
        refine ⟨rc, s', count', fun f => ?_, hfrom⟩
        rw [← hins f]
        simp [insertLoop, hused, hname]

theorem insertAll_tableWith (ops : List (Bytes × V)) (s : Fin symCapacity → Option (Bytes × V))
    (count : Nat) : ∃ codes s' count',
    (∀ f, insertAll (tableWith s count f) (ops.map (Prod.map id f)) =
      (codes, tableWith s' count' f)) ∧
    ∀ i e, s' i = some e → s i = some e ∨ ∃ op ∈ ops, e = (op.1.take symNameMax, op.2) := by
  induction ops generalizing s count with
  | nil => exact ⟨[], s, count, fun _ => rfl, fun _ _ he => .inl he⟩
  | cons op ops ih =>
    -- The first insertion: refused at once, or left to the probe loop.
    obtain ⟨rc, s₁, count₁, hone, hfrom₁⟩ : ∃ rc s₁ count₁,
        (∀ f, symtableInsert (tableWith s count f) op.1 (f op.2) = (rc, tableWith s₁ count₁ f)) ∧
        ∀ i e, s₁ i = some e → s i = some e ∨ e = (op.1.take symNameMax, op.2) := by
      by_cases hrefused : op.1 = [] ∨ symCapacity ≤ count
      · refine ⟨.internal, s, count, fun f => ?_, fun _ _ he => .inl he⟩
        rcases hrefused with hempty | hfull
        · rw [symtableInsert, if_pos hempty]
        · rw [symtableInsert, if_pos (show symCapacity ≤ (tableWith s count f).count from hfull),
            ite_self]
      · obtain ⟨hne, hlt⟩ := not_or.mp hrefused
        obtain ⟨rc, s₁, count₁, hins, hfrom⟩ :=
          insertLoop_tableWith s count op.1 op.2 (hashName op.1) (List.range symCapacity)
        refine ⟨rc, s₁, count₁, fun f => ?_, hfrom⟩
        rw [← hins f, symtableInsert, if_neg hne,
          if_neg (show ¬ symCapacity ≤ (tableWith s count f).count from hlt)]
    obtain ⟨codes, s', count', hrest, hfrom⟩ := ih s₁ count₁
    refine ⟨rc :: codes, s', count', fun f => ?_, fun i e he => ?_⟩
    · have hone' : symtableInsert (tableWith s count f) (Prod.map id f op).1 (Prod.map id f op).2 =
          (rc, tableWith s₁ count₁ f) := hone f
      rw [List.map_cons, insertAll, hone', hrest f]
    · rcases hfrom i e he with he | ⟨op', hop', he⟩
      · rcases hfrom₁ i e he with he | he
        · exact .inl he
        · exact .inr ⟨op, List.mem_cons_self, he⟩
      · exact .inr ⟨op', List.mem_cons_of_mem _ hop', he⟩

theorem lookupLoop_tableWith (s : Fin symCapacity → Option (Bytes × V)) (count : Nat) (name : Bytes)
    (h : BitVec 32) (probes : List Nat) :
    (∀ f, lookupLoop (tableWith s count f) name h probes = symNotFound) ∨
    ∃ i x, s i = some (name, x) ∧
      ∀ f, lookupLoop (tableWith s count f) name h probes = (f x).setWidth 32 := by
  induction probes with
  | nil => exact .inl fun _ => rfl
  | cons probe rest ih =>
    cases hs : s (probeIndex h probe) with
    | none => exact .inl fun f => by simp [lookupLoop, tableWith, hs]
    | some e =>
      have hused := tableWith_table hs count
      by_cases hname : e.1 = name
      · refine .inr ⟨_, e.2, hs.trans (congrArg (fun n => some (n, e.2)) hname), fun f => ?_⟩
        simp [lookupLoop, hused, hname]
      · have hskip : ∀ f, lookupLoop (tableWith s count f) name h (probe :: rest) =
            lookupLoop (tableWith s count f) name h rest := by
          intro f
          simp [lookupLoop, hused, hname]
        simpa only [hskip] using ih

/-- The table for a list of names and what their addresses are computed from. -/
def tableFor (ops : List (Bytes × V)) (f : V → Word) : List AsmError × Symtable :=
  insertAll symtableReset (ops.map (Prod.map id f))

/-- **Neither the codes nor the entry a lookup ends at depend on the addresses.** The second half
says which entry it is: one whose name, cut to the length a slot holds, is the name that was asked
for. -/
theorem tableFor_uniform (ops : List (Bytes × V)) :
    (∀ f g, (tableFor ops f).1 = (tableFor ops g).1) ∧
    ∀ n, (∀ f, envOf (tableFor ops f).2 n = none) ∨
      ∃ op ∈ ops, op.1.take symNameMax = n ∧ ∀ f, envOf (tableFor ops f).2 n = some (f op.2) := by
  obtain ⟨codes, s, count, hall, hfrom⟩ := insertAll_tableWith ops (fun _ => none) 0
  have hfor : ∀ f, tableFor ops f = (codes, tableWith s count f) := hall
  refine ⟨fun f g => by rw [hfor, hfor], fun n => ?_⟩
  simp only [hfor]
  by_cases hne : n = []
  · exact .inl fun f => envOf_eq_none.mpr (by rw [symtableLookup, if_pos hne])
  · have hlook : ∀ t, symtableLookup t n = lookupLoop t n (hashName n) (List.range symCapacity) :=
      fun t => if_neg hne
    rcases lookupLoop_tableWith s count n (hashName n) (List.range symCapacity) with
      hnone | ⟨i, x, hi, hfound⟩
    · exact .inl fun f => envOf_eq_none.mpr ((hlook _).trans (hnone f))
    · rcases hfrom i _ hi with habs | ⟨op, hop, he⟩
      · cases habs
      · obtain ⟨hname, rfl⟩ := Prod.mk.inj he
        exact .inr ⟨op, hop, hname.symm, fun f => envOf_eq_some.mpr ((hlook _).trans (hfound f))⟩

end Proof
end EduCpu16
