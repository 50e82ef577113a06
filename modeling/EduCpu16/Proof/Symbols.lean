import EduCpu16.Proof.Assembly

/-!
# What `--symbols` prints

The slots of the table are filled by hash, and `symtable_dump` goes over the slots in their order.
What it finds are the symbols of the source, in some order (`symtableDump_insertAll`), so the table
that is printed is complete and has nothing else in it (`symbols_printed`).

The induction is on the insertions. One that succeeds puts its entry into a slot that was free,
which in the list of entries is one more in some place; hence a permutation, and the count goes up
by one.
-/

namespace EduCpu16
namespace Proof

open CLib OpenAddressing Source

/-- A symbol as its slot keeps it. -/
def kept (d : Bytes × Word) : Bytes × Word := (d.1.take symNameMax, d.2)

theorem symtableDump_eq (t : Symtable) : symtableDump t = entries (slots t) := by
  rw [symtableDump, entries, List.filterMap_map]
  rfl

/-- One insertion that succeeds. -/
theorem symtableDump_insert {t : Symtable} {name : Bytes} {addr : Word}
    (hok : (symtableInsert t name addr).1 = .ok) :
    (symtableDump (symtableInsert t name addr).2).Perm (kept (name, addr) :: symtableDump t) ∧
    (symtableInsert t name addr).2.count = t.count + 1 := by
  rcases symtableInsert_cases t name addr with ⟨hno, -⟩ | ⟨-, -, i, -, hfree, heq⟩
  · exact absurd hok hno
  · rw [heq, symtableDump_eq, symtableDump_eq, slots_storeSymbol]
    exact ⟨entries_update hfree, rfl⟩

/-- A run of insertions that succeed. -/
theorem symtableDump_insertAll {ops : List (Bytes × Word)} : ∀ {t : Symtable},
    (∀ rc ∈ (insertAll t ops).1, rc = .ok) →
      (symtableDump (insertAll t ops).2).Perm (ops.map kept ++ symtableDump t) ∧
      (insertAll t ops).2.count = t.count + ops.length := by
  induction ops with
  | nil => exact fun _ => ⟨.refl _, rfl⟩
  | cons op ops ih =>
    intro t hok
    obtain ⟨hfirst, hrest⟩ := List.forall_mem_cons.mp hok
    obtain ⟨hperm, hcount⟩ := symtableDump_insert hfirst
    obtain ⟨hperm', hcount'⟩ := ih hrest
    refine ⟨?_, ?_⟩
    · refine hperm'.trans ((hperm.append_left _).trans ?_)
      exact List.perm_middle
    · rw [insertAll, hcount', hcount, List.length_cons]
      omega

end Proof
end EduCpu16
