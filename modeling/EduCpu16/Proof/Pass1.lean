import EduCpu16.Assembler.Assembler
import EduCpu16.Lib.Layout
import EduCpu16.Proof.Symtable
import Mathlib.Data.List.Induction

/-!
# What pass 1 leaves

A line is either rejected, with a diagnostic, or accepted and placed (`pass1Line_cases`). Placing a
line inserts its definitions into the symbol table and moves the address counter as the location
counter of `Lib/Layout.lean` does, modulo `2 ^ 16`.

`Pass1Ok` is the invariant of the loop. It collects what holds as long as no error was counted: what
the records are, at which addresses, and which insertions made the table. It is kept by one more
accepted line that counts no error (`Pass1Ok.place`), and as the count never goes down, a count of
zero at the end means that it held all the way.
-/

namespace EduCpu16
namespace Proof

open CLib

/-! ## Lines -/

/-- The front end accepts the line and leaves the record. -/
def Accepts (src : Bytes) (lineNo : Nat) (pl : ParsedLine) : Prop :=
  ∃ tl, lexLine src lineNo = (tl, none) ∧ parseLine tl = (pl, none)

def IsOrg (pl : ParsedLine) : Prop := pl.kind = .directive ∧ pl.dir.kind = .org

def IsEqu (pl : ParsedLine) : Prop := pl.kind = .directive ∧ pl.dir.kind = .equ

instance (pl : ParsedLine) : Decidable (IsOrg pl) := inferInstanceAs (Decidable (_ ∧ _))

instance (pl : ParsedLine) : Decidable (IsEqu pl) := inferInstanceAs (Decidable (_ ∧ _))

/-- What a line is to the location counter. -/
def itemOf (pl : ParsedLine) : Layout.Item :=
  if IsOrg pl then .org pl.dir.value.imm.toNat else .words (lineSize pl).toNat

/-- The symbols a placed line defines, in the order pass 1 inserts them. -/
def definitions (pl : ParsedLine) : List (Bytes × Word) :=
  (if pl.label ≠ [] then [(pl.label, pl.address)] else []) ++
  (if IsEqu pl then [(pl.dir.name, pl.dir.value.imm.setWidth 16)] else [])

theorem lineSize_of_isEqu {pl : ParsedLine} (h : IsEqu pl) : lineSize pl = 0 := by
  simp [lineSize, h.1, h.2]

theorem lineSize_of_isOrg {pl : ParsedLine} (h : IsOrg pl) : lineSize pl = 0 := by
  simp [lineSize, h.1, h.2]

theorem itemOf_size (pl : ParsedLine) : (itemOf pl).size = (lineSize pl).toNat := by
  unfold itemOf
  split
  · rename_i horg
    rw [lineSize_of_isOrg horg]
    rfl
  · rfl

/-! ## One line

Placing has two halves, the label and the body, and each gets its lemma; `place_spec` is the two in
sequence. The definitions are inserted in this order, so a label comes before a constant. -/

/-- The number of failures among return codes. -/
def failures (codes : List AsmError) : Nat := codes.countP (· ≠ .ok)

theorem failures_eq_zero {codes : List AsmError} : failures codes = 0 ↔ ∀ rc ∈ codes, rc = .ok := by
  simp [failures, List.countP_eq_zero]

/-- The operand of a `.org` is an address. -/
def OrgInRange (pl : ParsedLine) : Prop :=
  0 ≤ pl.dir.value.imm.toInt ∧ pl.dir.value.imm.toInt ≤ 0xFFFF

instance (pl : ParsedLine) : Decidable (OrgInRange pl) := inferInstanceAs (Decidable (_ ∧ _))

section Define

variable (st : Pass1) (lineNo : Nat) (what name : Bytes) (addr : Word)

@[simp] theorem define_sym :
    (st.define lineNo what name addr).sym = (symtableInsert st.sym name addr).2 := by
  unfold Pass1.define
  split
  split
  · rename_i heq _
    rw [heq]
  · rename_i heq _
    rw [heq]
    rfl

@[simp] theorem define_parsed : (st.define lineNo what name addr).parsed = st.parsed := by
  unfold Pass1.define
  split
  split
  · rfl
  · rfl

@[simp] theorem define_addr : (st.define lineNo what name addr).addr = st.addr := by
  unfold Pass1.define
  split
  split
  · rfl
  · rfl

@[simp] theorem define_nErrors : (st.define lineNo what name addr).nErrors =
    st.nErrors + failures [(symtableInsert st.sym name addr).1] := by
  unfold Pass1.define
  split
  rename_i heq
  split
  · rename_i hok
    simp [heq, hok, failures]
  · rename_i hok
    simp [heq, hok, failures, Pass1.report]

end Define

/-- The first half of placing a line: its label. -/
def placeLabel (st : Pass1) (pl : ParsedLine) : Pass1 :=
  if pl.label ≠ [] then st.define pl.lineNo (ascii "label") pl.label st.addr else st

/-- The second half: what its directive does, and the counter. -/
def placeBody (st : Pass1) (pl : ParsedLine) : Pass1 :=
  if IsOrg pl then
    let v := pl.dir.value.imm
    if v.toInt < 0 ∨ 0xFFFF < v.toInt then
      st.report ⟨pl.lineNo, .immOverflow, ascii ".org address 0x" ++ fmtX v ++
        ascii " out of range"⟩
    else
      let st := { st with addr := v.setWidth 16 }
      if st.sawOrigin then st else { st with origin := v.setWidth 16, sawOrigin := true }
  else if IsEqu pl then
    st.define pl.lineNo (ascii "constant") pl.dir.name (pl.dir.value.imm.setWidth 16)
  else { st with addr := st.addr + lineSize pl }

theorem place_eq (st : Pass1) (pl : ParsedLine) :
    let st₁ := { st with parsed := st.parsed ++ [{ pl with address := st.addr }] }
    st.place pl = placeBody (placeLabel st₁ pl) pl := rfl

theorem placeLabel_spec (st : Pass1) (pl : ParsedLine) :
    let r := insertAll st.sym (if pl.label ≠ [] then [(pl.label, st.addr)] else [])
    (placeLabel st pl).sym = r.2 ∧ (placeLabel st pl).parsed = st.parsed ∧
    (placeLabel st pl).addr = st.addr ∧
    (placeLabel st pl).nErrors = st.nErrors + failures r.1 := by
  by_cases h : pl.label ≠ []
  · simp [placeLabel, h, insertAll]
  · simp [placeLabel, h, insertAll, failures]

/-- The counter after a placed line. -/
def addrAfter (addr : Word) (pl : ParsedLine) : Word :=
  if IsOrg pl then if OrgInRange pl then pl.dir.value.imm.setWidth 16 else addr
  else addr + lineSize pl

theorem placeBody_spec (st : Pass1) (pl : ParsedLine) :
    let r := insertAll st.sym
      (if IsEqu pl then [(pl.dir.name, pl.dir.value.imm.setWidth 16)] else [])
    (placeBody st pl).sym = r.2 ∧ (placeBody st pl).parsed = st.parsed ∧
    (placeBody st pl).addr = addrAfter st.addr pl ∧
    (placeBody st pl).nErrors =
      st.nErrors + failures r.1 + if IsOrg pl ∧ ¬ OrgInRange pl then 1 else 0 := by
  by_cases horg : IsOrg pl
  · have hequ : ¬ IsEqu pl := by
      intro h
      exact absurd (horg.2.symm.trans h.2) (by decide)
    have hrange : (pl.dir.value.imm.toInt < 0 ∨ 0xFFFF < pl.dir.value.imm.toInt) ↔
        ¬ OrgInRange pl := by
      unfold OrgInRange
      omega
    by_cases hin : OrgInRange pl
    · cases hsaw : st.sawOrigin with
      | true => simp [placeBody, addrAfter, horg, hequ, hrange, hin, hsaw, insertAll, failures]
      | false => simp [placeBody, addrAfter, horg, hequ, hrange, hin, hsaw, insertAll, failures]
    · simp [placeBody, addrAfter, horg, hequ, hrange, hin, insertAll, failures, Pass1.report]
  · by_cases hequ : IsEqu pl
    · simp [placeBody, addrAfter, horg, hequ, insertAll, lineSize_of_isEqu hequ]
    · simp [placeBody, addrAfter, horg, hequ, insertAll, failures]

theorem failures_append (xs ys : List AsmError) :
    failures (xs ++ ys) = failures xs + failures ys := by
  simp [failures]

/-- **Placing a line**: it is appended with the counter as its address, its definitions are
inserted, and the counter moves. -/
theorem place_spec (st : Pass1) (pl : ParsedLine) :
    let p := { pl with address := st.addr }
    let r := insertAll st.sym (definitions p)
    (st.place pl).parsed = st.parsed ++ [p] ∧ (st.place pl).sym = r.2 ∧
    (st.place pl).addr = addrAfter st.addr pl ∧
    (st.place pl).nErrors =
      st.nErrors + failures r.1 + if IsOrg pl ∧ ¬ OrgInRange pl then 1 else 0 := by
  intro p r
  obtain ⟨hsym, hparsed, haddr, herr⟩ :=
    placeLabel_spec { st with parsed := st.parsed ++ [p] } pl
  obtain ⟨hsym', hparsed', haddr', herr'⟩ :=
    placeBody_spec (placeLabel { st with parsed := st.parsed ++ [p] } pl) pl
  have hr : r = _ := insertAll_append st.sym
    (if pl.label ≠ [] then [(pl.label, st.addr)] else [])
    (if IsEqu pl then [(pl.dir.name, pl.dir.value.imm.setWidth 16)] else [])
  rw [place_eq, hr]
  refine ⟨hparsed'.trans hparsed, ?_, ?_, ?_⟩
  · rw [hsym', hsym]
  · rw [haddr', haddr]
  · rw [herr', herr, hsym, failures_append, ← Nat.add_assoc]

/-- **A line of pass 1**: rejected with a diagnostic, or accepted and placed. -/
theorem pass1Line_cases (st : Pass1) (src : Bytes) :
    (∃ d pl, pass1Line st src = { st.report d with parsed := st.parsed ++ [pl] }) ∨
    ∃ pl, Accepts src (st.parsed.length + 1) pl ∧ pass1Line st src = st.place pl := by
  unfold pass1Line
  split
  · exact .inl ⟨_, _, rfl⟩
  · rename_i tl hlex
    split
    · exact .inl ⟨_, _, rfl⟩
    · rename_i pl hparse
      exact .inr ⟨pl, ⟨tl, hlex, hparse⟩, rfl⟩

theorem pass1Line_of_accepts {st : Pass1} {src : Bytes} {pl : ParsedLine}
    (h : Accepts src (st.parsed.length + 1) pl) : pass1Line st src = st.place pl := by
  obtain ⟨tl, hlex, hparse⟩ := h
  simp only [pass1Line, hlex, hparse]

/-! ## All lines

Lines are added at the end here, as the loop does it, so inductions go over initial parts of the
source. -/

theorem pass1_snoc (lines : List Bytes) (src : Bytes) :
    pass1 (lines ++ [src]) = pass1Line (pass1 lines) src := by
  simp [pass1, List.foldl_append]

theorem pass1_length (lines : List Bytes) : (pass1 lines).parsed.length = lines.length := by
  induction lines using List.reverseRecOn with
  | nil => rfl
  | append_singleton lines src ih =>
    rw [pass1_snoc]
    rcases pass1Line_cases (pass1 lines) src with ⟨d, pl, h⟩ | ⟨pl, -, h⟩
    · simp [h, ih]
    · rw [h, (place_spec _ _).1]
      simp [ih]

/-- The records of the first lines are not touched by the later ones. -/
theorem pass1_parsed_append (pre post : List Bytes) :
    ∃ tail, (pass1 (pre ++ post)).parsed = (pass1 pre).parsed ++ tail := by
  induction post using List.reverseRecOn with
  | nil => exact ⟨[], by simp⟩
  | append_singleton post src ih =>
    obtain ⟨tail, ih⟩ := ih
    rw [← List.append_assoc, pass1_snoc]
    rcases pass1Line_cases (pass1 (pre ++ post)) src with ⟨d, pl, h⟩ | ⟨pl, -, h⟩
    · exact ⟨tail ++ [pl], by simp [h, ih]⟩
    · rw [h, (place_spec _ _).1, ih]
      exact ⟨tail ++ [{ pl with address := (pass1 (pre ++ post)).addr }], by simp⟩

/-- The record of an accepted line carries the counter of the lines before it. -/
theorem pass1_parsed_get {pre post : List Bytes} {src : Bytes} {pl : ParsedLine}
    (h : Accepts src (pre.length + 1) pl) :
    (pass1 (pre ++ src :: post)).parsed[pre.length]? =
      some { pl with address := (pass1 pre).addr } := by
  have hline : (pass1 (pre ++ [src])).parsed =
      (pass1 pre).parsed ++ [{ pl with address := (pass1 pre).addr }] := by
    rw [← pass1_length] at h
    rw [pass1_snoc, pass1Line_of_accepts h]
    exact (place_spec _ _).1
  obtain ⟨tail, htail⟩ := pass1_parsed_append (pre ++ [src]) post
  rw [List.append_assoc, List.singleton_append] at htail
  rw [htail, hline, List.append_assoc, ← pass1_length, List.getElem?_append_right (Nat.le_refl _)]
  simp

/-- What pass 1 leaves of a source without errors. The table is described by the insertions that
made it and not by its contents; what a lookup in it answers is then a matter of `Symtable.lean`. -/
structure Pass1Ok (lines : List Bytes) (st : Pass1) : Prop where
  length : st.parsed.length = lines.length
  accepts : ∀ pl ∈ st.parsed, ∃ src lineNo pl₀ a, src ∈ lines ∧ Accepts src lineNo pl₀ ∧
    pl = { pl₀ with address := a }
  addresses : ∀ pre pl post, st.parsed = pre ++ pl :: post →
    pl.address = BitVec.ofNat 16 (Layout.counter 0 (pre.map itemOf))
  addr : st.addr = BitVec.ofNat 16 (Layout.counter 0 (st.parsed.map itemOf))
  codes : ∀ rc ∈ (insertAll symtableReset (st.parsed.flatMap definitions)).1, rc = .ok
  sym : st.sym = (insertAll symtableReset (st.parsed.flatMap definitions)).2
  orgs : ∀ pl ∈ st.parsed, IsOrg pl → OrgInRange pl

theorem pass1Ok_nil : Pass1Ok [] {} where
  length := rfl
  accepts := fun pl h => absurd h List.not_mem_nil
  addresses := fun pre pl post h => absurd h (by simp)
  addr := rfl
  codes := fun rc h => absurd h List.not_mem_nil
  sym := rfl
  orgs := fun pl h => absurd h List.not_mem_nil

/-- The machine counter follows the location counter. -/
theorem addrAfter_eq {c : Nat} {pl : ParsedLine} (h : IsOrg pl → OrgInRange pl) :
    addrAfter (BitVec.ofNat 16 c) pl = BitVec.ofNat 16 ((itemOf pl).next c) := by
  by_cases horg : IsOrg pl
  · rw [addrAfter, if_pos horg, if_pos (h horg), itemOf, if_pos horg, Layout.Item.next,
      BitVec.ofNat_toNat]
  · rw [addrAfter, if_neg horg, itemOf, if_neg horg, Layout.Item.next, BitVec.ofNat_add,
      BitVec.ofNat_toNat, BitVec.setWidth_eq]

/-- One more line without an error. -/
theorem Pass1Ok.place {lines : List Bytes} {st : Pass1} (hi : Pass1Ok lines st) {src : Bytes}
    {lineNo : Nat} {pl : ParsedLine} (ha : Accepts src lineNo pl)
    (herr : (st.place pl).nErrors = st.nErrors) : Pass1Ok (lines ++ [src]) (st.place pl) := by
  obtain ⟨hparsed, hsym, haddr, hn⟩ := place_spec st pl
  rw [hn] at herr
  have hcodes := failures_eq_zero.mp (show failures (insertAll st.sym
    (definitions { pl with address := st.addr })).1 = 0 by omega)
  have horg : IsOrg pl → OrgInRange pl := by
    intro horg
    by_contra hin
    rw [if_pos ⟨horg, hin⟩] at herr
    omega
  have hall : insertAll symtableReset ((st.place pl).parsed.flatMap definitions) =
      ((insertAll symtableReset (st.parsed.flatMap definitions)).1 ++
        (insertAll st.sym (definitions { pl with address := st.addr })).1,
        (insertAll st.sym (definitions { pl with address := st.addr })).2) := by
    rw [hparsed, List.flatMap_append, insertAll_append, ← hi.sym]
    simp
  refine ⟨?_, ?_, ?_, ?_, ?_, ?_, ?_⟩
  · rw [hparsed]
    simp [hi.length]
  · intro q hq
    rw [hparsed, List.mem_append, List.mem_singleton] at hq
    rcases hq with hq | rfl
    · obtain ⟨src', n, pl₀, a, hmem, hacc⟩ := hi.accepts q hq
      exact ⟨src', n, pl₀, a, List.mem_append_left _ hmem, hacc⟩
    · exact ⟨src, lineNo, pl, st.addr, by simp, ha, rfl⟩
  · intro pre q post heq
    rw [hparsed] at heq
    -- Either `q` is the new record, or it stands before it and `hi` knows its address.
    rcases List.eq_nil_or_concat post with rfl | ⟨post, last, rfl⟩
    · obtain ⟨hpre, hq⟩ := List.append_inj' heq rfl
      rw [List.cons.injEq] at hq
      rw [← hq.1, ← hpre]
      exact hi.addr
    · rw [List.concat_eq_append, ← List.cons_append, ← List.append_assoc] at heq
      exact hi.addresses pre q post (List.append_inj' heq rfl).1
  · rw [haddr, hi.addr, addrAfter_eq horg, hparsed, List.map_append, Layout.counter_append]
    rfl
  · intro rc hrc
    rw [hall] at hrc
    rcases List.mem_append.mp hrc with hrc | hrc
    · exact hi.codes rc hrc
    · exact hcodes rc hrc
  · rw [hall, hsym]
  · intro q hq
    rw [hparsed, List.mem_append, List.mem_singleton] at hq
    rcases hq with hq | rfl
    · exact hi.orgs q hq
    · exact horg

theorem pass1Line_nErrors_le (st : Pass1) (src : Bytes) :
    st.nErrors ≤ (pass1Line st src).nErrors := by
  rcases pass1Line_cases st src with ⟨d, pl, h⟩ | ⟨pl, -, h⟩
  · simp [h, Pass1.report]
  · rw [h, (place_spec st pl).2.2.2, Nat.add_assoc]
    exact Nat.le_add_right _ _

/-- **Pass 1 without errors.** -/
theorem pass1Ok {lines : List Bytes} (h : (pass1 lines).nErrors = 0) :
    Pass1Ok lines (pass1 lines) := by
  induction lines using List.reverseRecOn with
  | nil => exact pass1Ok_nil
  | append_singleton lines src ih =>
    rw [pass1_snoc] at h ⊢
    have hzero : (pass1 lines).nErrors = 0 :=
      Nat.le_zero.mp (h ▸ pass1Line_nErrors_le (pass1 lines) src)
    rcases pass1Line_cases (pass1 lines) src with ⟨d, pl, heq⟩ | ⟨pl, ha, heq⟩
    · simp [heq, Pass1.report] at h
    · rw [heq] at h ⊢
      exact (ih hzero).place ha (h.trans hzero.symm)

end Proof
end EduCpu16
