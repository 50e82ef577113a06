import EduCpu16.Proof.Parser
import EduCpu16.Proof.Pass1

/-!
# What pass 2 emits

The words a line emits go to consecutive addresses from the address pass 1 gave it, and there are as
many as `line_size` predicted (`pass2Line_addrs`). Over all lines (`emitted`) the addresses are
those of the layout of the source (`emitted_addrs`), where the layout, `layoutOf`, is read off the
lines alone.

Pass 2 writes into an image and counts as it goes. Both are sums over the rows, so the module takes
the loop apart once (`pass2_eq`, `foldl_add`), and what follows speaks of the list of stores.
-/

namespace EduCpu16
namespace Proof

open CLib

/-! ## One line -/

/-- `n` consecutive addresses from `a`. -/
def wordsFrom (a : Word) (n : Nat) : List Word :=
  (List.range n).map fun k => a + BitVec.ofNat 16 k

theorem wordsFrom_zero (a : Word) : wordsFrom a 0 = [] := rfl

theorem wordsFrom_succ (a : Word) (n : Nat) : wordsFrom a (n + 1) = a :: wordsFrom (a + 1) n := by
  have hshift : ∀ k, a + BitVec.ofNat 16 (k + 1) = a + 1 + BitVec.ofNat 16 k := by
    intro k
    rw [Nat.add_comm k 1, BitVec.ofNat_add, ← BitVec.add_assoc]
    rfl
  simp only [wordsFrom, List.range_succ_eq_map, List.map_cons, List.map_map, Function.comp_def,
    Nat.succ_eq_add_one, hshift]
  simp

theorem wordsFrom_ofNat (c n : Nat) :
    wordsFrom (BitVec.ofNat 16 c) n = (List.range' c n).map (BitVec.ofNat 16) := by
  rw [wordsFrom, List.range'_eq_map_range, List.map_map]
  apply List.map_congr_left
  intro k _
  simp [BitVec.ofNat_add]

/-- The write cursor of `.ascii`. -/
theorem asciiLoop_addrs (s : Bytes) (len : Nat) : ∀ (fuel b : Nat) (a : Word),
    (len + 2 - b) / 2 ≤ fuel →
    (asciiLoop s len fuel b a).map Prod.fst = wordsFrom a ((len + 2 - b) / 2)
  | 0, b, a, h => by
    rw [Nat.le_zero.mp h]
    rfl
  | fuel + 1, b, a, h => by
    rw [asciiLoop]
    by_cases hb : b ≤ len
    · have hn : (len + 2 - b) / 2 = (len + 2 - (b + 2)) / 2 + 1 := by omega
      rw [if_pos hb, hn, wordsFrom_succ, List.map_cons,
        asciiLoop_addrs s len fuel (b + 2) (a + 1) (by omega)]
    · have hn : (len + 2 - b) / 2 = 0 := by omega
      rw [if_neg hb, hn]
      rfl

theorem mem_take_finRange {k : Fin 3} {n : Nat} (h : k.val < n) :
    k ∈ (List.finRange 3).take n := by
  rw [List.mem_take_iff_getElem]
  refine ⟨k.val, ?_, by simp⟩
  rw [List.length_finRange]
  exact Nat.lt_min.mpr ⟨h, k.isLt⟩

/-- The operands in use all resolve. -/
theorem resolveOperands_nil_iff {sym : Symtable} {lineNo : Nat} {i : Instr} :
    (resolveOperands sym lineNo i).2 = [] ↔
      ∀ k : Fin 3, k.val < i.nops → (resolveOperand sym lineNo (i.ops k)).2 = none := by
  rw [resolveOperands, List.filterMap_eq_nil_iff]
  constructor
  · exact fun h k hk => h k (mem_take_finRange hk)
  · intro h k hk
    obtain ⟨j, hj, hjk⟩ := List.mem_take_iff_getElem.mp hk
    rw [List.length_finRange] at hj
    apply h k
    rw [← hjk, List.getElem_finRange]
    exact (Nat.lt_min.mp hj).1

/-- An instruction line without an error: its operands resolve, it is encoded, and the word goes
to its address. -/
theorem pass2Line_instr {opt : AsmOptions} {sym : Symtable} {src : Bytes} {pl : ParsedLine}
    (hk : pl.kind = .instr) (herr : (pass2Line opt sym src pl).nErrors = 0) :
    ∃ i w, resolveOperands sym pl.lineNo pl.instr = (i, []) ∧
      encodeInstr i pl.address 0 = (.ok, w) ∧
      (pass2Line opt sym src pl).stores = [(pl.address, w)] := by
  unfold pass2Line at herr ⊢
  rw [hk] at herr ⊢
  simp only at herr ⊢
  split at herr
  · rename_i i hres
    split at herr
    · rename_i w henc
      exact ⟨i, w, hres, henc, rfl⟩
    · cases herr
  · cases herr

/-- A `.word` line without an error. -/
theorem pass2Line_word {opt : AsmOptions} {sym : Symtable} {src : Bytes} {pl : ParsedLine}
    (hk : pl.kind = .directive) (hd : pl.dir.kind = .word)
    (herr : (pass2Line opt sym src pl).nErrors = 0) :
    ∃ o, resolveOperand sym pl.lineNo pl.dir.value = (o, none) ∧
      (pass2Line opt sym src pl).stores = [(pl.address, o.imm.setWidth 16)] := by
  unfold pass2Line at herr ⊢
  rw [hk, hd] at herr ⊢
  simp only at herr ⊢
  split at herr
  · cases herr
  · rename_i o hres
    exact ⟨o, hres, rfl⟩

/-- **The words of a line** go to consecutive addresses from its own, and are as many as
`line_size` says. -/
theorem pass2Line_addrs {opt : AsmOptions} {sym : Symtable} {src : Bytes} {pl : ParsedLine}
    (hok : LineOk pl) (herr : (pass2Line opt sym src pl).nErrors = 0) :
    (pass2Line opt sym src pl).stores.map Prod.fst =
      wordsFrom pl.address (lineSize pl).toNat := by
  have hone : wordsFrom pl.address 1 = [pl.address] := by
    rw [wordsFrom_succ, wordsFrom_zero]
  cases hk : pl.kind with
  | empty => simp [pass2Line, lineSize, hk, wordsFrom_zero]
  | label => simp [pass2Line, lineSize, hk, wordsFrom_zero]
  | instr =>
    obtain ⟨i, w, -, -, hst⟩ := pass2Line_instr hk herr
    rw [hst, lineSize, hk]
    exact hone.symm
  | directive =>
    cases hd : pl.dir.kind with
    | org => simp [pass2Line, lineSize, hk, hd, wordsFrom_zero]
    | equ => simp [pass2Line, lineSize, hk, hd, wordsFrom_zero]
    | word =>
      obtain ⟨o, -, hst⟩ := pass2Line_word hk hd herr
      rw [hst, lineSize, hk, hd]
      exact hone.symm
    | ascii =>
      -- The size is kept in 16 bits, which the longest string does not fill.
      have hmax : pl.dir.strLen ≤ 127 := hok.strMax
      have hsize : (lineSize pl).toNat = (pl.dir.strLen + 2 - 0) / 2 := by
        rw [lineSize, hk, hd]
        simp only [BitVec.toNat_ofNat]
        omega
      have hst : (pass2Line opt sym src pl).stores =
          asciiLoop pl.dir.str pl.dir.strLen (pl.dir.strLen + 1) 0 pl.address := by
        simp [pass2Line, hk, hd]
      rw [hst, hsize]
      exact asciiLoop_addrs _ _ _ _ _ (by omega)

/-! ## All lines

A row is a line with its record. Errors are counted row by row, so a source assembles exactly if
pass 1 counts none and none of its rows does (`assembles_iff`). -/

/-- The lines with their records, as pass 2 goes through them. -/
def rows (lines : List Bytes) : List (Bytes × ParsedLine) := lines.zip (pass1 lines).parsed

/-- What pass 2 does with a row. -/
def rowOut (opt : AsmOptions) (lines : List Bytes) (r : Bytes × ParsedLine) : LineOut :=
  pass2Line opt (pass1 lines).sym r.1 r.2

/-- The words pass 2 stores for a row, with their addresses, in order. -/
def emit (opt : AsmOptions) (lines : List Bytes) (r : Bytes × ParsedLine) : List (Word × Word) :=
  (rowOut opt lines r).stores

/-- All words pass 2 stores, in order. -/
def emitted (opt : AsmOptions) (lines : List Bytes) : List (Word × Word) :=
  (rows lines).flatMap (emit opt lines)

theorem foldl_add (outs : List LineOut) (st : Pass2) :
    (outs.foldl Pass2.add st).image = Stores.write st.image (outs.flatMap LineOut.stores) ∧
    (outs.foldl Pass2.add st).nErrors = st.nErrors + (outs.map LineOut.nErrors).sum := by
  induction outs generalizing st with
  | nil => exact ⟨rfl, rfl⟩
  | cons out outs ih =>
    obtain ⟨himage, herr⟩ := ih (st.add out)
    rw [List.foldl_cons, himage, herr, List.flatMap_cons, Stores.write_append, List.map_cons,
      List.sum_cons, ← Nat.add_assoc]
    exact ⟨rfl, rfl⟩

theorem pass2_eq (opt : AsmOptions) (lines : List Bytes) :
    pass2 opt lines (pass1 lines) = ((rows lines).map (rowOut opt lines)).foldl Pass2.add
      { nErrors := (pass1 lines).nErrors, diags := (pass1 lines).diags } := by
  rw [List.foldl_map]
  rfl

theorem foldl_add_nWords (outs : List LineOut) (st : Pass2) :
    (outs.foldl Pass2.add st).nWords =
      st.nWords + BitVec.ofNat 16 (outs.flatMap LineOut.stores).length := by
  induction outs generalizing st with
  | nil => exact (BitVec.add_zero _).symm
  | cons out outs ih =>
    rw [List.foldl_cons, ih, List.flatMap_cons, List.length_append, BitVec.ofNat_add,
      ← BitVec.add_assoc]
    rfl

/-- `n_words`, a `uint16_t`, counts them. -/
theorem pass2_nWords (opt : AsmOptions) (lines : List Bytes) :
    (assembleLines opt lines).result.nWords = BitVec.ofNat 16 (emitted opt lines).length := by
  have hcount := foldl_add_nWords ((rows lines).map (rowOut opt lines))
    { nErrors := (pass1 lines).nErrors, diags := (pass1 lines).diags }
  rw [← pass2_eq, List.flatMap_map] at hcount
  exact hcount.trans (BitVec.zero_add _)

theorem pass2_image (opt : AsmOptions) (lines : List Bytes) :
    (pass2 opt lines (pass1 lines)).image = Stores.write (fun _ => 0) (emitted opt lines) := by
  rw [pass2_eq, (foldl_add _ _).1, List.flatMap_map]
  rfl

/-- `n_errors`, over both passes. -/
theorem nErrors_eq (opt : AsmOptions) (lines : List Bytes) :
    (assembleLines opt lines).result.nErrors =
      (pass1 lines).nErrors + ((rows lines).map fun r => (rowOut opt lines r).nErrors).sum := by
  have hsum := (foldl_add ((rows lines).map (rowOut opt lines))
    { nErrors := (pass1 lines).nErrors, diags := (pass1 lines).diags }).2
  rw [← pass2_eq, List.map_map] at hsum
  exact hsum

/-- The memory image of a source. -/
def imageOf (opt : AsmOptions) (lines : List Bytes) : Word → Word :=
  (pass2 opt lines (pass1 lines)).image

/-- The source assembles with zero errors. -/
def Assembles (opt : AsmOptions) (lines : List Bytes) : Prop :=
  (assembleLines opt lines).result.nErrors = 0

instance (opt : AsmOptions) (lines : List Bytes) : Decidable (Assembles opt lines) :=
  inferInstanceAs (Decidable (_ = _))

section Assembles

variable {opt : AsmOptions} {lines : List Bytes}

theorem assembles_iff : Assembles opt lines ↔
    (pass1 lines).nErrors = 0 ∧ ∀ r ∈ rows lines, (rowOut opt lines r).nErrors = 0 := by
  rw [Assembles, nErrors_eq, Nat.add_eq_zero_iff, List.sum_eq_zero_iff_forall_eq_nat,
    List.forall_mem_map]

/-- The file, when there are no errors. -/
theorem bin_eq (h : Assembles opt lines) : (assembleLines opt lines).bin =
    some (imageBytes (Stores.write (fun _ => 0) (emitted opt lines))
      (highest (pass1 lines).addr + 1).toNat) := by
  have hzero : (pass2 opt lines (pass1 lines)).nErrors = 0 := h
  simp only [assembleLines, hzero, if_true, pass2_image]

variable (h : Assembles opt lines)
include h

theorem Assembles.pass1Ok : Pass1Ok lines (pass1 lines) := Proof.pass1Ok (assembles_iff.mp h).1

omit h in
theorem rows_snd (lines : List Bytes) : (rows lines).map Prod.snd = (pass1 lines).parsed :=
  List.map_snd_zip (Nat.le_of_eq (pass1_length lines))

omit h in
theorem rows_fst (lines : List Bytes) : (rows lines).map Prod.fst = lines :=
  List.map_fst_zip (Nat.le_of_eq (pass1_length lines).symm)

omit h in
theorem rows_mem {r : Bytes × ParsedLine} (hr : r ∈ rows lines) : r.2 ∈ (pass1 lines).parsed :=
  (List.of_mem_zip hr).2

omit h in
/-- A row at which the rows are cut is a row. -/
theorem row_mem {pre post : List (Bytes × ParsedLine)} {r : Bytes × ParsedLine}
    (hrows : rows lines = pre ++ r :: post) : r ∈ rows lines := by
  rw [hrows]
  exact List.mem_append_right pre List.mem_cons_self

theorem Assembles.lineOk {r : Bytes × ParsedLine} (hr : r ∈ rows lines) : LineOk r.2 := by
  obtain ⟨src, n, pl, a, -, ⟨tl, -, hparse⟩, heq⟩ := h.pass1Ok.accepts r.2 (rows_mem hr)
  have hok := parseLine_ok tl
  rw [hparse] at hok
  rw [heq]
  exact ⟨hok.ops, hok.strLen, hok.strMax⟩

/-- The words of a row. -/
theorem Assembles.emit_addrs {r : Bytes × ParsedLine} (hr : r ∈ rows lines) :
    (emit opt lines r).map Prod.fst = wordsFrom r.2.address (lineSize r.2).toNat :=
  pass2Line_addrs (h.lineOk hr) ((assembles_iff.mp h).2 r hr)

theorem Assembles.emit_length {r : Bytes × ParsedLine} (hr : r ∈ rows lines) :
    (emit opt lines r).length = (lineSize r.2).toNat := by
  have hlen := congrArg List.length (h.emit_addrs hr)
  simpa [wordsFrom] using hlen

/-- The address of a row is the location counter after the rows before it. -/
theorem Assembles.address {pre post : List (Bytes × ParsedLine)} {r : Bytes × ParsedLine}
    (hrows : rows lines = pre ++ r :: post) : r.2.address =
      BitVec.ofNat 16 (Layout.counter 0 (pre.map fun q => itemOf q.2)) := by
  have hparsed := rows_snd lines
  rw [hrows, List.map_append, List.map_cons] at hparsed
  have haddr := h.pass1Ok.addresses _ _ _ hparsed.symm
  rwa [List.map_map] at haddr

end Assembles

/-! ## The layout of a source

A layout is what a source is to the location counter: origins and sizes. It is defined for every
source, by parsing each line on its own, and for one without errors it is what pass 1 has gone by.
-/

/-- What the lines are to the location counter, whatever the passes make of them. A line that is
rejected counts as its unfinished record does, which no result about sources that assemble depends
on. -/
def layoutOf (lines : List Bytes) : List Layout.Item :=
  lines.mapIdx fun i src => itemOf (parseLine (lexLine src (i + 1)).1).1

theorem parsed_layout {lines : List Bytes} (h : (pass1 lines).nErrors = 0) :
    (pass1 lines).parsed.map itemOf = layoutOf lines := by
  induction lines using List.reverseRecOn with
  | nil => rfl
  | append_singleton lines src ih =>
    rw [pass1_snoc] at h ⊢
    have hzero : (pass1 lines).nErrors = 0 :=
      Nat.le_zero.mp (h ▸ pass1Line_nErrors_le (pass1 lines) src)
    rcases pass1Line_cases (pass1 lines) src with ⟨d, pl, heq⟩ | ⟨pl, ⟨tl, hlex, hparse⟩, heq⟩
    · simp [heq, Pass1.report] at h
    · rw [pass1_length] at hlex
      have hsnoc : layoutOf (lines ++ [src]) = layoutOf lines ++ [itemOf pl] := by
        rw [layoutOf, List.mapIdx_concat, hlex, hparse]
        rfl
      rw [heq, (place_spec _ _).1, List.map_append, ih hzero, hsnoc]
      rfl

theorem rows_layout {opt : AsmOptions} {lines : List Bytes} (h : Assembles opt lines) :
    (rows lines).map (fun r => itemOf r.2) = layoutOf lines := by
  rw [← parsed_layout (assembles_iff.mp h).1, ← rows_snd, List.map_map]
  rfl

/-- The words of a row go where the location counter says, modulo `2 ^ 16`. -/
theorem Assembles.emit_range {opt : AsmOptions} {lines : List Bytes} (h : Assembles opt lines)
    {pre post : List (Bytes × ParsedLine)} {r : Bytes × ParsedLine}
    (hrows : rows lines = pre ++ r :: post) : (emit opt lines r).map Prod.fst =
      (List.range' (Layout.counter 0 (pre.map fun q => itemOf q.2)) (itemOf r.2).size).map
        (BitVec.ofNat 16) := by
  have hr := row_mem hrows
  rw [h.emit_addrs hr, h.address hrows, wordsFrom_ofNat, itemOf_size]

/-- **All words go where the layout of the source puts them**, modulo `2 ^ 16`. -/
theorem emitted_addrs {opt : AsmOptions} {lines : List Bytes} (h : Assembles opt lines) :
    (emitted opt lines).map Prod.fst =
      (Layout.addrs 0 (layoutOf lines)).map (BitVec.ofNat 16) := by
  -- From any row on; the rows before it set the counter.
  have hrest : ∀ post pre, rows lines = pre ++ post →
      (post.flatMap (emit opt lines)).map Prod.fst =
        (Layout.addrs (Layout.counter 0 (pre.map fun q => itemOf q.2))
          (post.map fun q => itemOf q.2)).map (BitVec.ofNat 16) := by
    intro post
    induction post with
    | nil => intro _ _; rfl
    | cons r post ih =>
      intro pre hrows
      have hnext := ih (pre ++ [r]) (by rw [hrows]; simp)
      rw [List.map_append, Layout.counter_append] at hnext
      have hcons : (r :: post).map (fun q => itemOf q.2) =
          itemOf r.2 :: post.map fun q => itemOf q.2 := rfl
      rw [List.flatMap_cons, List.map_append, h.emit_range hrows, hnext, hcons,
        Layout.addrs_cons, List.map_append]
      rfl
  have hall := hrest (rows lines) [] rfl
  rwa [rows_layout h] at hall

end Proof
end EduCpu16
