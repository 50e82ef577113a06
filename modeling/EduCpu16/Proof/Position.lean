import EduCpu16.Proof.Relocate

/-!
# Position independence

`.org k` in front of a source without one, read off the records of the passes. The image moves by
`k` exactly when no name outside the jumps ends at the entry of a label (`relocates_iff`). Such a
name can only be the first 63 bytes of a label that is longer (`endsAtLabel_cut`).

`PositionFree` is what one would ask for: no origin, and labels are used by jumps only, whose
offsets are relative. It is not enough, because the table compares names with what it has kept of
them. So the theorem has the exact condition behind it, in terms of a table that is made of the
names of the source and marks (`EndsAtLabel`), with no address in it.
-/

namespace EduCpu16
namespace Proof

open CLib Source

/-! ## What is asked of the source -/

/-- The name of a label line. -/
def IsLabelOf (lines : List Bytes) (n : Bytes) : Prop := n ≠ [] ∧ ∃ r ∈ rows lines, r.2.label = n

instance decidableIsLabelOf (lines : List Bytes) (n : Bytes) : Decidable (IsLabelOf lines n) :=
  inferInstanceAs (Decidable (_ ∧ _))

/-- A name among the operands of an instruction that is no jump, or the value of a `.word`. -/
def UsedOutsideJumps (pl : ParsedLine) (n : Bytes) : Prop :=
  (pl.kind = .instr ∧ ¬ IsJump pl.instr ∧ ∃ k : Fin 3, k.val < pl.instr.nops ∧
    (pl.instr.ops k).kind = .label ∧ (pl.instr.ops k).label = n) ∨
  (pl.kind = .directive ∧ pl.dir.kind = .word ∧ pl.dir.value.kind = .label ∧
    pl.dir.value.label = n)

/-- No `.org`; jumps go to labels that fit, and nothing else uses such a label. The last part is put
by name, as a reader of the source would check it, and not by what the table answers. -/
structure PositionFree (lines : List Bytes) : Prop where
  noOrg : ∀ r ∈ rows lines, ¬ IsOrg r.2
  jumps : ∀ r ∈ rows lines, r.2.kind = .instr → IsJump r.2.instr →
    ∀ k : Fin 3, k.val < r.2.instr.nops → (r.2.instr.ops k).kind = .label ∧
      (r.2.instr.ops k).label.length ≤ symNameMax ∧ IsLabelOf lines (r.2.instr.ops k).label
  others : ∀ r ∈ rows lines, ∀ n, UsedOutsideJumps r.2 n →
    ¬ (n.length ≤ symNameMax ∧ IsLabelOf lines n)

/-- The number of words of the source. -/
def size (lines : List Bytes) : Nat := ((rows lines).map fun r => (lineSize r.2).toNat).sum

/-- The names of the source in the order of their definitions: labels with 1, constants with 0. -/
def nameMarks (lines : List Bytes) : List (Bytes × Word) :=
  (rows lines).flatMap fun r => (if r.2.label ≠ [] then [(r.2.label, 1)] else []) ++
    if IsEqu r.2 then [(r.2.dir.name, 0)] else []

/-- In a table of these names, the lookup of `n` ends at a label. The marks stand in the place of
the addresses: which entry a lookup ends at does not depend on what is stored there, so one table
answers for the source at every origin. -/
def EndsAtLabel (lines : List Bytes) (n : Bytes) : Prop :=
  symtableLookup (insertAll symtableReset (nameMarks lines)).2 n = 1

/-- `lines'` is the same program `k` words up. The words of the program are compared address by
address, and below them there is nothing. -/
structure Relocates (opt : AsmOptions) (lines lines' : List Bytes) (k : Nat) : Prop where
  assembles : Assembles opt lines'
  moved : ∀ a < size lines, imageOf opt lines' (BitVec.ofNat 16 (k + a)) =
    imageOf opt lines (BitVec.ofNat 16 a)
  below : ∀ a < k, imageOf opt lines' (BitVec.ofNat 16 a) = 0

/-! ## On the statements

The predicates above are about records, so that a theorem about a source mentions no statements.
Where the source assembles every record holds one, and what was proved of statements carries over.
-/

section Record

variable {p : Word × Stmt} {pl : ParsedLine} (h : RecordAt p pl)
include h

theorem RecordAt.isJump_iff {m : Bytes} {args : List Arg} (hcmd : p.2.cmd = .instr m args) :
    IsJump pl.instr ↔ IsJump (instrOf m args) := by
  have hof := h.stmt.cmd
  rw [hcmd] at hof
  obtain ⟨-, hmnem, -⟩ := hof
  rw [IsJump, IsJump, show (instrOf m args).mnemonic = m from rfl, ← hmnem, findOp_lower]

theorem RecordAt.usedOutsideJumps_iff {n : Bytes} :
    UsedOutsideJumps pl n ↔ OutsideJumps p.2.cmd n := by
  have hjump : ∀ m args, p.2.cmd = .instr m args → (IsJump pl.instr ↔ IsJump (instrOf m args)) :=
    fun _ _ => h.isJump_iff
  have hof := h.stmt.cmd
  obtain ⟨addr, label, cmd⟩ := p
  cases cmd with
  | instr m args =>
    have hjump := hjump m args rfl
    simp only [UsedOutsideJumps, OutsideJumps, hof.1, hjump, reduceCtorEq, false_and, or_false,
      true_and]
    apply and_congr_right
    intro _
    constructor
    · rintro ⟨k, hk, hkind, rfl⟩
      obtain ⟨a, ha, harg⟩ := hof.exists_arg hk
      exact harg.of_label hkind ▸ ha
    · intro hmem
      exact hof.exists_operand hmem
  | word v =>
    obtain ⟨hk, hd, harg, -⟩ := hof
    simp only [UsedOutsideJumps, OutsideJumps, hk, hd, reduceCtorEq, false_and, false_or, true_and]
    cases v with
    | name m =>
      simp only [harg.1, harg.2, true_and, Arg.name.injEq]
    | reg r => simp [show pl.dir.value.kind = _ from harg.1]
    | imm v => simp [show pl.dir.value.kind = _ from harg.1]
  | nothing => rcases hof with hk | hk <;> simp [UsedOutsideJumps, OutsideJumps, hk]
  | ascii | org | equ => simp [UsedOutsideJumps, OutsideJumps, hof.1, hof.2.1]

end Record

/-- The registers of a record are registers of the machine. -/
theorem CmdOf.regs {pl : ParsedLine} (hok : LineOk pl) {c : Cmd} (h : CmdOf pl c) :
    ∀ m args, c = .instr m args → ∀ r, .reg r ∈ args → r.toNat < 8 := by
  rintro m args rfl r hr
  obtain ⟨k, -, hkind, hval⟩ := h.exists_operand hr
  exact hval ▸ hok.ops k hkind

section Rows

variable {lines : List Bytes} {ss : List Stmt}
  (hrec : List.Forall₂ (fun r p => RecordAt p r.2) (rows lines) (placed 0 ss))
include hrec

theorem exists_row {s : Stmt} (hs : s ∈ ss) :
    ∃ r ∈ rows lines, ∃ p ∈ placed 0 ss, p.2 = s ∧ RecordAt p r.2 := by
  obtain ⟨addr, hp⟩ := exists_placed hs 0
  obtain ⟨r, hr, hrp⟩ := Traverse.exists_left_of_mem hrec hp
  exact ⟨r, hr, _, hp, rfl, hrp⟩

theorem isLabelOf_iff {n : Bytes} : IsLabelOf lines n ↔ n ≠ [] ∧ ∃ s ∈ ss, s.label = n := by
  apply and_congr_right
  intro _
  constructor
  · rintro ⟨r, hr, rfl⟩
    obtain ⟨p, hp, hrp⟩ := Traverse.exists_right_of_mem hrec hr
    exact ⟨p.2, mem_of_placed hp, hrp.stmt.label.symm⟩
  · rintro ⟨s, hs, rfl⟩
    obtain ⟨r, hr, p, -, rfl, hrp⟩ := exists_row hrec hs
    exact ⟨r, hr, hrp.stmt.label⟩

theorem noOrg_of_rows (h : ∀ r ∈ rows lines, ¬ IsOrg r.2) : NoOrg ss := by
  intro s hs v hcmd
  obtain ⟨r, hr, p, -, rfl, hrp⟩ := exists_row hrec hs
  exact h r hr (hrp.stmt.isOrg.mpr ⟨v, hcmd⟩)

theorem PositionFree.jumpsToLabels (h : PositionFree lines) : JumpsToLabels ss := by
  intro s hs m args hcmd hjump a ha
  obtain ⟨r, hr, p, -, rfl, hrp⟩ := exists_row hrec hs
  have hof := hrp.stmt.cmd
  rw [hcmd] at hof
  obtain ⟨k, hk, harg⟩ := hof.exists_operand ha
  obtain ⟨hlabel, hlen, hname⟩ := h.jumps r hr hof.1 ((hrp.isJump_iff hcmd).mpr hjump) k hk
  obtain ⟨hne, hdef⟩ := (isLabelOf_iff hrec).mp hname
  exact ⟨_, harg.of_label hlabel, hne, hlen, hdef⟩

theorem rows_items : (rows lines).map (fun r => itemOf r.2) = ss.map fun s => s.cmd.item := by
  rw [← map_placed (fun s => s.cmd.item) ss 0, ← List.forall₂_eq_eq_eq,
    List.forall₂_map_left_iff, List.forall₂_map_right_iff]
  exact hrec.imp fun r p hrp => hrp.stmt.item

theorem size_eq : size lines = wordCount ss := by
  have hsizes := congrArg (List.map Layout.Item.size) (rows_items hrec)
  rw [List.map_map, List.map_map] at hsizes
  have hrow : (fun r : Bytes × ParsedLine => (lineSize r.2).toNat) =
      Layout.Item.size ∘ fun r => itemOf r.2 := by
    funext r
    exact (itemOf_size r.2).symm
  rw [size, hrow, hsizes, wordCount]
  rfl

theorem endsAtLabel_iff {n : Bytes} : EndsAtLabel lines n ↔ FindsLabel ss n := by
  have hmarks : nameMarks lines = (marked ss).map (Prod.map id mark) := by
    rw [marked, List.map_flatMap]
    refine Traverse.flatMap_eq_of_forall₂ (hrec.imp fun r p hrp => ?_)
    have hequ := hrp.stmt.isEqu
    have hlabel := hrp.stmt.label
    have hof := hrp.stmt.cmd
    obtain ⟨addr, label, cmd⟩ := p
    have hlabel : r.2.label = label := hlabel
    by_cases hl : label = [] <;> cases cmd
    case pos.equ | neg.equ => simp [marks, mark, hequ, hlabel, hl, hof.2.2.1]
    all_goals simp [marks, mark, hequ, hlabel, hl]
  rw [EndsAtLabel, FindsLabel, hmarks, envOf_eq_some]
  rfl

end Rows

/-- Outside the jumps, only the beginning of a label that is too long ends at a label. -/
theorem endsAtLabel_cut {opt : AsmOptions} {lines : List Bytes} (hok : Assembles opt lines)
    (hfree : PositionFree lines) {r : Bytes × ParsedLine} (hr : r ∈ rows lines) {n : Bytes}
    (hn : UsedOutsideJumps r.2 n) (hend : EndsAtLabel lines n) :
    ∃ l, IsLabelOf lines l ∧ symNameMax < l.length ∧ l.take symNameMax = n := by
  obtain ⟨ss, hss, -⟩ := assembles_iff_statements.mp hok
  have hrec := rows_statements hss (assembles_iff.mp hok).1
  obtain ⟨a, l, hmem, hcut, -⟩ := envAt_of_findsLabel ((endsAtLabel_iff hrec).mp hend)
  obtain ⟨hne, s, hp, hlabel⟩ := mem_marked_label.mp hmem
  have hs : s ∈ ss := mem_of_placed hp
  have hl : IsLabelOf lines l := (isLabelOf_iff hrec).mpr ⟨hne, s, hs, hlabel⟩
  refine ⟨l, hl, Nat.lt_of_not_le fun hle => ?_, hcut⟩
  rw [List.take_of_length_le hle] at hcut
  exact hfree.others r hr n hn (hcut ▸ ⟨hle, hl⟩)

/-! ## On the image

Without an origin the words are one stretch, which holds no address twice, so the image has at each
of its addresses the one word that was stored there. -/

section Image

variable {opt : AsmOptions} {lines : List Bytes} {ss : List Stmt}

theorem imageOf_eq (h : List.Forall₂ ReadsAs lines ss) (hok : Assembles opt lines) :
    imageOf opt lines = Stores.write (fun _ => 0) (stores ss) := by
  rw [imageOf, pass2_image, emitted_eq_stores h hok]

/-- The words go where the layout of the statements puts them. -/
theorem stores_layout (h : List.Forall₂ ReadsAs lines ss) (hok : Assembles opt lines) :
    (stores ss).map Prod.fst =
      (Layout.addrs 0 (ss.map fun s => s.cmd.item)).map (BitVec.ofNat 16) := by
  have hrec := rows_statements h (assembles_iff.mp hok).1
  rw [← emitted_eq_stores h hok, emitted_addrs hok, ← rows_layout hok, rows_items hrec]

/-- Without an origin they are one stretch. -/
theorem addrs_noOrg (hno : NoOrg ss) (c : Nat) :
    Layout.addrs c (ss.map fun s => s.cmd.item) = List.range' c (wordCount ss) := by
  have hno' : ∀ i ∈ ss.map (fun s => s.cmd.item), i.isOrg = false := by
    intro i hi
    obtain ⟨s, hs, rfl⟩ := List.mem_map.mp hi
    have hcmd := hno s hs
    cases hc : s.cmd with
    | org v => exact absurd hc (hcmd v)
    | nothing | instr | word | ascii | equ => rfl
  rw [Layout.addrs_of_no_org hno', List.map_map]
  rfl

/-- A stretch that ends in the memory holds no address twice. -/
theorem nodup_range'_words {c n : Nat} (h : c + n ≤ 65536) :
    ((List.range' c n).map (BitVec.ofNat 16)).Nodup := by
  refine List.Nodup.map_on (fun i hi j hj heq => ?_) List.nodup_range'
  rw [List.mem_range'_1] at hi hj
  have heq := congrArg BitVec.toNat heq
  simp only [BitVec.toNat_ofNat] at heq
  omega

/-- What the image holds at the address of a statement of one word. -/
theorem imageOf_one (h : List.Forall₂ ReadsAs lines ss) (hok : Assembles opt lines) {c : Nat}
    (haddrs : Layout.addrs 0 (ss.map fun s => s.cmd.item) = List.range' c (wordCount ss))
    (hc : c + wordCount ss ≤ 65536) {p : Word × Stmt} (hp : p ∈ placed 0 ss) {w : Word}
    (hw : p.2.cmd.words (envOf (tableOf ss).2) p.1 = some [w]) : imageOf opt lines p.1 = w := by
  rw [imageOf_eq h hok]
  refine Stores.write_of_nodup ?_ (List.mem_flatMap.mpr ⟨p, hp, ?_⟩)
  · rw [stores_layout h hok, haddrs]
    exact nodup_range'_words hc
  · rw [storesOf_one hw]
    exact List.mem_singleton_self _

end Image

section Relocates

variable {opt : AsmOptions} {lines : List Bytes} {ss : List Stmt} {org : Bytes} {v : I32}
  (h : List.Forall₂ ReadsAs lines ss) (horg : ReadsAs org (orgStmt v)) (hok : Assembles opt lines)
  (hno : NoOrg ss) (hsize : size lines = wordCount ss) (hk : v.toNat + wordCount ss ≤ 65535)
include h horg hok hno hsize hk

/-- If every statement keeps its words, the image moves. -/
theorem relocates_of_words (hrange : (orgStmt v).cmd.InRange)
    (hwords : ∀ p ∈ placed 0 ss, p.2.cmd.words (envAt ss (BitVec.ofNat 16 v.toNat))
      (p.1 + BitVec.ofNat 16 v.toNat) = p.2.cmd.words (envAt ss 0) p.1) :
    Relocates opt lines (org :: lines) v.toNat := by
  have h' : List.Forall₂ ReadsAs (org :: lines) (orgStmt v :: ss) := .cons horg h
  have hok' : Assembles opt (org :: lines) := (assembles_iff_assembled h').mpr
    (assembled_orgStmt hno rfl hwords hrange ((assembles_iff_assembled h).mp hok))
  have hstores := stores_orgStmt hno rfl hwords
  refine ⟨hok', fun a _ => ?_, fun a ha => ?_⟩
  · rw [imageOf_eq h' hok', imageOf_eq h hok, hstores, Nat.add_comm, BitVec.ofNat_add]
    exact Stores.write_map (fun x y hxy => (BitVec.add_left_inj _).mp hxy) rfl _
  · -- Below `k` there are no words.
    rw [imageOf_eq h' hok', Stores.write_of_notMem]
    have haddrs := stores_layout h hok
    rw [addrs_noOrg hno] at haddrs
    rw [hstores, List.map_map]
    intro hmem
    have hcomp : (Prod.fst ∘ Prod.map (· + BitVec.ofNat 16 v.toNat) id : Word × Word → Word) =
        (· + BitVec.ofNat 16 v.toNat) ∘ Prod.fst := rfl
    rw [hcomp, ← List.map_map, haddrs, List.map_map] at hmem
    obtain ⟨j, hj, heq⟩ := List.mem_map.mp hmem
    rw [List.mem_range'_1] at hj
    have heq := congrArg BitVec.toNat heq
    simp only [Function.comp_apply, BitVec.toNat_add, BitVec.toNat_ofNat] at heq
    omega

/-- If the image moves, a name outside the jumps that moves too is moved by zero. -/
theorem eq_zero_of_relocates (hmoved : Relocates opt lines (org :: lines) v.toNat) {p : Word × Stmt}
    (hp : p ∈ placed 0 ss)
    (hregs : ∀ m args, p.2.cmd = .instr m args → ∀ r, .reg r ∈ args → r.toNat < 8) {n : Bytes}
    (hn : OutsideJumps p.2.cmd n) (hfind : FindsLabel ss n) : v.toNat = 0 := by
  have h' : List.Forall₂ ReadsAs (org :: lines) (orgStmt v :: ss) := .cons horg h
  obtain ⟨t, -, -, -, henv⟩ := envAt_of_findsLabel hfind
  have hass := (assembles_iff_assembled h).mp hok
  have hass' := (assembles_iff_assembled h').mp hmoved.assembles
  -- The command has one word, before and after.
  have hsome := hass.words p hp
  rw [← envAt_zero hno] at hsome
  obtain ⟨w, hw⟩ := hn.words_eq hsome
  obtain ⟨w', hw'⟩ := hn.words_eq (wordsAt_orgStmt hno rfl hass' hp)
  by_contra hne
  have hk0 : BitVec.ofNat 16 v.toNat ≠ 0 := by
    intro hzero
    have hzero : (BitVec.ofNat 16 v.toNat).toNat = 0 := congrArg BitVec.toNat hzero
    rw [BitVec.toNat_ofNat] at hzero
    omega
  refine outside_word_ne hk0 ((henv 0).trans (congrArg some (BitVec.add_zero t))) (henv _) hregs hn
    hw hw' ?_
  -- Both are in the image, at addresses that correspond.
  obtain ⟨j, hj, -, hlt⟩ := placed_within hno hp
  have hitem : p.2.cmd.item.size = 1 := hn.size_eq
  have himage : imageOf opt lines p.1 = w :=
    imageOf_one h hok (addrs_noOrg hno 0) (by omega) hp (envAt_zero hno ▸ hw)
  have hp' : (p.1 + BitVec.ofNat 16 v.toNat, p.2) ∈ placed 0 (orgStmt v :: ss) := by
    rw [placed_orgStmt hno rfl]
    exact List.mem_cons_of_mem _ (List.mem_map_of_mem hp)
  have hcount : wordCount (orgStmt v :: ss) = wordCount ss := Nat.zero_add _
  have haddrs' : Layout.addrs 0 ((orgStmt v :: ss).map fun s => s.cmd.item) =
      List.range' v.toNat (wordCount (orgStmt v :: ss)) := by
    rw [hcount, ← addrs_noOrg hno]
    rfl
  have himage' : imageOf opt (org :: lines) (p.1 + BitVec.ofNat 16 v.toNat) = w' := by
    apply imageOf_one h' hmoved.assembles haddrs' (by omega) hp'
    rw [tableOf_orgStmt hno rfl]
    exact hw'
  rw [← himage, ← himage', hj, ← BitVec.ofNat_add, Nat.add_comm j]
  exact (hmoved.moved j (by omega)).symm

end Relocates

/-- **When a source is position independent.** Put behind `.org k`, a source whose labels are used
by jumps only is the same program `k` words up, unless `k` is not zero and a name used elsewhere
ends at a label all the same. -/
theorem relocates_iff {opt : AsmOptions} {lines : List Bytes} (hok : Assembles opt lines)
    (hfree : PositionFree lines) {org : Bytes} {n : Nat} {pl : ParsedLine}
    (hacc : Accepts org n pl) (horg : IsOrg pl) (hlabel : pl.label = []) {k : Nat}
    (hval : pl.dir.value.imm.toInt = k) (hk : k + size lines ≤ 0xFFFF) :
    Relocates opt lines (org :: lines) k ↔
      k = 0 ∨ ∀ r ∈ rows lines, ∀ m, UsedOutsideJumps r.2 m → ¬ EndsAtLabel lines m := by
  obtain ⟨ss, hss, hass⟩ := assembles_iff_statements.mp hok
  obtain ⟨s, hread, hof⟩ := hacc.readsAs
  -- The first line.
  obtain ⟨v, hcmd⟩ := hof.isOrg.mp horg
  have hof' := hof.cmd
  rw [hcmd] at hof'
  obtain ⟨-, -, rfl⟩ := hof'
  obtain rfl : s = orgStmt pl.dir.value.imm := by
    obtain ⟨label, cmd⟩ := s
    rw [show label = [] from hof.label.symm.trans hlabel, show cmd = _ from hcmd]
    rfl
  generalize pl.dir.value.imm = v at hread hval
  obtain rfl : v.toNat = k := by
    have hcond := BitVec.toInt_eq_toNat_cond v
    split at hcond <;> omega
  have hrec := rows_statements hss (assembles_iff.mp hok).1
  have hno := noOrg_of_rows hrec hfree.noOrg
  have hsize := size_eq hrec
  rw [hsize] at hk
  constructor
  · intro hmoved
    by_cases hzero : v.toNat = 0
    · exact .inl hzero
    · refine .inr fun r hr m hm hend => hzero ?_
      obtain ⟨p, hp, hrp⟩ := Traverse.exists_right_of_mem hrec hr
      exact eq_zero_of_relocates hss hread hok hno hsize hk hmoved hp
        (CmdOf.regs (hok.lineOk hr) hrp.stmt.cmd) (hrp.usedOutsideJumps_iff.mp hm)
        ((endsAtLabel_iff hrec).mp hend)
  · intro hcond
    have hrange : (orgStmt v).cmd.InRange := ⟨by omega, by omega⟩
    apply relocates_of_words hss hread hok hno hsize hk hrange
    intro p hp
    have hsmall : (BitVec.ofNat 16 v.toNat).toNat + wordCount ss ≤ 65535 := by
      rw [BitVec.toNat_ofNat]
      omega
    apply words_move hno hass (hfree.jumpsToLabels hrec) hsmall hp
    intro m hm
    rcases hcond with hzero | hnames
    · rw [hzero]
      rfl
    · obtain ⟨r, hr, hrp⟩ := Traverse.exists_left_of_mem hrec hp
      refine envAt_of_not_findsLabel (fun hfind => ?_) _
      exact hnames r hr m (hrp.usedOutsideJumps_iff.mpr hm) ((endsAtLabel_iff hrec).mpr hfind)

/-- A loop, sixteen words up. -/
theorem relocates_loop :
    let lines := [ascii "LOOP: ADDI R1, R1, -1", ascii "JNE LOOP"]
    Relocates {} lines (ascii ".org 16" :: lines) 16 := by
  intro lines
  have hplain : ∀ r ∈ rows lines, r.2.kind = .instr ∧
      (IsJump r.2.instr ∨ ∀ k, (r.2.instr.ops k).kind ≠ .label) := by decide +kernel
  have hnone : ∀ r ∈ rows lines, ∀ m, ¬ UsedOutsideJumps r.2 m := by
    rintro r hr m (⟨-, hjump, k, -, hlabel, -⟩ | ⟨hdir, -⟩)
    · rcases (hplain r hr).2 with hj | hno
      · exact hjump hj
      · exact hno k hlabel
    · cases (hplain r hr).1.symm.trans hdir
  have hfree : PositionFree lines := by
    refine ⟨?_, by decide +kernel, fun r hr m hm => absurd hm (hnone r hr m)⟩
    unfold IsOrg
    decide +kernel
  have hacc : Accepts (ascii ".org 16") 1 (parseLine (lexLine (ascii ".org 16") 1).1).1 :=
    ⟨(lexLine (ascii ".org 16") 1).1, by decide +kernel, by decide +kernel⟩
  refine (relocates_iff (by decide +kernel) hfree hacc (by unfold IsOrg; decide +kernel)
    (by decide +kernel) (by decide +kernel) (by decide +kernel)).mpr ?_
  exact .inr fun r hr m hm => absurd hm (hnone r hr m)

/-- The table keeps the first 63 bytes of a label of 64. A `.word` of these 63 finds it, and moves
with it. -/
theorem not_relocates : ¬ ∀ (opt : AsmOptions) (lines : List Bytes), Assembles opt lines →
    PositionFree lines → ∀ (org : Bytes) (n : Nat) (pl : ParsedLine), Accepts org n pl →
    IsOrg pl → pl.label = [] → ∀ k : Nat, pl.dir.value.imm.toInt = k → k + size lines ≤ 0xFFFF →
    Relocates opt lines (org :: lines) k := by
  intro hall
  let name : Bytes := List.replicate 63 (ch 'C')
  let lines := [ascii ".word " ++ name, name ++ ascii "h:", ascii "HALT"]
  have hused : ∀ r ∈ rows lines, (r.2.kind = .instr → r.2.instr.nops = 0) ∧
      (r.2.kind = .directive → r.2.dir.value.label = name) := by decide +kernel
  have hlabel : ¬ IsLabelOf lines name := by decide +kernel
  have hfree : PositionFree lines := by
    refine ⟨?_, by decide +kernel, ?_⟩
    · unfold IsOrg
      decide +kernel
    · rintro r hr m hm ⟨-, hm'⟩
      rcases hm with ⟨hk, -, k, hlt, -⟩ | ⟨hk, -, -, rfl⟩
      · exact absurd hlt (by rw [(hused r hr).1 hk]; exact Nat.not_lt_zero _)
      · exact hlabel ((hused r hr).2 hk ▸ hm')
  have hacc : Accepts (ascii ".org 1") 1 (parseLine (lexLine (ascii ".org 1") 1).1).1 :=
    ⟨(lexLine (ascii ".org 1") 1).1, by decide +kernel, by decide +kernel⟩
  have hmoved := hall {} lines (by decide +kernel) hfree (ascii ".org 1") 1 _ hacc
    (by unfold IsOrg; decide +kernel) (by decide +kernel) 1 (by decide +kernel) (by decide +kernel)
  have hword : imageOf {} (ascii ".org 1" :: lines) 1 ≠ imageOf {} lines 0 := by decide +kernel
  exact hword (hmoved.moved 0 (by decide +kernel))

end Proof
end EduCpu16
