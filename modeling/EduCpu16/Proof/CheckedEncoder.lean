import EduCpu16.Checked.Encoder
import EduCpu16.Proof.Number
import EduCpu16.Proof.Relocate

/-!
# The subtraction of a jump

`target - (pc + 1)` is computed on `int32_t`, and where it has no room the C program is undefined.
It leaves the type exactly for the `pc + 1` smallest targets (`ssubOverflow_next`). A label is never
one of them, its address being at most `0xFFFF`; a number that is written in the source is one if it
is cut so low (`jump_sub_safe_iff`).

The checked encoder faults there and nowhere else (`checked_encodeInstr_iff`). What remains is to
follow the operand from the subtraction back to the token it was read from: through the resolution
of pass 2, which leaves a number as it is, and through `parse_number`, which cuts it to 32 bits.
-/

namespace EduCpu16
namespace Proof

open CLib CheckedC Source

/-! ## The subtraction

The right operand is from 1 to `0x10000`, so only targets near the least `int32_t` go wrong. -/

/-- The target is too far below. -/
def TooLow (target : I32) (pc : Word) : Prop := target.toInt < -2 ^ 31 + (pc.toNat + 1)

theorem next_toInt (pc : Word) : (pc.setWidth 32 + 1 : I32).toInt = pc.toNat + 1 := by
  have hpc := pc.isLt
  rw [BitVec.toInt_eq_toNat_of_lt]
  · simp [BitVec.toNat_add]
    omega
  · simp [BitVec.toNat_add]
    omega

theorem ssubOverflow_next (target : I32) (pc : Word) :
    target.ssubOverflow (pc.setWidth 32 + 1) = true ↔ TooLow target pc := by
  have hlow := BitVec.toInt_lt (x := target)
  rw [BitVec.ssubOverflow, next_toInt, TooLow]
  simp only [Bool.or_eq_true, decide_eq_true_eq]
  omega

/-- `encode_instr` comes to its subtraction, and the result has no room. It comes there for a jump
with one operand that is a number by then; every other instruction returns before. -/
def SubOverflows (i : Instr) (pc : Word) : Prop :=
  IsJump i ∧ i.nops = 1 ∧ (i.ops 0).kind = .imm ∧ TooLow (i.ops 0).imm pc

/-- Only a jump can fault. -/
theorem checked_encodeInstr_other {i : Instr} (h : ¬ IsJump i) (pc out : Word) :
    Checked.encodeInstr i pc out = .ok (encodeInstr i pc out) := by
  rw [IsJump] at h
  rw [Checked.encodeInstr]
  cases hd : findOp i.mnemonic with
  | none => simp only [encodeInstr, hd, pure, Except.pure]
  | some d =>
    rw [hd] at h
    cases hfmt : d.fmt
    case j => exact absurd (congrArg some hfmt) h
    all_goals
      simp only [hfmt]
      rfl

/-- A jump without one number for its operand is turned away before the subtraction. -/
theorem checked_encodeInstr_operands {i : Instr} (hjump : IsJump i)
    (h : ¬ (i.nops = 1 ∧ (i.ops 0).kind = .imm)) (pc out : Word) :
    Checked.encodeInstr i pc out = .ok (encodeInstr i pc out) := by
  obtain ⟨d, hd, hfmt⟩ := Option.map_eq_some_iff.mp hjump
  simp only [Checked.encodeInstr, encodeInstr, hd, hfmt]
  by_cases hn : i.nops = 1
  · have himm : (i.ops 0).kind ≠ .imm := fun hk => h ⟨hn, hk⟩
    rw [if_neg (not_not.mpr hn), if_neg (not_not.mpr hn), if_neg himm, if_neg himm]
    split
    · rfl
    · rfl
  · rw [if_pos hn, if_pos hn]
    rfl

theorem checked_encodeInstr_jump {i : Instr} (hjump : IsJump i) (hn : i.nops = 1)
    (himm : (i.ops 0).kind = .imm) (pc out : Word) :
    Checked.encodeInstr i pc out = .ok (encodeInstr i pc out) ↔
      ¬ TooLow (i.ops 0).imm pc := by
  obtain ⟨d, hd, hfmt⟩ := Option.map_eq_some_iff.mp hjump
  rw [← ssubOverflow_next]
  simp only [Checked.encodeInstr, encodeInstr, hd, hfmt, ne_eq, hn, himm, not_true_eq_false,
    if_false, if_true]
  by_cases hover : (i.ops 0).imm.ssubOverflow (pc.setWidth 32 + 1) = true
  · rw [sub_of_overflow hover]
    exact iff_of_false (by simp [bind, Except.bind]) (not_not.mpr hover)
  · rw [sub_of_not_overflow hover]
    exact iff_of_true rfl hover

/-- **The fault of the encoder.** -/
theorem checked_encodeInstr_iff (i : Instr) (pc out : Word) :
    Checked.encodeInstr i pc out = .ok (encodeInstr i pc out) ↔ ¬ SubOverflows i pc := by
  by_cases hjump : IsJump i
  · by_cases hop : i.nops = 1 ∧ (i.ops 0).kind = .imm
    · rw [checked_encodeInstr_jump hjump hop.1 hop.2, SubOverflows]
      simp only [hjump, hop.1, hop.2, true_and]
    · exact iff_of_true (checked_encodeInstr_operands hjump hop pc out)
        fun h => hop ⟨h.2.1, h.2.2.1⟩
  · exact iff_of_true (checked_encodeInstr_other hjump pc out) fun h => hjump h.1

/-! ## The operand

From the encoder back to the line: pass 2 puts an address in the place of a name, and an address is
not too low. -/

/-- An address is a target like any other. -/
theorem not_tooLow_word (a pc : Word) : ¬ TooLow (a.setWidth 32) pc := by
  have ha := a.isLt
  rw [TooLow, BitVec.toInt_eq_toNat_of_lt]
  · omega
  · simp
    omega

/-- In pass 2 an operand is a target that is too low if it was a number that is. -/
theorem tooLow_resolved {o : Operand} {a : Arg} (h : ArgOf o a) (sym : Symtable) (lineNo : Nat)
    (pc : Word) : ((resolveOperand sym lineNo o).1.kind = .imm ∧
      TooLow (resolveOperand sym lineNo o).1.imm pc) ↔ ∃ v, a = .imm v ∧ TooLow v pc := by
  cases a with
  | reg r =>
    obtain ⟨hk, -⟩ := h
    have hreg : o.kind ≠ .label := by
      rw [hk]
      decide
    rw [resolveOperand, if_pos hreg, hk]
    simp
  | imm v =>
    obtain ⟨hk, rfl⟩ := h
    have himm : o.kind ≠ .label := by
      rw [hk]
      decide
    rw [resolveOperand, if_pos himm, hk]
    simp
  | name n =>
    obtain ⟨hk, rfl⟩ := h
    have hlabel : ¬ o.kind ≠ .label := not_not.mpr hk
    rw [resolveOperand, if_neg hlabel]
    simp only
    rcases symtableLookup_cases sym o.label with hnone | ⟨a, ha⟩
    · rw [if_pos hnone, hk]
      simp
    · rw [ha, if_neg (setWidth_ne_symNotFound a)]
      simp [not_tooLow_word]

/-- The line overflows if its only argument is a number that is too low. -/
theorem subOverflows_iff {pl : ParsedLine} {m : Bytes} {args : List Arg}
    (hof : CmdOf pl (.instr m args)) (hjump : IsJump pl.instr) (sym : Symtable) (lineNo : Nat)
    (pc : Word) : SubOverflows (resolveOperands sym lineNo pl.instr).1 pc ↔
      ∃ v, args = [.imm v] ∧ TooLow v pc := by
  obtain ⟨-, -, -, hnops, hops⟩ := hof
  have hjump' : IsJump (resolveOperands sym lineNo pl.instr).1 := hjump
  have hnops' : (resolveOperands sym lineNo pl.instr).1.nops = args.length := hnops
  rw [SubOverflows, hnops']
  by_cases hone : args.length = 1
  · obtain ⟨a, rfl⟩ := List.length_eq_one_iff.mp hone
    have hused : (0 : Fin 3).val < pl.instr.nops := by
      rw [hnops]
      exact Nat.one_pos
    have hop : (resolveOperands sym lineNo pl.instr).1.ops 0 =
        (resolveOperand sym lineNo (pl.instr.ops 0)).1 := if_pos hused
    rw [hop, tooLow_resolved (hops 0 a rfl) sym lineNo pc]
    simp [hjump']
  · apply iff_of_false
    · exact fun h => hone h.2.1
    · rintro ⟨v, rfl, -⟩
      exact hone rfl

/-! ## The number of the operand -/

theorem tooLow_cut (v : Int) (pc : Word) : TooLow (cut v) pc ↔ CutsLow (pc.toNat + 1) v := by
  have hpc := pc.isLt
  rw [TooLow, CutsLow, cut, BitVec.toInt_ofInt, Int.bmod_def]
  unfold LONG_MIN LONG_MAX
  omega

/-! ## A line

From the line back to its text: the number token and what it spells. -/

theorem readDir_ne_instr (k : DirectiveKind) (args : List Token) {m : Bytes} {as : List Arg} :
    readDir k args ≠ some (.instr m as) := by
  intro h
  unfold readDir at h
  split at h
  · split at h
    · cases h
    · cases h
  · obtain ⟨v, -, heq⟩ := Option.map_eq_some_iff.mp h
    cases heq
  · cases (Option.ite_none_right_eq_some.mp h).2
  · obtain ⟨v, -, heq⟩ := Option.map_eq_some_iff.mp (Option.ite_none_right_eq_some.mp h).2
    cases heq
  · cases h

/-- An instruction is a mnemonic and its arguments. -/
theorem readCmd_instr {ts : List Token} {m : Bytes} {args : List Arg}
    (h : readCmd ts = some (.instr m args)) :
    ∃ head rest, ts = head :: rest ∧ rest.mapM readArg = some args := by
  cases ts with
  | nil => cases h
  | cons head rest =>
    refine ⟨head, rest, rfl, ?_⟩
    rw [readCmd] at h
    split at h
    · obtain ⟨-, h⟩ := Option.ite_none_right_eq_some.mp h
      obtain ⟨args', hargs, heq⟩ := Option.map_eq_some_iff.mp h
      injection heq with _ heq
      rw [hargs, heq]
    · obtain ⟨k, -, h⟩ := Option.bind_eq_some_iff.mp h
      exact absurd h (readDir_ne_instr k rest)
    · cases h

theorem readArg_imm {t : Token} {v : I32} :
    readArg t = some (.imm v) ↔ t.kind = .number ∧ parseNumber t.text = some v := by
  unfold readArg
  cases hk : t.kind with
  | number => simp
  | ident =>
    simp only [reduceCtorEq, false_and, iff_false]
    cases parseRegister t.text with
    | none => simp
    | some r => simp
  | none | label | string | directive => simp

theorem mem_of_mem_splitLabel {ts : List Token} {t : Token} (h : t ∈ (splitLabel ts).2) :
    t ∈ ts := by
  cases ts with
  | nil => exact h
  | cons u us =>
    rw [splitLabel] at h
    split at h
    · exact List.mem_cons_of_mem u h
    · exact h

/-- The tokens of an instruction and the arguments they are read as. -/
theorem Accepts.instr {src : Bytes} {lineNo : Nat} {pl : ParsedLine} (h : Accepts src lineNo pl)
    (hk : pl.kind = .instr) : ∃ ts head rest m args, Lexes src ts ∧
      (splitLabel ts).2 = head :: rest ∧ List.Forall₂ (fun t a => readArg t = some a) rest args ∧
      CmdOf pl (.instr m args) ∧ ∀ t ∈ rest, t.kind = .number → NumberText t.text := by
  obtain ⟨tl, hlex, hparse⟩ := h
  obtain ⟨hiff, hof⟩ := parseLine_readStmt (lexLine_text hlex)
  rw [hparse] at hiff hof
  obtain ⟨s, hs⟩ := Option.isSome_iff_exists.mp (hiff.mp rfl)
  obtain ⟨-, hts, -⟩ := lexLine_iff.mp hlex
  obtain ⟨c, hc, rfl⟩ := Option.map_eq_some_iff.mp hs
  obtain ⟨m, args, rfl⟩ := cmd_of_instr (hof _ hs).cmd hk
  obtain ⟨head, rest, hsplit, hargs⟩ := readCmd_instr hc
  refine ⟨tl.tokens, head, rest, m, args, hts, hsplit, Traverse.mapM_eq_some_iff.mp hargs,
    (hof _ hs).cmd, ?_⟩
  intro t ht
  have hnumber := lexLine_numberText src lineNo t
  rw [hlex] at hnumber
  apply hnumber
  apply mem_of_mem_splitLabel
  rw [hsplit]
  exact List.mem_cons_of_mem head ht

/-- The operand of the line, and its only one, is a number that is cut so low. It is said of the
text of the token, by what it spells, and not of the value the code has read. -/
def JumpsLow (src : Bytes) (pc : Word) : Prop :=
  ∃ ts head t v, Lexes src ts ∧ (splitLabel ts).2 = [head, t] ∧ t.kind = .number ∧
    Spells t.text v ∧ CutsLow (pc.toNat + 1) v

/-- **When the subtraction of a jump has room.** For any accepted line with a jump on it, any table
and any address: the checked encoder comes to the result of the model exactly if the operand of the
line is no number that is cut to one of the `pc + 1` smallest values of an `int32_t`. What the table
says does not matter, because a name becomes an address. -/
theorem jump_sub_safe_iff {src : Bytes} {lineNo : Nat} {pl : ParsedLine}
    (hacc : Accepts src lineNo pl) (hk : pl.kind = .instr) (hjump : IsJump pl.instr)
    (sym : Symtable) (pc out : Word) :
    let i := (resolveOperands sym pl.lineNo pl.instr).1
    Checked.encodeInstr i pc out = .ok (encodeInstr i pc out) ↔ ¬ JumpsLow src pc := by
  intro i
  obtain ⟨ts, head, rest, m, args, hts, hsplit, hread, hof, hnumber⟩ := hacc.instr hk
  rw [checked_encodeInstr_iff, subOverflows_iff hof hjump, not_iff_not]
  constructor
  · rintro ⟨v, rfl, hlow⟩
    obtain ⟨t, rest', ht, hrest', rfl⟩ := List.forall₂_cons_right_iff.mp hread
    obtain rfl := List.forall₂_nil_right_iff.mp hrest'
    obtain ⟨hkind, hv⟩ := readArg_imm.mp ht
    have htext := hnumber t List.mem_cons_self hkind
    obtain ⟨n, hspells, rfl⟩ := (parseNumber_spells htext).mp hv
    exact ⟨ts, head, t, n, hts, hsplit, hkind, hspells, (tooLow_cut n pc).mp hlow⟩
  · rintro ⟨ts', head', t, n, hts', hsplit', hkind, hspells, hlow⟩
    obtain rfl := hts.unique hts'
    obtain ⟨rfl, rfl⟩ := List.cons.inj (hsplit.symm.trans hsplit')
    obtain ⟨a, args', ha, hargs', rfl⟩ := List.forall₂_cons_left_iff.mp hread
    obtain rfl := List.forall₂_nil_left_iff.mp hargs'
    have htext := hnumber t List.mem_cons_self hkind
    have hv := (parseNumber_spells htext).mpr ⟨n, hspells, rfl⟩
    rw [readArg_imm.mpr ⟨hkind, hv⟩] at ha
    exact ⟨cut n, by rw [Option.some.inj ha], (tooLow_cut n pc).mpr hlow⟩

/-- The smallest `int32_t` is too low for every jump. -/
theorem jump_sub_overflows :
    ∃ pl, Accepts (ascii "JMP -2147483648") 1 pl ∧ pl.kind = .instr ∧ IsJump pl.instr ∧
      Checked.encodeInstr (resolveOperands symtableReset pl.lineNo pl.instr).1 0 0 =
        .error .overflow :=
  ⟨(parseLine (lexLine (ascii "JMP -2147483648") 1).1).1,
    ⟨_, Prod.ext rfl (by decide), Prod.ext rfl (by decide)⟩, by decide, by decide, by decide⟩

theorem jump_sub_safe_iff_five :
    let pl := (parseLine (lexLine (ascii "JMP 5") 1).1).1
    let i := (resolveOperands symtableReset pl.lineNo pl.instr).1
    Checked.encodeInstr i 3 0 = .ok (encodeInstr i 3 0) ↔ ¬ JumpsLow (ascii "JMP 5") 3 := by
  have hacc : Accepts (ascii "JMP 5") 1 (parseLine (lexLine (ascii "JMP 5") 1).1).1 :=
    ⟨_, Prod.ext rfl (by decide), Prod.ext rfl (by decide)⟩
  exact jump_sub_safe_iff hacc (by decide) (by decide) symtableReset 3 0

end Proof
end EduCpu16
