import EduCpu16.Assembler.Encoder
import EduCpu16.Lib.BitFields
import Mathlib.Tactic.SplitIfs
import Mathlib.Data.List.Nodup

/-!
# The encoders against the decode macros

Assembler and emulator share the opcodes and no code for the fields: the encoders shift them
together, the macros of `isa.h` shift them apart. That the two agree is the main result here
(`encodeInstr_decode`).

Every word an encoder builds is a sum of fields (`encodeR_ok`, `encodeI_ok`, `encodeJ_ok`), and
every `INSTR_*` macro is a division and a remainder, so that decoding an encoded word is arithmetic.
`encode_instr` accepts what has the operand shape of its format (`Fits`), and the macros read the
operands back in the roles `cpu_step` gives them (`Decodes`, `encodeInstr_spec`). What it refuses it
reports, and leaves `*out` as it was.
-/

namespace EduCpu16
namespace Proof

open CLib BitFields

/-! ## The decode macros as arithmetic

Shifts and masks become division and remainder, sign extension the balanced remainder. Behind this
section no bit is looked at any more. -/

theorem instrOpcode_toNat (w : Word) : (instrOpcode w).toNat = w.toNat / 2048 % 32 :=
  toNat_extract (k := 5) w rfl

theorem instrRd_toNat (w : Word) : (instrRd w).toNat = w.toNat / 256 % 8 :=
  toNat_extract (k := 3) w rfl

theorem instrRs1_toNat (w : Word) : (instrRs1 w).toNat = w.toNat / 32 % 8 :=
  toNat_extract (k := 3) w rfl

theorem instrRs2_toNat (w : Word) : (instrRs2 w).toNat = w.toNat / 4 % 8 :=
  toNat_extract (k := 3) w rfl

theorem instrImm5_toInt (w : Word) : (instrImm5 w).toInt = Int.bmod w.toNat 32 :=
  toInt_signExtend (n := 11) (k := 5) w

theorem instrOffset_toInt (w : Word) : (instrOffset w).toInt = Int.bmod w.toNat 2048 :=
  toInt_signExtend (n := 5) (k := 11) w

/-! ## The encoders as sums of fields

The fields do not overlap, so `|||` adds. Each lemma has the bounds as hypotheses that the encoder
tests, and is about the branch where none of them fails. -/

theorem fieldAt_toNat {v : Byte} {mask : Word} {k sh : Nat} (hmask : mask.toNat = 2 ^ k - 1)
    (hv : v.toNat < 2 ^ k) (hk : k + sh ≤ 16) :
    (fieldAt v mask sh).toNat = v.toNat * 2 ^ sh := by
  have hlt : v.toNat * 2 ^ sh < 2 ^ 16 :=
    calc v.toNat * 2 ^ sh < 2 ^ k * 2 ^ sh := Nat.mul_lt_mul_of_pos_right hv (Nat.two_pow_pos sh)
      _ = 2 ^ (k + sh) := (Nat.pow_add 2 k sh).symm
      _ ≤ 2 ^ 16 := Nat.pow_le_pow_right (by decide) hk
  have h16 : v.toNat < 2 ^ 16 := Nat.lt_of_lt_of_le v.isLt (by decide)
  rw [fieldAt, BitVec.toNat_shiftLeft, toNat_and_mask _ hmask, BitVec.toNat_setWidth,
    Nat.mod_eq_of_lt h16, Nat.mod_eq_of_lt hv, Nat.shiftLeft_eq, Nat.mod_eq_of_lt hlt]

section Pack

variable {op rd rs1 rs2 : Byte} (out : Word)
  (hop : op.toNat < 32) (hrd : rd.toNat < 8) (hrs1 : rs1.toNat < 8) (hrs2 : rs2.toNat < 8)
include hop

theorem op_not_too_large : ¬ (0x1F : Byte) < op := by
  rw [BitVec.lt_def]
  exact Nat.not_lt.mpr (Nat.le_of_lt_succ hop)

include hrd hrs1

/-- The fields both the R and the I format begin with. -/
theorem packRegs_toNat :
    (fieldAt op 0x1F 11 ||| fieldAt rd 0x07 8 ||| fieldAt rs1 0x07 5).toNat =
      op.toNat * 2048 + rd.toNat * 256 + rs1.toNat * 32 := by
  have h1 : (fieldAt op 0x1F 11).toNat = op.toNat * 2048 :=
    fieldAt_toNat (k := 5) rfl hop (by decide)
  have h2 : (fieldAt rd 0x07 8).toNat = rd.toNat * 256 :=
    fieldAt_toNat (k := 3) rfl hrd (by decide)
  have h3 : (fieldAt rs1 0x07 5).toNat = rs1.toNat * 32 :=
    fieldAt_toNat (k := 3) rfl hrs1 (by decide)
  have h12 : (fieldAt op 0x1F 11 ||| fieldAt rd 0x07 8).toNat =
      op.toNat * 2048 + rd.toNat * 256 := by
    rw [toNat_or_of_lt (k := 11) (by rw [h1]; exact Nat.dvd_mul_left _ _) (by omega), h1, h2]
  rw [toNat_or_of_lt (k := 8) (by rw [h12]; omega) (by omega), h12, h3]

include hrs2

theorem encodeR_ok : ∃ w, encodeR op rd rs1 rs2 out = (.ok, w) ∧
    w.toNat = op.toNat * 2048 + rd.toNat * 256 + rs1.toNat * 32 + rs2.toNat * 4 := by
  have hpack := packRegs_toNat hop hrd hrs1
  have h4 : (fieldAt rs2 0x07 2).toNat = rs2.toNat * 4 :=
    fieldAt_toNat (k := 3) rfl hrs2 (by decide)
  rw [encodeR, if_neg (op_not_too_large hop), if_neg (by simp only [numRegs]; omega)]
  refine ⟨_, rfl, ?_⟩
  rw [toNat_or_of_lt (k := 5) (by rw [hpack]; omega) (by omega), hpack, h4]

omit hrs2

theorem encodeI_ok {imm : I32} (hlo : -16 ≤ imm.toInt) (hhi : imm.toInt ≤ 15) :
    ∃ w, encodeI op rd rs1 imm out = (.ok, w) ∧
      w.toNat = op.toNat * 2048 + rd.toNat * 256 + rs1.toNat * 32 + imm.toNat % 32 := by
  have hpack := packRegs_toNat hop hrd hrs1
  have h4 : (imm.setWidth 16 &&& (0x1F : Word)).toNat = imm.toNat % 32 := by
    rw [toNat_and_mask (k := 5) _ rfl, BitVec.toNat_setWidth]
    exact Nat.mod_mod_of_dvd imm.toNat (by decide)
  rw [encodeI, if_neg (op_not_too_large hop), if_neg (by simp only [numRegs]; omega),
    if_neg (by simp only [imm5Min, imm5Max]; omega)]
  refine ⟨_, rfl, ?_⟩
  rw [toNat_or_of_lt (k := 5) (by rw [hpack]; omega) (by omega), hpack, h4]

omit hrd hrs1

theorem encodeJ_ok {off : I32} (hlo : -1024 ≤ off.toInt) (hhi : off.toInt ≤ 1023) :
    ∃ w, encodeJ op off out = (.ok, w) ∧ w.toNat = op.toNat * 2048 + off.toNat % 2048 := by
  have h1 : (fieldAt op 0x1F 11).toNat = op.toNat * 2048 :=
    fieldAt_toNat (k := 5) rfl hop (by decide)
  have h2 : (off.setWidth 16 &&& (0x7FF : Word)).toNat = off.toNat % 2048 := by
    rw [toNat_and_mask (k := 11) _ rfl, BitVec.toNat_setWidth]
    exact Nat.mod_mod_of_dvd off.toNat (by decide)
  rw [encodeJ, if_neg (op_not_too_large hop), if_neg (by simp only [jumpMin, jumpMax]; omega)]
  refine ⟨_, rfl, ?_⟩
  rw [toNat_or_of_lt (k := 11) (by rw [h1]; exact Nat.dvd_mul_left _ _) (by omega), h1, h2]

end Pack

/-! ## Jump offsets

`jumpOffset` subtracts in 32 bits. Where that wraps, the exact difference is below the type and
the wrapped one near the top of it, so the two agree on lying in the jump range. -/

theorem jumpOffset_toInt (t : I32) (pc : Word) :
    (jumpOffset t pc).toInt = Int.bmod (t.toInt - (pc.toNat + 1)) 4294967296 := by
  have hpc : (pc.setWidth 32 + 1 : I32).toNat = pc.toNat + 1 := by
    have hlt := pc.isLt
    rw [BitVec.toNat_add, BitVec.toNat_setWidth, show (1 : I32).toNat = 1 from rfl]
    omega
  have hpcInt : (pc.setWidth 32 + 1 : I32).toInt = pc.toNat + 1 := by
    have hlt := pc.isLt
    rw [BitVec.toInt_eq_toNat_of_lt (by omega), hpc]
    rfl
  rw [jumpOffset, BitVec.toInt_sub, hpcInt]

theorem jumpOffset_inRange_iff (t : I32) (pc : Word) :
    (-1024 ≤ (jumpOffset t pc).toInt ∧ (jumpOffset t pc).toInt ≤ 1023) ↔
      -1024 ≤ t.toInt - (pc.toNat + 1) ∧ t.toInt - (pc.toNat + 1) ≤ 1023 := by
  have hlo := BitVec.le_toInt t
  have hhi := BitVec.toInt_lt (x := t)
  have hpc := pc.isLt
  rw [jumpOffset_toInt, Int.bmod_def]
  omega

theorem jumpOffset_eq_of_inRange {t : I32} {pc : Word}
    (hlo : -1024 ≤ t.toInt - (pc.toNat + 1)) (hhi : t.toInt - (pc.toNat + 1) ≤ 1023) :
    (jumpOffset t pc).toInt = t.toInt - (pc.toNat + 1) := by
  rw [jumpOffset_toInt, Int.bmod_def]
  omega

/-! ## The mnemonic table

The table is a list of rows that is searched from the front without regard to case. Two facts about
it, each checked row by row, make a search an equation: no two names agree up to case, and no two
rows have one opcode. -/

theorem findOp_mem {mn : Bytes} {d : OpDef} (h : findOp mn = some d) :
    d ∈ opDefs ∧ d.name.map tolower = mn.map tolower :=
  ⟨List.mem_of_find?_eq_some h,
    strcasecmp_eq_zero_iff.mp (by simpa using List.find?_some h)⟩

theorem opDefs_opcode_lt : ∀ d ∈ opDefs, d.opcode.toNat < 32 := by decide

/-- No two rows agree on the name up to case, none on the opcode. -/
theorem opDefs_names_nodup : (opDefs.map fun d => d.name.map tolower).Nodup := by decide

theorem opDefs_opcodes_nodup : (opDefs.map OpDef.opcode).Nodup := by decide

theorem findOp_eq_some {mn : Bytes} {d : OpDef} :
    findOp mn = some d ↔ d ∈ opDefs ∧ d.name.map tolower = mn.map tolower := by
  refine ⟨findOp_mem, fun ⟨hd, hname⟩ => ?_⟩
  cases hf : findOp mn with
  | none =>
    refine absurd (List.find?_eq_none.mp hf d hd) ?_
    simpa using strcasecmp_eq_zero_iff.mpr hname
  | some e =>
    obtain ⟨he, hename⟩ := findOp_mem hf
    rw [List.inj_on_of_nodup_map opDefs_names_nodup he hd (hename.trans hname.symm)]

/-! ## What `encode_instr` accepts, and what the macros read back

The shape of an accepted instruction depends on the format alone, so there is a case for each of the
seven formats and none for the opcodes. -/

/-- The operand count and kinds of a format, with the immediate in its range and the jump target
within reach of `pc`, as exact integers. -/
def Fits (i : Instr) (pc : Word) : Fmt → Prop
  | .r3 => i.nops = 3 ∧ (i.ops 0).kind = .reg ∧ (i.ops 1).kind = .reg ∧ (i.ops 2).kind = .reg
  | .r2 => i.nops = 2 ∧ (i.ops 0).kind = .reg ∧ (i.ops 1).kind = .reg
  | .rCmp => i.nops = 2 ∧ (i.ops 0).kind = .reg ∧ (i.ops 1).kind = .reg
  | .i3 => i.nops = 3 ∧ (i.ops 0).kind = .reg ∧ (i.ops 1).kind = .reg ∧ (i.ops 2).kind = .imm ∧
      -16 ≤ (i.ops 2).imm.toInt ∧ (i.ops 2).imm.toInt ≤ 15
  | .iMov => i.nops = 2 ∧ (i.ops 0).kind = .reg ∧ (i.ops 1).kind = .imm ∧
      -16 ≤ (i.ops 1).imm.toInt ∧ (i.ops 1).imm.toInt ≤ 15
  | .j => i.nops = 1 ∧ (i.ops 0).kind = .imm ∧
      -1024 ≤ (i.ops 0).imm.toInt - (pc.toNat + 1) ∧
      (i.ops 0).imm.toInt - (pc.toNat + 1) ≤ 1023
  | .none => i.nops = 0

theorem Fits.nops_le {i : Instr} {pc : Word} {f : Fmt} (h : Fits i pc f) : i.nops ≤ 3 := by
  cases f <;> simp only [Fits] at h <;> omega

/-- What the `INSTR_*` macros read back from a word, in the roles `cpu_step` gives them: the
source of SW is in `rd`, CMP has `rd = 0`, MOV has `rs1 = 0`, and a jump from `pc + 1` by the
offset lands on the target. -/
def Decodes (d : OpDef) (i : Instr) (pc w : Word) : Prop :=
  (instrOpcode w).setWidth 8 = d.opcode ∧
  match d.fmt with
  | .r3 => (instrRd w).setWidth 8 = (i.ops 0).reg ∧ (instrRs1 w).setWidth 8 = (i.ops 1).reg ∧
      (instrRs2 w).setWidth 8 = (i.ops 2).reg
  | .r2 => (instrRd w).setWidth 8 = (i.ops 0).reg ∧ (instrRs1 w).setWidth 8 = (i.ops 1).reg
  | .rCmp => instrRd w = 0 ∧ (instrRs1 w).setWidth 8 = (i.ops 0).reg ∧
      (instrRs2 w).setWidth 8 = (i.ops 1).reg
  | .i3 => (instrRd w).setWidth 8 = (i.ops 0).reg ∧ (instrRs1 w).setWidth 8 = (i.ops 1).reg ∧
      (instrImm5 w).toInt = (i.ops 2).imm.toInt
  | .iMov => (instrRd w).setWidth 8 = (i.ops 0).reg ∧ instrRs1 w = 0 ∧
      (instrImm5 w).toInt = (i.ops 1).imm.toInt
  | .j => (instrOffset w).toInt = (i.ops 0).imm.toInt - (pc.toNat + 1) ∧
      pc + 1 + instrOffset w = (i.ops 0).imm.setWidth 16
  | .none => True

/-- Registers as `parse_register` yields them. The record has a byte for a register, and the
encoders test it; what the parser delivers always passes. -/
def RegsOk (i : Instr) : Prop := ∀ k, (i.ops k).kind = .reg → (i.ops k).reg.toNat < 8

@[simp] theorem orReturn_wantReg (o : Operand) (out : Word) (k : Byte → AsmError × Word) :
    orReturn (wantReg o) out k = if o.kind = .reg then k o.reg else (.invalidRegister, out) := by
  unfold wantReg
  split <;> rfl

@[simp] theorem orReturn_wantImm (o : Operand) (out : Word) (k : I32 → AsmError × Word) :
    orReturn (wantImm o) out k = if o.kind = .imm then k o.imm else (.invalidNumber, out) := by
  unfold wantImm
  split <;> rfl

theorem setWidth_eq_of_toNat_eq {x : Word} {v : Byte} (h : x.toNat = v.toNat) :
    x.setWidth 8 = v := by
  apply BitVec.eq_of_toNat_eq
  rw [BitVec.toNat_setWidth, h, Nat.mod_eq_of_lt v.isLt]

theorem eq_zero_of_toNat_eq {x : Word} (h : x.toNat = (0 : Byte).toNat) : x = 0 := by
  apply BitVec.eq_of_toNat_eq
  rw [h]
  rfl

section ReadBack

variable {w : Word} {op rd rs1 : Byte} {low : Nat}

theorem readBack_op (hw : w.toNat = op.toNat * 2048 + rd.toNat * 256 + rs1.toNat * 32 + low)
    (hrd : rd.toNat < 8) (hrs1 : rs1.toNat < 8) (hlow : low < 32) :
    (instrOpcode w).setWidth 8 = op :=
  setWidth_eq_of_toNat_eq (by rw [instrOpcode_toNat]; omega)

theorem readBack_rd (hw : w.toNat = op.toNat * 2048 + rd.toNat * 256 + rs1.toNat * 32 + low)
    (hrd : rd.toNat < 8) (hrs1 : rs1.toNat < 8) (hlow : low < 32) :
    (instrRd w).toNat = rd.toNat := by
  rw [instrRd_toNat]; omega

theorem readBack_rs1 (hw : w.toNat = op.toNat * 2048 + rd.toNat * 256 + rs1.toNat * 32 + low)
    (hrs1 : rs1.toNat < 8) (hlow : low < 32) : (instrRs1 w).toNat = rs1.toNat := by
  rw [instrRs1_toNat]; omega

theorem readBack_rs2 {rs2 : Byte}
    (hw : w.toNat = op.toNat * 2048 + rd.toNat * 256 + rs1.toNat * 32 + rs2.toNat * 4)
    (hrs2 : rs2.toNat < 8) : (instrRs2 w).toNat = rs2.toNat := by
  rw [instrRs2_toNat]; omega

theorem readBack_imm5 {imm : I32}
    (hw : w.toNat = op.toNat * 2048 + rd.toNat * 256 + rs1.toNat * 32 + imm.toNat % 32)
    (hlo : -16 ≤ imm.toInt) (hhi : imm.toInt ≤ 15) : (instrImm5 w).toInt = imm.toInt := by
  have himm := BitVec.toInt_eq_toNat_cond imm
  have hlt := imm.isLt
  rw [instrImm5_toInt, Int.bmod_def]
  split at himm <;> omega

theorem readBack_offset {off : I32} (hw : w.toNat = op.toNat * 2048 + off.toNat % 2048)
    (hlo : -1024 ≤ off.toInt) (hhi : off.toInt ≤ 1023) : (instrOffset w).toInt = off.toInt := by
  have hoff := BitVec.toInt_eq_toNat_cond off
  have hlt := off.isLt
  rw [instrOffset_toInt, Int.bmod_def]
  split at hoff <;> omega

end ReadBack

/-- A jump from `pc + 1` by the decoded offset lands on the target, modulo `2 ^ 16`. -/
theorem jump_lands {pc off : Word} {t : I32} (h : off.toInt = t.toInt - (pc.toNat + 1)) :
    pc + 1 + off = t.setWidth 16 := by
  have hoff := BitVec.toInt_eq_toNat_cond off
  have ht := BitVec.toInt_eq_toNat_cond t
  have hlt := off.isLt
  apply BitVec.eq_of_toNat_eq
  rw [BitVec.toNat_add, BitVec.toNat_add, BitVec.toNat_setWidth, show (1 : Word).toNat = 1 from rfl]
  split at hoff <;> split at ht <;> omega

/-- An instruction that fits its format is encoded, and to a word the macros read back. -/
theorem encodeInstr_of_fits {i : Instr} {d : OpDef} {pc : Word} (hr : RegsOk i)
    (hd : findOp i.mnemonic = some d) (hfit : Fits i pc d.fmt) (out : Word) :
    ∃ w, encodeInstr i pc out = (.ok, w) ∧ Decodes d i pc w := by
  have hop : d.opcode.toNat < 32 := opDefs_opcode_lt d (findOp_mem hd).1
  have h0 : (0 : Byte).toNat < 8 := by decide
  -- A register is below 8 and an immediate is in the range of its field, so no field reaches into
  -- the next one and each is read back by its shift and mask.
  cases hfmt : d.fmt with
  | r3 =>
    rw [hfmt] at hfit
    obtain ⟨hn, k0, k1, k2⟩ := hfit
    obtain ⟨w, hw, hval⟩ := encodeR_ok out hop (hr 0 k0) (hr 1 k1) (hr 2 k2)
    have hlow : (i.ops 2).reg.toNat * 4 < 32 := by have := hr 2 k2; omega
    refine ⟨w, by simpa [encodeInstr, hd, hfmt, hn, k0, k1, k2] using hw, ?_⟩
    simp only [Decodes, hfmt]
    exact ⟨readBack_op hval (hr 0 k0) (hr 1 k1) hlow,
      setWidth_eq_of_toNat_eq (readBack_rd hval (hr 0 k0) (hr 1 k1) hlow),
      setWidth_eq_of_toNat_eq (readBack_rs1 hval (hr 1 k1) hlow),
      setWidth_eq_of_toNat_eq (readBack_rs2 hval (hr 2 k2))⟩
  | r2 =>
    rw [hfmt] at hfit
    obtain ⟨hn, k0, k1⟩ := hfit
    obtain ⟨w, hw, hval⟩ := encodeR_ok out hop (hr 0 k0) (hr 1 k1) h0
    refine ⟨w, by simpa [encodeInstr, hd, hfmt, hn, k0, k1] using hw, ?_⟩
    simp only [Decodes, hfmt]
    exact ⟨readBack_op hval (hr 0 k0) (hr 1 k1) (by decide),
      setWidth_eq_of_toNat_eq (readBack_rd hval (hr 0 k0) (hr 1 k1) (by decide)),
      setWidth_eq_of_toNat_eq (readBack_rs1 hval (hr 1 k1) (by decide))⟩
  | rCmp =>
    rw [hfmt] at hfit
    obtain ⟨hn, k0, k1⟩ := hfit
    obtain ⟨w, hw, hval⟩ := encodeR_ok out hop h0 (hr 0 k0) (hr 1 k1)
    have hlow : (i.ops 1).reg.toNat * 4 < 32 := by have := hr 1 k1; omega
    refine ⟨w, by simpa [encodeInstr, hd, hfmt, hn, k0, k1] using hw, ?_⟩
    simp only [Decodes, hfmt]
    exact ⟨readBack_op hval h0 (hr 0 k0) hlow,
      eq_zero_of_toNat_eq (readBack_rd hval h0 (hr 0 k0) hlow),
      setWidth_eq_of_toNat_eq (readBack_rs1 hval (hr 0 k0) hlow),
      setWidth_eq_of_toNat_eq (readBack_rs2 hval (hr 1 k1))⟩
  | i3 =>
    rw [hfmt] at hfit
    obtain ⟨hn, k0, k1, k2, hlo, hhi⟩ := hfit
    obtain ⟨w, hw, hval⟩ := encodeI_ok out hop (hr 0 k0) (hr 1 k1) hlo hhi
    have hlow : (i.ops 2).imm.toNat % 32 < 32 := Nat.mod_lt _ (by decide)
    refine ⟨w, by simpa [encodeInstr, hd, hfmt, hn, k0, k1, k2] using hw, ?_⟩
    simp only [Decodes, hfmt]
    exact ⟨readBack_op hval (hr 0 k0) (hr 1 k1) hlow,
      setWidth_eq_of_toNat_eq (readBack_rd hval (hr 0 k0) (hr 1 k1) hlow),
      setWidth_eq_of_toNat_eq (readBack_rs1 hval (hr 1 k1) hlow), readBack_imm5 hval hlo hhi⟩
  | iMov =>
    rw [hfmt] at hfit
    obtain ⟨hn, k0, k1, hlo, hhi⟩ := hfit
    obtain ⟨w, hw, hval⟩ := encodeI_ok out hop (hr 0 k0) h0 hlo hhi
    have hlow : (i.ops 1).imm.toNat % 32 < 32 := Nat.mod_lt _ (by decide)
    refine ⟨w, by simpa [encodeInstr, hd, hfmt, hn, k0, k1] using hw, ?_⟩
    simp only [Decodes, hfmt]
    exact ⟨readBack_op hval (hr 0 k0) h0 hlow,
      setWidth_eq_of_toNat_eq (readBack_rd hval (hr 0 k0) h0 hlow),
      eq_zero_of_toNat_eq (readBack_rs1 hval h0 hlow), readBack_imm5 hval hlo hhi⟩
  | j =>
    rw [hfmt] at hfit
    obtain ⟨hn, k0, hlo, hhi⟩ := hfit
    -- The encoder works on 32-bit words, so the range is first carried over to integers.
    have hoff := jumpOffset_eq_of_inRange hlo hhi
    obtain ⟨hlo', hhi'⟩ := (jumpOffset_inRange_iff (i.ops 0).imm pc).mpr ⟨hlo, hhi⟩
    obtain ⟨w, hw, hval⟩ := encodeJ_ok out hop hlo' hhi'
    have hback := (readBack_offset hval hlo' hhi').trans hoff
    refine ⟨w, by simpa [encodeInstr, hd, hfmt, hn, k0] using hw, ?_⟩
    simp only [Decodes, hfmt]
    refine ⟨setWidth_eq_of_toNat_eq ?_, hback, jump_lands hback⟩
    rw [instrOpcode_toNat]
    omega
  | none =>
    rw [hfmt] at hfit
    obtain ⟨w, hw, hval⟩ := encodeR_ok out hop h0 h0 h0
    refine ⟨w, by simpa [encodeInstr, hd, hfmt, show i.nops = 0 from hfit] using hw, ?_⟩
    simp only [Decodes, hfmt]
    exact ⟨readBack_op hval h0 h0 (by decide), trivial⟩

/-! ### The converse: what was accepted fits, what was refused left `*out` alone -/

theorem encodeI_inRange {op rd rs1 : Byte} {imm : I32} {out : Word}
    (h : (encodeI op rd rs1 imm out).1 = .ok) : -16 ≤ imm.toInt ∧ imm.toInt ≤ 15 := by
  unfold encodeI at h
  split_ifs at h with _ _ hrange
  simp only [imm5Min, imm5Max] at hrange
  omega

theorem encodeJ_inRange {op : Byte} {off : I32} {out : Word}
    (h : (encodeJ op off out).1 = .ok) : -1024 ≤ off.toInt ∧ off.toInt ≤ 1023 := by
  unfold encodeJ at h
  split_ifs at h with _ hrange
  simp only [jumpMin, jumpMax] at hrange
  omega

/-- A guard whose other branch returns an error was passed. -/
theorem guard_ok {c : Prop} [Decidable c] {x : AsmError × Word} {e : AsmError} {out : Word}
    (he : e ≠ .ok) : (if c then x else (e, out)).1 = .ok ↔ c ∧ x.1 = .ok := by
  split <;> simp [*]

theorem not_guard_ok {c : Prop} [Decidable c] {x : AsmError × Word} {e : AsmError} {out : Word}
    (he : e ≠ .ok) : (if c then (e, out) else x).1 = .ok ↔ ¬ c ∧ x.1 = .ok := by
  split <;> simp [*]

theorem fits_of_encodeInstr_ok {i : Instr} {pc out : Word} (h : (encodeInstr i pc out).1 = .ok) :
    ∃ d, findOp i.mnemonic = some d ∧ Fits i pc d.fmt := by
  unfold encodeInstr at h
  cases hd : findOp i.mnemonic with
  | none => rw [hd] at h; simp at h
  | some d =>
    refine ⟨d, rfl, ?_⟩
    rw [hd] at h
    cases hfmt : d.fmt <;>
      simp only [hfmt, orReturn_wantReg, orReturn_wantImm, ne_eq, reduceCtorEq, not_false_eq_true,
        guard_ok, not_guard_ok, not_not] at h
    case r3 => exact ⟨h.1, h.2.1, h.2.2.1, h.2.2.2.1⟩
    case r2 => exact ⟨h.1, h.2.1, h.2.2.1⟩
    case rCmp => exact ⟨h.1, h.2.1, h.2.2.1⟩
    case i3 => exact ⟨h.1, h.2.1, h.2.2.1, h.2.2.2.1, encodeI_inRange h.2.2.2.2⟩
    case iMov => exact ⟨h.1, h.2.1, h.2.2.1, encodeI_inRange h.2.2.2⟩
    case j =>
      obtain ⟨hn, hj⟩ := h
      split_ifs at hj with h0
      · exact ⟨hn, h0, (jumpOffset_inRange_iff _ pc).mp (encodeJ_inRange hj)⟩
    case none => exact h.1

theorem encodeR_out {op rd rs1 rs2 : Byte} {out : Word}
    (h : (encodeR op rd rs1 rs2 out).1 ≠ .ok) : (encodeR op rd rs1 rs2 out).2 = out := by
  unfold encodeR at h ⊢
  split_ifs at h ⊢ <;> first | rfl | exact absurd rfl h

theorem encodeI_out {op rd rs1 : Byte} {imm : I32} {out : Word}
    (h : (encodeI op rd rs1 imm out).1 ≠ .ok) : (encodeI op rd rs1 imm out).2 = out := by
  unfold encodeI at h ⊢
  split_ifs at h ⊢ <;> first | rfl | exact absurd rfl h

theorem encodeJ_out {op : Byte} {off : I32} {out : Word}
    (h : (encodeJ op off out).1 ≠ .ok) : (encodeJ op off out).2 = out := by
  unfold encodeJ at h ⊢
  split_ifs at h ⊢ <;> first | rfl | exact absurd rfl h

/-- What an accepted instruction is, and what its word reads back as. -/
theorem encodeInstr_spec {i : Instr} {pc out : Word} (hr : RegsOk i)
    (hok : (encodeInstr i pc out).1 = .ok) :
    ∃ d, findOp i.mnemonic = some d ∧ Fits i pc d.fmt ∧
      Decodes d i pc (encodeInstr i pc out).2 := by
  obtain ⟨d, hd, hfit⟩ := fits_of_encodeInstr_ok hok
  obtain ⟨w, hw, hdec⟩ := encodeInstr_of_fits hr hd hfit out
  rw [hw]
  exact ⟨d, hd, hfit, hdec⟩

/-- A refused instruction leaves `*out` alone. -/
theorem encodeInstr_out {i : Instr} {pc out : Word} (h : (encodeInstr i pc out).1 ≠ .ok) :
    (encodeInstr i pc out).2 = out := by
  unfold encodeInstr at h ⊢
  cases hd : findOp i.mnemonic with
  | none => rfl
  | some d =>
    rw [hd] at h
    cases hfmt : d.fmt <;> simp only [hfmt, orReturn_wantReg, orReturn_wantImm] at h ⊢ <;>
      split_ifs at h ⊢ <;>
      first | rfl | exact encodeR_out h | exact encodeI_out h | exact encodeJ_out h

/-- Two operands the encoders cannot tell apart. -/
structure SameRead (o o' : Operand) : Prop where
  kind : o.kind = o'.kind
  reg : o.kind = .reg → o.reg = o'.reg
  imm : o.kind = .imm → o.imm = o'.imm

theorem SameRead.wantReg {o o' : Operand} (h : SameRead o o') :
    EduCpu16.wantReg o = EduCpu16.wantReg o' := by
  by_cases hk : o.kind = .reg
  · rw [EduCpu16.wantReg, EduCpu16.wantReg, if_pos hk, if_pos (h.kind ▸ hk), h.reg hk]
  · rw [EduCpu16.wantReg, EduCpu16.wantReg, if_neg hk, if_neg (h.kind ▸ hk)]

theorem SameRead.wantImm {o o' : Operand} (h : SameRead o o') :
    EduCpu16.wantImm o = EduCpu16.wantImm o' := by
  by_cases hk : o.kind = .imm
  · rw [EduCpu16.wantImm, EduCpu16.wantImm, if_pos hk, if_pos (h.kind ▸ hk), h.imm hk]
  · rw [EduCpu16.wantImm, EduCpu16.wantImm, if_neg hk, if_neg (h.kind ▸ hk)]

/-- An encoding is of the operation and the operands in use. -/
theorem encodeInstr_congr {i i' : Instr} (hop : findOp i.mnemonic = findOp i'.mnemonic)
    (hnops : i.nops = i'.nops) (hread : ∀ k : Fin 3, k.val < i.nops → SameRead (i.ops k) (i'.ops k))
    (pc out : Word) : encodeInstr i pc out = encodeInstr i' pc out := by
  unfold encodeInstr
  rw [← hop, ← hnops]
  cases findOp i.mnemonic with
  | none => rfl
  | some d =>
    cases hfmt : d.fmt <;> simp only [hfmt]
    case r3 | i3 =>
      by_cases hn : i.nops = 3
      · have h0 := hread 0 (by rw [hn]; decide)
        have h1 := hread 1 (by rw [hn]; decide)
        have h2 := hread 2 (by rw [hn]; decide)
        simp only [h0.wantReg, h1.wantReg, h2.wantReg, h2.wantImm]
      · simp only [ne_eq, hn, not_false_eq_true, if_true]
    case r2 | rCmp | iMov =>
      by_cases hn : i.nops = 2
      · have h0 := hread 0 (by rw [hn]; decide)
        have h1 := hread 1 (by rw [hn]; decide)
        simp only [h0.wantReg, h1.wantReg, h1.wantImm]
      · simp only [ne_eq, hn, not_false_eq_true, if_true]
    case j =>
      by_cases hn : i.nops = 1
      · have h0 := hread 0 (by rw [hn]; decide)
        simp only [← h0.kind]
        by_cases hk : (i.ops 0).kind = .imm
        · simp only [hk, if_true, h0.imm hk]
        · simp only [hk, if_false]
      · simp only [ne_eq, hn, not_false_eq_true, if_true]

/-! ### Distinct instructions get distinct words -/

/-- The value a used operand carries. -/
def operandValue (o : Operand) : Int :=
  match o.kind with
  | .reg => o.reg.toNat
  | .imm => o.imm.toInt
  | .none | .label => 0

/-- The same mnemonic up to case, and the same operands as far as they are used. Operands past
`nops` are whatever the record was filled with, and a field that the operand's kind does not use is
no part of the instruction. -/
def SameInstr (i i' : Instr) : Prop :=
  i.mnemonic.map tolower = i'.mnemonic.map tolower ∧ i.nops = i'.nops ∧
  ∀ k : Fin 3, k.val < i.nops →
    (i.ops k).kind = (i'.ops k).kind ∧ operandValue (i.ops k) = operandValue (i'.ops k)

theorem sameOperand_reg {o o' : Operand} {r : Byte} (h : o.kind = .reg) (h' : o'.kind = .reg)
    (hr : r = o.reg) (hr' : r = o'.reg) :
    o.kind = o'.kind ∧ operandValue o = operandValue o' := by
  simp only [operandValue, h, h', ← hr, ← hr', and_self]

theorem sameOperand_imm {o o' : Operand} (h : o.kind = .imm) (h' : o'.kind = .imm)
    (himm : o.imm.toInt = o'.imm.toInt) :
    o.kind = o'.kind ∧ operandValue o = operandValue o' := by
  simp only [operandValue, h, h', himm, and_self]

/-- Two accepted instructions with the same word at the same address are the same instruction:
the word determines the opcode, the opcode the table row, and the row which fields are read. -/
theorem sameInstr_of_word_eq {i i' : Instr} {d d' : OpDef} {pc w : Word}
    (hd : findOp i.mnemonic = some d) (hd' : findOp i'.mnemonic = some d')
    (hfit : Fits i pc d.fmt) (hfit' : Fits i' pc d'.fmt)
    (hw : Decodes d i pc w) (hw' : Decodes d' i' pc w) : SameInstr i i' := by
  obtain ⟨hmem, hname⟩ := findOp_mem hd
  obtain ⟨hmem', hname'⟩ := findOp_mem hd'
  obtain ⟨hop, hw⟩ := hw
  obtain ⟨hop', hw'⟩ := hw'
  -- No two rows of the table have the same opcode.
  obtain rfl : d = d' :=
    List.inj_on_of_nodup_map opDefs_opcodes_nodup hmem hmem' (hop.symm.trans hop')
  refine ⟨hname.symm.trans hname', ?_⟩
  cases hfmt : d.fmt <;> simp only [hfmt, Fits] at hfit hfit' hw hw'
  case r3 =>
    obtain ⟨hn, k0, k1, k2⟩ := hfit
    obtain ⟨hn', k0', k1', k2'⟩ := hfit'
    refine ⟨hn.trans hn'.symm, ?_⟩
    intro k _
    match k with
    | 0 => exact sameOperand_reg k0 k0' hw.1 hw'.1
    | 1 => exact sameOperand_reg k1 k1' hw.2.1 hw'.2.1
    | 2 => exact sameOperand_reg k2 k2' hw.2.2 hw'.2.2
  case r2 =>
    obtain ⟨hn, k0, k1⟩ := hfit
    obtain ⟨hn', k0', k1'⟩ := hfit'
    refine ⟨hn.trans hn'.symm, ?_⟩
    intro k hk
    match k with
    | 0 => exact sameOperand_reg k0 k0' hw.1 hw'.1
    | 1 => exact sameOperand_reg k1 k1' hw.2 hw'.2
    | 2 => exact absurd hk (by simp [hn])
  case rCmp =>
    obtain ⟨hn, k0, k1⟩ := hfit
    obtain ⟨hn', k0', k1'⟩ := hfit'
    refine ⟨hn.trans hn'.symm, ?_⟩
    intro k hk
    match k with
    | 0 => exact sameOperand_reg k0 k0' hw.2.1 hw'.2.1
    | 1 => exact sameOperand_reg k1 k1' hw.2.2 hw'.2.2
    | 2 => exact absurd hk (by simp [hn])
  case i3 =>
    obtain ⟨hn, k0, k1, k2, -⟩ := hfit
    obtain ⟨hn', k0', k1', k2', -⟩ := hfit'
    refine ⟨hn.trans hn'.symm, ?_⟩
    intro k _
    match k with
    | 0 => exact sameOperand_reg k0 k0' hw.1 hw'.1
    | 1 => exact sameOperand_reg k1 k1' hw.2.1 hw'.2.1
    | 2 => exact sameOperand_imm k2 k2' (hw.2.2.symm.trans hw'.2.2)
  case iMov =>
    obtain ⟨hn, k0, k1, -⟩ := hfit
    obtain ⟨hn', k0', k1', -⟩ := hfit'
    refine ⟨hn.trans hn'.symm, ?_⟩
    intro k hk
    match k with
    | 0 => exact sameOperand_reg k0 k0' hw.1 hw'.1
    | 1 => exact sameOperand_imm k1 k1' (hw.2.2.symm.trans hw'.2.2)
    | 2 => exact absurd hk (by simp [hn])
  -- Both targets are the same distance from the same address.
  case j =>
    obtain ⟨hn, k0, -⟩ := hfit
    obtain ⟨hn', k0', -⟩ := hfit'
    refine ⟨hn.trans hn'.symm, ?_⟩
    intro k hk
    match k with
    | 0 => exact sameOperand_imm k0 k0' (by omega)
    | 1 => exact absurd hk (by simp [hn])
    | 2 => exact absurd hk (by simp [hn])
  case none => exact ⟨hfit.trans hfit'.symm, fun k hk => absurd hk (by simp [hfit])⟩

/-! ## The instruction format

The three parts together: what is accepted, what it reads back as, and that the word tells the
instruction. -/

/-- **Decode undoes encode.** `encode_instr` accepts exactly the instructions that name a row of
the table and fit its format; the word it then writes reads back as the instruction, so
different accepted instructions never share a word at one address; a refused instruction is
reported and `*out` is left alone. -/
theorem encodeInstr_decode {i : Instr} (hr : RegsOk i) (pc out : Word) :
    ((encodeInstr i pc out).1 = .ok ↔
      ∃ d ∈ opDefs, d.name.map tolower = i.mnemonic.map tolower ∧ Fits i pc d.fmt) ∧
    (∀ d ∈ opDefs, d.name.map tolower = i.mnemonic.map tolower →
      (encodeInstr i pc out).1 = .ok → Decodes d i pc (encodeInstr i pc out).2) ∧
    (∀ i' out', RegsOk i' → (encodeInstr i pc out).1 = .ok → (encodeInstr i' pc out').1 = .ok →
      ¬ SameInstr i i' → (encodeInstr i pc out).2 ≠ (encodeInstr i' pc out').2) ∧
    ((encodeInstr i pc out).1 ≠ .ok → (encodeInstr i pc out).2 = out) := by
  refine ⟨⟨?_, ?_⟩, ?_, ?_, encodeInstr_out⟩
  · intro hok
    obtain ⟨d, hd, hfit⟩ := fits_of_encodeInstr_ok hok
    exact ⟨d, (findOp_mem hd).1, (findOp_mem hd).2, hfit⟩
  · rintro ⟨d, hmem, hname, hfit⟩
    obtain ⟨w, hw, -⟩ := encodeInstr_of_fits hr (findOp_eq_some.mpr ⟨hmem, hname⟩) hfit out
    rw [hw]
  · intro d hmem hname hok
    obtain ⟨d', hd', -, hdec⟩ := encodeInstr_spec hr hok
    obtain rfl : d = d' :=
      Option.some.inj ((findOp_eq_some.mpr ⟨hmem, hname⟩).symm.trans hd')
    exact hdec
  · intro i' out' hr' hok hok' hne heq
    obtain ⟨d, hd, hfit, hdec⟩ := encodeInstr_spec hr hok
    obtain ⟨d', hd', hfit', hdec'⟩ := encodeInstr_spec hr' hok'
    exact hne (sameInstr_of_word_eq hd hd' hfit hfit' hdec (heq ▸ hdec'))

/-- `SW R2, R3, -1` at address 4. -/
theorem encodeInstr_decode_sw :
    let i : Instr :=
      { mnemonic := ascii "SW"
        nops := 3
        ops := fun k => if k = 0 then { kind := .reg, reg := 2 }
          else if k = 1 then { kind := .reg, reg := 3 } else { kind := .imm, imm := -1 } }
    (encodeInstr i 4 0).1 = .ok ∧
      Decodes ⟨ascii "SW", Opcode.sw.code, .i3⟩ i 4 (encodeInstr i 4 0).2 := by
  intro i
  have hregs : RegsOk i := by unfold RegsOk; decide
  have hdecode := encodeInstr_decode hregs 4 0
  exact ⟨by decide, hdecode.2.1 _ (by decide) (by decide) (by decide)⟩

end Proof
end EduCpu16
