import EduCpu16.Proof.Execute
import EduCpu16.Proof.Format
import EduCpu16.Proof.Installed
import EduCpu16.Proof.Position

/-!
# Disassembly

The statement an instruction word is written as, and what assembling that statement gives. Some
formats leave bits of the word unused; the assembler writes zeroes there and the emulator does not
look, and `canonical` clears them. A canonical word comes back (`encodeInstr_operandsOf`), and any
other is executed as its canonical word (`executeWord_canonical`).

`disassembly_assembles` puts this together for a whole image: its disassembly, printed and
assembled, is the image again. A word that is no canonical instruction is written as a `.word`, so
the theorem also says when this happens, in terms of what source lines can assemble to; otherwise a
disassembler that writes `.word` throughout would do. `instruction_set_assembles` is the converse
for a single word: every assigned opcode is within reach of a source line.
-/

namespace EduCpu16
namespace Proof

open CLib Source BitFields

/-! ## Unused bits

`usedBits` is a mask for each format. That a field is inside the mask of its format is a fact about
two constants, and the lemmas for the fields follow from one about masks (`field_and`). -/

/-- The bits of a word that a format uses. -/
def usedBits : Fmt → Word
  | .r3 => 0xFFFC
  | .r2 => 0xFFE0
  | .rCmp => 0xF8FC
  | .i3 | .j => 0xFFFF
  | .iMov => 0xFF1F
  | .none => 0xF800

/-- An instruction word with its unused bits cleared. -/
def canonical (w : Word) : Word := (opcodeOf w).elim w fun o => w &&& usedBits (fmtOf o)

theorem field_and {n : Nat} (x m f : BitVec n) (sh : Nat) :
    ((x &&& m) >>> sh) &&& f = (x >>> sh) &&& ((m >>> sh) &&& f) := by
  rw [BitVec.ushiftRight_and_distrib, BitVec.and_assoc]

theorem shiftLeft_and_eq {n sh : Nat} {x m : BitVec n} (h : m <<< sh = BitVec.allOnes n <<< sh) :
    (x &&& m) <<< sh = x <<< sh := by
  rw [BitVec.shiftLeft_and_distrib, h, ← BitVec.shiftLeft_and_distrib, BitVec.and_allOnes]

section Used

variable (w : Word) (f : Fmt)

theorem instrOpcode_used : instrOpcode (w &&& usedBits f) = instrOpcode w := by
  rw [instrOpcode, field_and, instrOpcode]
  cases f <;> rfl

theorem opcodeOf_used : opcodeOf (w &&& usedBits f) = opcodeOf w := by
  rw [opcodeOf, instrOpcode_used, opcodeOf]

theorem instrRd_used (h : f = .r3 ∨ f = .r2 ∨ f = .i3 ∨ f = .iMov) :
    instrRd (w &&& usedBits f) = instrRd w := by
  rw [instrRd, field_and, instrRd]
  rcases h with rfl | rfl | rfl | rfl <;> rfl

theorem instrRs1_used (h : f = .r3 ∨ f = .r2 ∨ f = .rCmp ∨ f = .i3) :
    instrRs1 (w &&& usedBits f) = instrRs1 w := by
  rw [instrRs1, field_and, instrRs1]
  rcases h with rfl | rfl | rfl | rfl <;> rfl

theorem instrRs2_used (h : f = .r3 ∨ f = .rCmp) :
    instrRs2 (w &&& usedBits f) = instrRs2 w := by
  rw [instrRs2, field_and, instrRs2]
  rcases h with rfl | rfl <;> rfl

theorem instrImm5_used (h : f = .i3 ∨ f = .iMov) :
    instrImm5 (w &&& usedBits f) = instrImm5 w := by
  rw [instrImm5, shiftLeft_and_eq, instrImm5]
  rcases h with rfl | rfl <;> rfl

theorem instrOffset_used : instrOffset (w &&& usedBits .j) = instrOffset w := by
  rw [instrOffset, shiftLeft_and_eq, instrOffset]
  rfl

end Used

theorem canonical_of_opcodeOf {w : Word} {o : Opcode} (h : opcodeOf w = some o) :
    canonical w = w &&& usedBits (fmtOf o) := by
  rw [canonical, h]
  rfl

theorem opcodeOf_canonical (w : Word) : opcodeOf (canonical w) = opcodeOf w := by
  cases hop : opcodeOf w with
  | none => rw [canonical, hop, Option.elim_none, hop]
  | some o => rw [canonical_of_opcodeOf hop, opcodeOf_used, hop]

theorem canonical_canonical (w : Word) : canonical (canonical w) = canonical w := by
  cases hop : opcodeOf w with
  | none =>
    have hself : canonical w = w := by rw [canonical, hop, Option.elim_none]
    rw [hself, hself]
  | some o =>
    rw [canonical_of_opcodeOf ((opcodeOf_canonical w).trans hop), canonical_of_opcodeOf hop,
      BitVec.and_assoc, BitVec.and_self]

/-! ## Execution

Which bits a format leaves out is decided by the opcode, and an operation of that format does not
look at them. -/

/-- The `switch` on the fields of a word. -/
def executeWord (w : Word) (m : Machine) : Machine :=
  execute ((instrOpcode w).setWidth 8) (rdOf w) (rs1Of w) (rs2Of w) (instrImm5 w) (instrOffset w) m

theorem decodeExecute_withIr (w : Word) (m : Machine) :
    decodeExecute (withIr w m) = withIr w (executeWord w m) :=
  execute_withIr w _ _ _ _ _ _ m

/-- **Unused bits are not looked at.** -/
theorem executeWord_canonical (w : Word) : executeWord (canonical w) = executeWord w := by
  funext m
  cases hop : opcodeOf w with
  | none =>
    rw [canonical, hop, Option.elim_none]
  | some o =>
    have hcode : (instrOpcode w).setWidth 8 = o.code := (Opcode.code_of_ofCode? hop).symm
    rw [canonical_of_opcodeOf hop, executeWord, executeWord, instrOpcode_used, hcode]
    cases o
    case add | sub | and | or | xor | shl | shr =>
      simp only [fmtOf, rdOf, rs1Of, rs2Of, instrRd_used, instrRs1_used, instrRs2_used, true_or,
        execute, Opcode.ofCode?_code]
    case not =>
      simp only [fmtOf, rdOf, rs1Of, instrRd_used, instrRs1_used, true_or, or_true, execute,
        Opcode.ofCode?_code]
    case cmp =>
      simp only [fmtOf, rs1Of, rs2Of, instrRs1_used, instrRs2_used, true_or, or_true, execute,
        Opcode.ofCode?_code]
    case addi | lw | sw =>
      simp only [fmtOf, rdOf, rs1Of, instrRd_used, instrRs1_used, instrImm5_used, true_or, or_true,
        execute, Opcode.ofCode?_code]
    case mov =>
      simp only [fmtOf, rdOf, instrRd_used, instrImm5_used, or_true, execute, Opcode.ofCode?_code]
    case jmp | jeq | jne | jlt | jgt | call =>
      simp only [fmtOf, instrOffset_used, execute, Opcode.ofCode?_code]
    case ret | halt => simp only [execute, Opcode.ofCode?_code]

/-! ## Operands

The operands are read out of the fields as EXECUTE reads them. A jump is written with the address it
goes to, as in a source. -/

/-- The operands of an instruction word at an address. -/
def operandsOf (pc w : Word) : Fmt → List Arg
  | .r3 => [.reg ((instrRd w).setWidth 8), .reg ((instrRs1 w).setWidth 8),
      .reg ((instrRs2 w).setWidth 8)]
  | .r2 => [.reg ((instrRd w).setWidth 8), .reg ((instrRs1 w).setWidth 8)]
  | .rCmp => [.reg ((instrRs1 w).setWidth 8), .reg ((instrRs2 w).setWidth 8)]
  | .i3 => [.reg ((instrRd w).setWidth 8), .reg ((instrRs1 w).setWidth 8),
      .imm (BitVec.ofInt 32 (instrImm5 w).toInt)]
  | .iMov => [.reg ((instrRd w).setWidth 8), .imm (BitVec.ofInt 32 (instrImm5 w).toInt)]
  | .j => [.imm (BitVec.ofInt 32 (pc.toNat + 1 + (instrOffset w).toInt))]
  | .none => []

/-- The statement an instruction word is written as: an instruction if one assembles to it. -/
def unassemble (pc w : Word) : Cmd :=
  match opcodeOf w with
  | some o =>
      if canonical w = w then .instr (o.mnemonic.map tolower) (operandsOf pc w (fmtOf o))
      else .word (.imm (w.setWidth 32))
  | none => .word (.imm (w.setWidth 32))

/-- A field that is masked out is zero. -/
theorem field_eq_zero {w m f : Word} {sh k : Nat} (hw : w &&& m = w) (hf : f.toNat = 2 ^ k - 1)
    (hm : (m >>> sh) &&& f = 0) : w.toNat / 2 ^ sh % 2 ^ k = 0 := by
  have hzero : (w >>> sh) &&& f = 0 := by
    rw [← hw, field_and, hm]
    exact BitVec.and_zero
  rw [← toNat_extract w hf, hzero]
  rfl

theorem findOp_mnemonic (o : Opcode) : findOp (o.mnemonic.map tolower) = some (defOf o) := by
  rw [findOp_lower, findOp_eq]
  cases o <;> rfl

theorem toNat_field {x : Word} (h : x.toNat < 8) : (x.setWidth 8).toNat = x.toNat := by
  rw [BitVec.toNat_setWidth]
  omega

theorem toInt_ofInt {v : Int} (hlo : -2 ^ 31 ≤ v) (hhi : v < 2 ^ 31) :
    (BitVec.ofInt 32 v).toInt = v := by
  rw [BitVec.toInt_ofInt, Int.bmod_def]
  omega

/-- The low bits of a number whose value is that of a sign-extended field. -/
theorem toNat_mod_of_toInt {x : I32} {n m : Nat} (hm : m = 32 ∨ m = 2048)
    (h : x.toInt = Int.bmod n m) : x.toNat % m = n % m := by
  have hlt := x.isLt
  rw [BitVec.toInt_eq_toNat_cond, Int.bmod_def] at h
  rcases hm with rfl | rfl
  · split at h <;> split at h <;> omega
  · split at h <;> split at h <;> omega

/-- The encoder builds the word its fields were read from. -/
theorem encodeR_fields {op rd rs1 rs2 : Byte} {w : Word} (out : Word) (hop : op.toNat < 32)
    (hrd : rd.toNat < 8) (hrs1 : rs1.toNat < 8) (hrs2 : rs2.toNat < 8)
    (hw : w.toNat = op.toNat * 2048 + rd.toNat * 256 + rs1.toNat * 32 + rs2.toNat * 4) :
    encodeR op rd rs1 rs2 out = (.ok, w) := by
  obtain ⟨w', henc, hw'⟩ := encodeR_ok out hop hrd hrs1 hrs2
  rw [henc, BitVec.eq_of_toNat_eq (hw'.trans hw.symm)]

theorem encodeI_fields {op rd rs1 : Byte} {imm : I32} {w : Word} (out : Word)
    (hop : op.toNat < 32) (hrd : rd.toNat < 8) (hrs1 : rs1.toNat < 8) (hlo : -16 ≤ imm.toInt)
    (hhi : imm.toInt ≤ 15)
    (hw : w.toNat = op.toNat * 2048 + rd.toNat * 256 + rs1.toNat * 32 + imm.toNat % 32) :
    encodeI op rd rs1 imm out = (.ok, w) := by
  obtain ⟨w', henc, hw'⟩ := encodeI_ok out hop hrd hrs1 hlo hhi
  rw [henc, BitVec.eq_of_toNat_eq (hw'.trans hw.symm)]

theorem encodeJ_fields {op : Byte} {off : I32} {w : Word} (out : Word) (hop : op.toNat < 32)
    (hlo : -1024 ≤ off.toInt) (hhi : off.toInt ≤ 1023)
    (hw : w.toNat = op.toNat * 2048 + off.toNat % 2048) :
    encodeJ op off out = (.ok, w) := by
  obtain ⟨w', henc, hw'⟩ := encodeJ_ok out hop hlo hhi
  rw [henc, BitVec.eq_of_toNat_eq (hw'.trans hw.symm)]

/-- **A canonical word is what its operands encode to.** -/
theorem encodeInstr_operandsOf {w : Word} {o : Opcode} (hop : opcodeOf w = some o)
    (hcanon : canonical w = w) (pc out : Word) :
    encodeInstr (instrOf (o.mnemonic.map tolower) (operandsOf pc w (fmtOf o))) pc out =
      (.ok, w) := by
  rw [canonical_of_opcodeOf hop] at hcanon
  have hcode : o.code = (instrOpcode w).setWidth 8 := Opcode.code_of_ofCode? hop
  have hlt := w.isLt
  have hopNat := instrOpcode_toNat w
  have hrdNat := instrRd_toNat w
  have hrs1Nat := instrRs1_toNat w
  have hrs2Nat := instrRs2_toNat w
  have hcodeNat : o.code.toNat = w.toNat / 2048 := by
    rw [hcode, BitVec.toNat_setWidth, hopNat]
    omega
  have hrd := toNat_field (x := instrRd w) (by omega)
  have hrs1 := toNat_field (x := instrRs1 w) (by omega)
  have hrs2 := toNat_field (x := instrRs2 w) (by omega)
  have hfind : findOp (instrOf (o.mnemonic.map tolower) (operandsOf pc w (fmtOf o))).mnemonic =
      some ⟨o.mnemonic, o.code, fmtOf o⟩ := findOp_mnemonic o
  have himm : (instrImm5 w).toInt = Int.bmod w.toNat 32 := instrImm5_toInt w
  have hoff : (instrOffset w).toInt = Int.bmod w.toNat 2048 := instrOffset_toInt w
  -- Only the format matters from here on. A field it lacks is encoded as 0, which is what the
  -- canonical word has there.
  generalize fmtOf o = f at hfind hcanon ⊢
  simp only [encodeInstr, hfind]
  cases f
  case r3 =>
    have hlow : w.toNat / 2 ^ 0 % 2 ^ 2 = 0 := field_eq_zero (f := 3) hcanon rfl rfl
    show encodeR o.code ((instrRd w).setWidth 8) ((instrRs1 w).setWidth 8)
      ((instrRs2 w).setWidth 8) out = (.ok, w)
    apply encodeR_fields out
    all_goals omega
  case r2 =>
    have hlow : w.toNat / 2 ^ 0 % 2 ^ 5 = 0 := field_eq_zero (f := 0x1F) hcanon rfl rfl
    have hnone : (0 : Byte).toNat = 0 := rfl
    show encodeR o.code ((instrRd w).setWidth 8) ((instrRs1 w).setWidth 8) 0 out = (.ok, w)
    apply encodeR_fields out
    all_goals omega
  case rCmp =>
    have hlow : w.toNat / 2 ^ 0 % 2 ^ 2 = 0 := field_eq_zero (f := 3) hcanon rfl rfl
    have hmid : w.toNat / 2 ^ 8 % 2 ^ 3 = 0 := field_eq_zero (f := 7) hcanon rfl rfl
    have hnone : (0 : Byte).toNat = 0 := rfl
    show encodeR o.code 0 ((instrRs1 w).setWidth 8) ((instrRs2 w).setWidth 8) out = (.ok, w)
    apply encodeR_fields out
    all_goals omega
  case i3 =>
    have hbound := Int.bmod_lt (x := w.toNat) (m := 32) (by decide)
    have hbound' := Int.le_bmod (x := w.toNat) (m := 32) (by decide)
    have hval := (toInt_ofInt (v := (instrImm5 w).toInt) (by omega) (by omega)).trans himm
    have hmod := toNat_mod_of_toInt (.inl rfl) hval
    show encodeI o.code ((instrRd w).setWidth 8) ((instrRs1 w).setWidth 8)
      (BitVec.ofInt 32 (instrImm5 w).toInt) out = (.ok, w)
    apply encodeI_fields out
    all_goals omega
  case iMov =>
    have hmid : w.toNat / 2 ^ 5 % 2 ^ 3 = 0 := field_eq_zero (f := 7) hcanon rfl rfl
    have hbound := Int.bmod_lt (x := w.toNat) (m := 32) (by decide)
    have hbound' := Int.le_bmod (x := w.toNat) (m := 32) (by decide)
    have hval := (toInt_ofInt (v := (instrImm5 w).toInt) (by omega) (by omega)).trans himm
    have hmod := toNat_mod_of_toInt (.inl rfl) hval
    have hnone : (0 : Byte).toNat = 0 := rfl
    show encodeI o.code ((instrRd w).setWidth 8) 0 (BitVec.ofInt 32 (instrImm5 w).toInt) out =
      (.ok, w)
    apply encodeI_fields out
    all_goals omega
  case j =>
    have hbound := Int.bmod_lt (x := w.toNat) (m := 2048) (by decide)
    have hbound' := Int.le_bmod (x := w.toNat) (m := 2048) (by decide)
    have hpc := pc.isLt
    -- The printed target is `pc + 1 + offset`, and the encoder subtracts the same address again.
    have htarget := toInt_ofInt (v := pc.toNat + 1 + (instrOffset w).toInt) (by omega) (by omega)
    have hjump : (jumpOffset (BitVec.ofInt 32 (pc.toNat + 1 + (instrOffset w).toInt)) pc).toInt =
        (instrOffset w).toInt := by
      rw [jumpOffset_eq_of_inRange]
      all_goals omega
    have hmod := toNat_mod_of_toInt (.inr rfl) (hjump.trans hoff)
    show encodeJ o.code (jumpOffset (BitVec.ofInt 32 (pc.toNat + 1 + (instrOffset w).toInt)) pc)
      out = (.ok, w)
    apply encodeJ_fields out
    all_goals omega
  case none =>
    have hlow : w.toNat / 2 ^ 0 % 2 ^ 11 = 0 := field_eq_zero (f := 0x7FF) hcanon rfl rfl
    have hnone : (0 : Byte).toNat = 0 := rfl
    show encodeR o.code 0 0 0 out = (.ok, w)
    apply encodeR_fields out
    all_goals omega

/-! ## What the encoder builds is canonical

The other direction: what an instruction assembles to has zeroes in its unused bits. Each format is
an `|||` of fields, and each of the fields is inside the mask. -/

theorem fieldAt_used {v : Byte} {mask m : Word} {sh : Nat} (h : mask <<< sh &&& m = mask <<< sh) :
    fieldAt v mask sh &&& m = fieldAt v mask sh := by
  rw [fieldAt, BitVec.shiftLeft_and_distrib, BitVec.and_assoc, h]

section Words

variable {op rd rs1 rs2 : Byte} {imm : I32} {out : Word}

theorem encodeR_word (h : (encodeR op rd rs1 rs2 out).1 = .ok) : (encodeR op rd rs1 rs2 out).2 =
    fieldAt op 0x1F 11 ||| fieldAt rd 0x07 8 ||| fieldAt rs1 0x07 5 ||| fieldAt rs2 0x07 2 := by
  unfold encodeR at h ⊢
  split at h
  · cases h
  split at h
  · cases h
  · rename_i hop hregs
    rw [if_neg hop, if_neg hregs]

theorem encodeI_word (h : (encodeI op rd rs1 imm out).1 = .ok) : (encodeI op rd rs1 imm out).2 =
    fieldAt op 0x1F 11 ||| fieldAt rd 0x07 8 ||| fieldAt rs1 0x07 5 |||
      (imm.setWidth 16 &&& 0x1F) := by
  unfold encodeI at h ⊢
  split at h
  · cases h
  split at h
  · cases h
  split at h
  · cases h
  · rename_i hop hregs himm
    rw [if_neg hop, if_neg hregs, if_neg himm]

end Words

/-- The word of an instruction uses the bits of its format. -/
theorem encodeInstr_used {i : Instr} {d : OpDef} {pc out : Word}
    (hd : findOp i.mnemonic = some d) (hfit : Fits i pc d.fmt)
    (hok : (encodeInstr i pc out).1 = .ok) :
    (encodeInstr i pc out).2 &&& usedBits d.fmt = (encodeInstr i pc out).2 := by
  have hall : ∀ w : Word, w &&& 0xFFFF = w := fun w => BitVec.and_allOnes
  have hnone : ∀ sh, fieldAt 0 0x07 sh = 0 := fun sh => BitVec.zero_shiftLeft sh
  have hzero : ∀ w : Word, 0 &&& w = 0 := fun w => BitVec.zero_and
  cases hfmt : d.fmt with
  | r3 =>
    rw [hfmt] at hfit
    obtain ⟨hn, k0, k1, k2⟩ := hfit
    have heq : encodeInstr i pc out =
        encodeR d.opcode (i.ops 0).reg (i.ops 1).reg (i.ops 2).reg out := by
      simp [encodeInstr, hd, hfmt, hn, k0, k1, k2]
    rw [heq] at hok ⊢
    simp only [encodeR_word hok, BitVec.and_or_distrib_right]
    rw [fieldAt_used, fieldAt_used, fieldAt_used, fieldAt_used]
    all_goals rfl
  | r2 =>
    rw [hfmt] at hfit
    obtain ⟨hn, k0, k1⟩ := hfit
    have heq : encodeInstr i pc out = encodeR d.opcode (i.ops 0).reg (i.ops 1).reg 0 out := by
      simp [encodeInstr, hd, hfmt, hn, k0, k1]
    rw [heq] at hok ⊢
    simp only [encodeR_word hok, hnone, hzero, BitVec.and_or_distrib_right]
    rw [fieldAt_used, fieldAt_used, fieldAt_used]
    all_goals rfl
  | rCmp =>
    rw [hfmt] at hfit
    obtain ⟨hn, k0, k1⟩ := hfit
    have heq : encodeInstr i pc out = encodeR d.opcode 0 (i.ops 0).reg (i.ops 1).reg out := by
      simp [encodeInstr, hd, hfmt, hn, k0, k1]
    rw [heq] at hok ⊢
    simp only [encodeR_word hok, hnone, hzero, BitVec.and_or_distrib_right]
    rw [fieldAt_used, fieldAt_used, fieldAt_used]
    all_goals rfl
  -- These two formats use every bit of the word.
  | i3 | j => exact hall _
  | iMov =>
    rw [hfmt] at hfit
    obtain ⟨hn, k0, k1, -⟩ := hfit
    have heq : encodeInstr i pc out = encodeI d.opcode (i.ops 0).reg 0 (i.ops 1).imm out := by
      simp [encodeInstr, hd, hfmt, hn, k0, k1]
    rw [heq] at hok ⊢
    simp only [encodeI_word hok, hnone, hzero, BitVec.and_or_distrib_right]
    rw [fieldAt_used, fieldAt_used, BitVec.and_assoc]
    all_goals rfl
  | none =>
    rw [hfmt] at hfit
    have heq : encodeInstr i pc out = encodeR d.opcode 0 0 0 out := by
      simp [encodeInstr, hd, hfmt, show i.nops = 0 from hfit]
    rw [heq] at hok ⊢
    simp only [encodeR_word hok, hnone, hzero, BitVec.and_or_distrib_right]
    rw [fieldAt_used]
    all_goals rfl

/-- An instruction that assembles is the statement its word is written as: the word is canonical and
its opcode is assigned. -/
theorem canonical_of_words {env : Env} {pc w : Word} {m : Bytes} {args : List Arg}
    (hregs : ∀ r, .reg r ∈ args → r.toNat < 8)
    (h : Cmd.words env pc (.instr m args) = some [w]) :
    (opcodeOf w).isSome = true ∧ canonical w = w := by
  obtain ⟨as, has, hcond⟩ := Option.bind_eq_some_iff.mp h
  simp only at hcond
  split at hcond
  · rename_i hok
    obtain rfl := (List.cons.inj (Option.some.inj hcond)).1
    obtain ⟨d, hd, hfit, hdec, -⟩ := encodeInstr_spec (regsOk_resolved has m hregs) hok
    obtain ⟨o, -, rfl⟩ := Option.map_eq_some_iff.mp ((findOp_eq _).symm.trans hd)
    have hop : opcodeOf (encodeInstr (instrOf m as) pc 0).2 = some o := by
      rw [opcodeOf, hdec]
      exact Opcode.ofCode?_code o
    refine ⟨by rw [hop]; rfl, ?_⟩
    rw [canonical_of_opcodeOf hop]
    exact encodeInstr_used hd hfit hok
  · cases hcond

/-! ## The source of an image

A jump's operand is an absolute target, so it depends on where the word is; everything else does
not. None of the statements has a label or a name in it, and each takes one word, which makes the
addresses of the disassembly those of the image. -/

/-- The statements of the words from an address on. -/
def disassemble : Nat → List Word → List Stmt
  | _, [] => []
  | a, w :: ws => { cmd := unassemble (BitVec.ofNat 16 a) w } :: disassemble (a + 1) ws

theorem wellSpelled_mnemonic (o : Opcode) : WellSpelled ⟨.ident, o.mnemonic⟩ := by
  have hword : WordText o.mnemonic := by cases o <;> exact ⟨by decide, by decide, by decide⟩
  have hkind : wordKind o.mnemonic = .ident := by cases o <;> rfl
  exact ⟨hkind ▸ spelled_of_word hword, hword.length⟩

theorem operandsOf_plain (pc w : Word) (f : Fmt) :
    (∀ a ∈ operandsOf pc w f, Plain a) ∧ (operandsOf pc w f).length ≤ 3 := by
  have hrd : Plain (.reg ((instrRd w).setWidth 8)) := by
    have := instrRd_toNat w
    exact .inl ⟨_, rfl, by rw [BitVec.toNat_setWidth]; omega⟩
  have hrs1 : Plain (.reg ((instrRs1 w).setWidth 8)) := by
    have := instrRs1_toNat w
    exact .inl ⟨_, rfl, by rw [BitVec.toNat_setWidth]; omega⟩
  have hrs2 : Plain (.reg ((instrRs2 w).setWidth 8)) := by
    have := instrRs2_toNat w
    exact .inl ⟨_, rfl, by rw [BitVec.toNat_setWidth]; omega⟩
  have himm : ∀ v, Plain (.imm v) := fun v => .inr ⟨v, rfl⟩
  cases f <;> simp [operandsOf, hrd, hrs1, hrs2, himm]

/-- What a word is written as is read back. -/
theorem readsAs_unassemble (pc w : Word) :
    ReadsAs (printStmt { cmd := unassemble pc w }) { cmd := unassemble pc w } := by
  have hword : ∀ v : I32,
      ReadsAs (printStmt { cmd := .word (.imm v) }) { cmd := .word (.imm v) } := by
    intro v
    obtain ⟨hspelled, hread⟩ := Plain.token (.inr ⟨v, rfl⟩)
    have htoks : ∀ t ∈ (Cmd.word (.imm v)).tokens, WellSpelled t :=
      List.forall_mem_cons.mpr ⟨wellSpelled_dirName .word, List.forall_mem_singleton.mpr hspelled⟩
    apply readsAs_of_readCmd htoks
    simp only [Cmd.tokens, readCmd, readDirName_dirName, Option.bind_some, readDir, hread,
      Option.map_some]
  unfold unassemble
  split
  · rename_i o _
    split
    · obtain ⟨hplain, hlen⟩ := operandsOf_plain pc w (fmtOf o)
      have htoks : ∀ t ∈ (⟨.ident, o.mnemonic⟩ : Token) ::
          (operandsOf pc w (fmtOf o)).map Arg.token, WellSpelled t :=
        List.forall_mem_cons.mpr ⟨wellSpelled_mnemonic o,
          List.forall_mem_map.mpr fun a ha => (hplain a ha).token.1⟩
      have hread : ((operandsOf pc w (fmtOf o)).map Arg.token).mapM readArg =
          some (operandsOf pc w (fmtOf o)) := by
        rw [Traverse.mapM_eq_some_iff, List.forall₂_map_left_iff]
        exact List.forall₂_same.mpr fun a ha => (hplain a ha).token.2
      rw [← List.length_map Arg.token] at hlen
      apply readsAs_of_readCmd htoks
      simp only [readCmd, if_pos hlen, hread, Option.map_some]
    · exact hword _
  · exact hword _

theorem resolve_plain {env : Env} {args : List Arg} (h : ∀ a ∈ args, Plain a) :
    args.mapM (Arg.resolve env) = some args := by
  rw [Traverse.mapM_eq_some_iff]
  refine List.forall₂_same.mpr fun a ha => ?_
  rcases h a ha with ⟨r, rfl, -⟩ | ⟨v, rfl⟩
  · rfl
  · rfl

/-- **What a word is written as assembles to the word.** -/
theorem words_unassemble (env : Env) (pc w : Word) :
    (unassemble pc w).words env pc = some [w] := by
  have hword : (Cmd.word (.imm (w.setWidth 32))).words env pc = some [w] :=
    congrArg (fun v => some [v]) (setWidth_back w)
  unfold unassemble
  split
  · rename_i o hop
    split
    · rename_i hcanon
      simp only [Cmd.words, resolve_plain (operandsOf_plain pc w (fmtOf o)).1, Option.bind_some,
        encodeInstr_operandsOf hop hcanon, if_true]
    · exact hword
  · exact hword

/-- It is an instruction exactly if some line of source assembles to it as one. -/
theorem unassemble_instr_iff (pc w : Word) : (∃ m args, unassemble pc w = .instr m args) ↔
    ∃ src label m args env, ReadsAs src ⟨label, .instr m args⟩ ∧
      Cmd.words env pc (.instr m args) = some [w] := by
  constructor
  · rintro ⟨m, args, hcmd⟩
    have hread := readsAs_unassemble pc w
    have hwords := words_unassemble (fun _ => none) pc w
    rw [hcmd] at hread hwords
    exact ⟨_, _, m, args, _, hread, hwords⟩
  · rintro ⟨src, label, m, args, env, hread, hwords⟩
    obtain ⟨pl, hacc, hof⟩ := hread.accepts 1
    have hok : LineOk pl := by
      obtain ⟨tl, -, hparse⟩ := hacc
      have hline := parseLine_ok tl
      rwa [hparse] at hline
    obtain ⟨hsome, hcanon⟩ := canonical_of_words (hof.cmd.regs hok m args rfl) hwords
    obtain ⟨o, hop⟩ := Option.isSome_iff_exists.mp hsome
    refine ⟨o.mnemonic.map tolower, operandsOf pc w (fmtOf o), ?_⟩
    simp only [unassemble, hop, hcanon, if_true]

theorem unassemble_cases (pc w : Word) :
    (∃ m args, unassemble pc w = .instr m args) ∨ ∃ v, unassemble pc w = .word v := by
  unfold unassemble
  split
  · split
    · exact .inl ⟨_, _, rfl⟩
    · exact .inr ⟨_, rfl⟩
  · exact .inr ⟨_, rfl⟩

/-- It takes one word and defines nothing. -/
theorem unassemble_item (pc w : Word) : (unassemble pc w).item = .words 1 := by
  rcases unassemble_cases pc w with ⟨m, args, h⟩ | ⟨v, h⟩
  · rw [h, Cmd.item]
  · rw [h, Cmd.item]

theorem unassemble_defs (pc w addr : Word) :
    ({ cmd := unassemble pc w } : Stmt).defs addr = [] := by
  rcases unassemble_cases pc w with ⟨m, args, h⟩ | ⟨v, h⟩
  · rw [h]
    rfl
  · rw [h]
    rfl

theorem placed_disassemble (w : Word) (ws : List Word) (a : Nat) :
    placed a (disassemble a (w :: ws)) =
      (BitVec.ofNat 16 a, { cmd := unassemble (BitVec.ofNat 16 a) w }) ::
        placed (a + 1) (disassemble (a + 1) ws) := by
  rw [disassemble, placed, unassemble_item, Layout.Item.next]

theorem items_disassemble : ∀ (ws : List Word) (a : Nat),
    (disassemble a ws).map (fun s => s.cmd.item) = List.replicate ws.length (.words 1)
  | [], _ => rfl
  | w :: ws, a => by
    rw [disassemble, List.map_cons, unassemble_item, items_disassemble ws (a + 1)]
    rfl

theorem readsAs_disassemble : ∀ (ws : List Word) (a : Nat),
    List.Forall₂ ReadsAs ((disassemble a ws).map printStmt) (disassemble a ws)
  | [], _ => .nil
  | _ :: ws, a => .cons (readsAs_unassemble _ _) (readsAs_disassemble ws (a + 1))

/-- Every statement assembles, and none defines a name. -/
theorem mem_placed_disassemble : ∀ (ws : List Word) (a : Nat), ∀ p ∈ placed a (disassemble a ws),
    ∃ pc w, p = (pc, { cmd := unassemble pc w })
  | [], _, _, hp => absurd hp List.not_mem_nil
  | w :: ws, a, p, hp => by
    rw [placed_disassemble] at hp
    rcases List.mem_cons.mp hp with rfl | hp
    · exact ⟨_, w, rfl⟩
    · exact mem_placed_disassemble ws (a + 1) p hp

theorem assembled_disassemble (ws : List Word) : Assembled (disassemble 0 ws) := by
  have hsymbols : symbols (disassemble 0 ws) = [] := by
    refine List.flatMap_eq_nil_iff.mpr fun p hp => ?_
    obtain ⟨pc, w, rfl⟩ := mem_placed_disassemble ws 0 p hp
    exact unassemble_defs pc w pc
  refine ⟨?_, ?_, ?_⟩
  · intro s hs
    obtain ⟨addr, hp⟩ := exists_placed hs 0
    obtain ⟨pc, w, heq⟩ := mem_placed_disassemble ws 0 _ hp
    obtain ⟨-, rfl⟩ := Prod.mk.inj heq
    rcases unassemble_cases pc w with ⟨m, args, h⟩ | ⟨v, h⟩
    · rw [h]
      trivial
    · rw [h]
      trivial
  · rw [tableOf, hsymbols]
    exact fun rc hrc => absurd hrc List.not_mem_nil
  · intro p hp
    obtain ⟨pc, w, rfl⟩ := mem_placed_disassemble ws 0 p hp
    simp only [words_unassemble, Option.isSome_some]

theorem stores_disassemble (env : Env) : ∀ (ws : List Word) (a : Nat),
    (placed a (disassemble a ws)).flatMap (storesOf env) =
      ((List.range' a ws.length).map (BitVec.ofNat 16)).zip ws
  | [], _ => rfl
  | w :: ws, a => by
    rw [placed_disassemble, List.flatMap_cons, storesOf_one (words_unassemble env _ w),
      stores_disassemble env ws (a + 1)]
    rfl

/-- Words stored one after the other from address 0. -/
theorem write_range {ws : List Word} (hlen : ws.length ≤ 65535) (a : Word) :
    Stores.write (fun _ => 0) (((List.range' 0 ws.length).map (BitVec.ofNat 16)).zip ws) a =
      ws.getD a.toNat 0 := by
  have hfst : (((List.range' 0 ws.length).map (BitVec.ofNat 16)).zip ws).map Prod.fst =
      (List.range' 0 ws.length).map (BitVec.ofNat 16) := by
    apply List.map_fst_zip
    rw [List.length_map, List.length_range']
  by_cases ha : a.toNat < ws.length
  · rw [Stores.write_of_nodup (v := ws.getD a.toNat 0)]
    · rw [hfst]
      refine (List.nodup_map_iff_inj_on List.nodup_range').mpr fun x hx y hy hxy => ?_
      rw [List.mem_range'_1] at hx hy
      have hnat := congrArg BitVec.toNat hxy
      rw [toNat_ofNat_of_lt (by omega), toNat_ofNat_of_lt (by omega)] at hnat
      exact hnat
    · refine List.mem_iff_getElem?.mpr ⟨a.toNat, ?_⟩
      rw [List.getElem?_zip_eq_some, List.getElem?_map, List.getElem?_range' ha]
      refine ⟨?_, ?_⟩
      · rw [Option.map_some, Nat.zero_add, Nat.one_mul, BitVec.ofNat_toNat, BitVec.setWidth_eq]
      · rw [List.getElem?_eq_getElem ha, List.getD_eq_getElem _ _ ha]
  · rw [Stores.write_of_notMem, List.getD_eq_default _ _ (by omega)]
    rw [hfst]
    intro hmem
    obtain ⟨i, hi, rfl⟩ := List.mem_map.mp hmem
    rw [List.mem_range'_1] at hi
    rw [BitVec.toNat_ofNat] at ha
    omega

/-- The bytes of an image that begins with some words. -/
theorem imageBytes_eq_unpack {image : Word → Word} : ∀ {ws : List Word},
    (∀ i w, ws[i]? = some w → image (BitVec.ofNat 16 i) = w) →
    imageBytes image ws.length = unpack ws := by
  intro ws
  induction ws using List.reverseRecOn with
  | nil => exact fun _ => rfl
  | append_singleton ws w ih =>
    intro h
    have hw : image (BitVec.ofNat 16 ws.length) = w := h _ _ List.getElem?_concat_length
    have hws : imageBytes image ws.length = unpack ws := by
      refine ih fun i w' hi => h i w' ?_
      rw [List.getElem?_append_left (List.getElem?_eq_some_iff.mp hi).1, hi]
    rw [List.length_append, List.length_singleton, imageBytes_succ, hws, hw, unpack, unpack,
      List.flatMap_append, setWidth_and_mask, setWidth_and_mask]
    rfl

/-- **Disassembly is undone by assembly.** Any image of up to 65535 words is what its disassembly
assembles to and what the emulator then loads; and the words written as instructions are those
that some line of source assembles to as one. -/
theorem disassembly_assembles (opt : AsmOptions) {ws : List Word} (hlen : ws.length ≤ 65535) :
    (∃ bin, (assembleLines opt ((disassemble 0 ws).map printStmt)).bin = some bin ∧
      loadProgram bin = some (fun a => ws.getD a.toNat 0) ∧ (ws ≠ [] → bin = unpack ws)) ∧
    ∀ pc w, (∃ m args, unassemble pc w = .instr m args) ↔
      ∃ src label m args env, ReadsAs src ⟨label, .instr m args⟩ ∧
        Cmd.words env pc (.instr m args) = some [w] := by
  have hread := readsAs_disassemble ws 0
  have hok : Assembles opt ((disassemble 0 ws).map printStmt) :=
    (assembles_iff_assembled hread).mpr (assembled_disassemble ws)
  have hzero := (assembles_iff.mp hok).1
  have hlayout : layoutOf ((disassemble 0 ws).map printStmt) =
      List.replicate ws.length (.words 1) :=
    (layout_of_statements hread hzero).trans (items_disassemble ws 0)
  have himage : Stores.write (fun _ => 0) (emitted opt ((disassemble 0 ws).map printStmt)) =
      fun a => ws.getD a.toNat 0 := by
    funext a
    rw [emitted_eq_stores hread hok, stores, stores_disassemble]
    exact write_range hlen a
  obtain ⟨bin, hbin, hload⟩ := hok.loadProgram_bin (hlayout ▸ Layout.forward_words _ _)
    (hlayout ▸ Layout.within_words (by omega))
  refine ⟨⟨bin, hbin, himage ▸ hload, fun hne => ?_⟩, unassemble_instr_iff⟩
  -- The file is cut behind the highest address, so it has a word for each word of the image.
  have hcounter : Layout.counter 0 (List.replicate ws.length (.words 1)) = ws.length := by
    rw [Layout.counter_of_no_org fun i hi => List.eq_of_mem_replicate hi ▸ rfl,
      List.map_replicate, List.sum_replicate, Nat.zero_add]
    exact Nat.mul_one _
  have hpos := List.length_pos_iff.mpr hne
  have haddr := (pass1_statements hread hzero).2.1
  rw [items_disassemble, hcounter] at haddr
  have hcount :
      (highest (pass1 ((disassemble 0 ws).map printStmt)).addr + 1).toNat = ws.length := by
    rw [highest_add_one, haddr, BitVec.toNat_ofNat, if_neg]
    · omega
    · intro habs
      have hnat : ws.length % 2 ^ 16 = 0 := by
        rw [← BitVec.toNat_ofNat, habs]
        rfl
      omega
  rw [bin_eq hok, himage, hcount] at hbin
  rw [← Option.some.inj hbin]
  refine imageBytes_eq_unpack fun i w hi => ?_
  have hlt := (List.getElem?_eq_some_iff.mp hi).1
  rw [toNat_ofNat_of_lt (by omega), List.getD_eq_getElem?_getD, hi]
  rfl

/-- A jump, two instructions and a word that is not one. -/
theorem disassembly_of_words : ∃ bin,
    (assembleLines {} ((disassemble 0 [0x7001, 0xF800, 0x6207, 0xFFFF]).map printStmt)).bin =
      some bin ∧ bin = unpack [0x7001, 0xF800, 0x6207, 0xFFFF] := by
  have hlen : ([0x7001, 0xF800, 0x6207, 0xFFFF] : List Word).length ≤ 65535 := by decide
  obtain ⟨⟨bin, hbin, -, hbytes⟩, -⟩ := disassembly_assembles {} hlen
  exact ⟨bin, hbin, hbytes (List.cons_ne_nil _ _)⟩

/-- **The assembler covers the instruction set.** At every address, the words with an assigned
opcode are those that a line of source assembles to up to the unused bits, and what these bits
hold makes no difference to what is executed. -/
theorem instruction_set_assembles (pc w : Word) :
    ((opcodeOf w).isSome = true ↔ ∃ src label m args env, ReadsAs src ⟨label, .instr m args⟩ ∧
      Cmd.words env pc (.instr m args) = some [canonical w]) ∧
    ∀ m : Machine, decodeExecute (withIr (canonical w) m) =
      withIr (canonical w) (decodeExecute (withIr w m)) := by
  refine ⟨?_, fun m => ?_⟩
  · rw [← unassemble_instr_iff, ← opcodeOf_canonical]
    constructor
    · intro hsome
      obtain ⟨o, hop⟩ := Option.isSome_iff_exists.mp hsome
      refine ⟨o.mnemonic.map tolower, operandsOf pc (canonical w) (fmtOf o), ?_⟩
      simp only [unassemble, hop, canonical_canonical, if_true]
    · rintro ⟨m, args, h⟩
      unfold unassemble at h
      split at h
      · rename_i hop
        rw [hop]
        rfl
      · cases h
  · rw [decodeExecute_withIr, decodeExecute_withIr, executeWord_canonical]
    rfl

end Proof
end EduCpu16
