import EduCpu16.Lib.BitFields
import EduCpu16.Lib.WideWord
import EduCpu16.Proof.Step

/-!
# `alu_execute` in terms of numbers

`AluSpec` says what an operation means on 16-bit numbers, signed and unsigned, with no word about
32-bit intermediates or sign bits: the result as a sum, a difference or a shift of numbers or bit by
bit, CF as a sum or a difference that leaves the unsigned range, OF as one that leaves the signed
range. It says so of every flag, also of those that an operation leaves alone, so that it pins the
result and the whole CPU (`AluSpec.unique`), and the last theorem is an equivalence.

The `switch` has two ways out, and each is treated once: `aluCarry_spec` for the cases that `break`
to the tests of CF and OF, `aluNoCarry_spec` for those that jump past them. What is left for a case
is its result and the bound that the carry test asks about.
-/

namespace EduCpu16
namespace Proof

open CLib

/-- The operations `alu_execute` has a `case` for. -/
def aluOps : List Opcode := [.add, .addi, .sub, .cmp, .and, .or, .xor, .not, .shl, .shr]

/-- The result as a number, modulo `2 ^ 16` where the operation can leave the range; for the bitwise
operations bit by bit. The shifts take the count modulo 16, as the `& 0x0F` of the source does. -/
def ResultIs (o : Opcode) (a b r : Word) : Prop :=
  match o with
  | .add | .addi => r.toNat = (a.toNat + b.toNat) % 2 ^ 16
  | .sub | .cmp => (r.toNat : Int) = ((a.toNat : Int) - b.toNat) % 2 ^ 16
  | .and => ∀ i < 16, r.getLsbD i = (a.getLsbD i && b.getLsbD i)
  | .or => ∀ i < 16, r.getLsbD i = (a.getLsbD i || b.getLsbD i)
  | .xor => ∀ i < 16, r.getLsbD i = (a.getLsbD i != b.getLsbD i)
  | .not => ∀ i < 16, r.getLsbD i = !a.getLsbD i
  | .shl => r.toNat = a.toNat * 2 ^ (b.toNat % 16) % 2 ^ 16
  | .shr => r.toNat = a.toNat / 2 ^ (b.toNat % 16)
  | _ => False

/-- When CF is set afterwards; `old` is CF before. For SHL the condition is that some bit of the
operand is shifted out of the word, which is not only the last one. -/
def CarryIs (o : Opcode) (a b : Word) (old : Bool) : Prop :=
  match o with
  | .add | .addi => 2 ^ 16 ≤ a.toNat + b.toNat
  | .sub | .cmp => a.toNat < b.toNat
  | .shl => ∃ i < 16, a.getLsbD i = true ∧ 16 ≤ i + b.toNat % 16
  | _ => old = true

/-- When OF is set afterwards; `old` is OF before. The subtractions clear it: `alu_execute` tests
for signed overflow of additions only. -/
def OverflowIs (o : Opcode) (a b : Word) (old : Bool) : Prop :=
  match o with
  | .add | .addi => ¬ (-32768 ≤ a.toInt + b.toInt ∧ a.toInt + b.toInt ≤ 32767)
  | .sub | .cmp | .shl => False
  | _ => old = true

/-- What an ALU operation leaves, as a fact about numbers. ZF and NF are about the result, CF and OF
about the operands, and the last two fields say that nothing else has changed. -/
structure AluSpec (o : Opcode) (a b : Word) (cpu : CPU) (out : Word × CPU) : Prop where
  result : ResultIs o a b out.1
  zf : out.2.flag flagZf = true ↔ out.1 = 0
  nf : out.2.flag flagNf = true ↔ out.1.toInt < 0
  cf : out.2.flag flagCf = true ↔ CarryIs o a b (cpu.flag flagCf)
  overflow : out.2.flag flagOf = true ↔ OverflowIs o a b (cpu.flag flagOf)
  /-- The flag bits outside the four masks. -/
  others : out.2.flags &&& 0xF0 = cpu.flags &&& 0xF0
  frame : out.2 = { cpu with flags := out.2.flags }

/-! ## Flags after `no_carry`

The bitwise operations and SHR come here. ZF and NF are set from the result; CF and OF keep what an
earlier instruction left in them, so `CarryIs` and `OverflowIs` take their old value as an
argument. -/

section NoCarry

variable (cpu : CPU) (result : Word)

theorem aluNoCarry_zf : (aluNoCarry cpu result).2.flag flagZf = true ↔ result = 0 := by
  rw [aluNoCarry, updateZnFlags, setFlag_flag_of_disjoint _ _ _ (by decide),
    setFlag_flag_self _ _ _ (by decide), decide_eq_true_iff]

theorem aluNoCarry_nf : (aluNoCarry cpu result).2.flag flagNf = true ↔ result.toInt < 0 := by
  rw [aluNoCarry, updateZnFlags, setFlag_flag_self _ _ _ (by decide), decide_eq_true_iff]
  exact WideWord.and_sign_ne_zero result

/-- ZF and NF apart, the flags are as they were. -/
theorem aluNoCarry_and {keep : Byte} (hz : flagZf &&& keep = 0) (hn : flagNf &&& keep = 0) :
    (aluNoCarry cpu result).2.flags &&& keep = cpu.flags &&& keep := by
  rw [aluNoCarry, updateZnFlags, setFlag_and _ _ _ hn, setFlag_and _ _ _ hz]

theorem aluNoCarry_flag {mask : Byte} (hz : flagZf &&& mask = 0) (hn : flagNf &&& mask = 0) :
    (aluNoCarry cpu result).2.flag mask = cpu.flag mask := by
  simp only [CPU.flag, aluNoCarry_and cpu result hz hn]

/-- A bitwise operation: its result, and CF and OF as they were. -/
theorem aluNoCarry_spec {o : Opcode} {a b : Word} (hres : ResultIs o a b result)
    (hcf : CarryIs o a b (cpu.flag flagCf) ↔ cpu.flag flagCf = true)
    (hof : OverflowIs o a b (cpu.flag flagOf) ↔ cpu.flag flagOf = true) :
    AluSpec o a b cpu (aluNoCarry cpu result) where
  result := hres
  zf := aluNoCarry_zf cpu result
  nf := aluNoCarry_nf cpu result
  cf := by rw [aluNoCarry_flag _ _ (by decide) (by decide), hcf]
  overflow := by rw [aluNoCarry_flag _ _ (by decide) (by decide), hof]
  others := aluNoCarry_and _ _ (by decide) (by decide)
  frame := aluNoCarry_cpu cpu result

end NoCarry

/-! ## Flags of the cases that `break`

Here CF is the bit above the low 16 of a 32-bit intermediate. For a subtraction this is a borrow,
since the intermediate wraps at `2 ^ 32`; for SHL it is a bit that has left the word. OF is tested
for additions only and cleared by the others, SUB and CMP included. -/

section Carry

variable (cpu : CPU) (a b : Word) (result32 : BitVec 32) (isAddLike : Bool)

/-- An arithmetic operation: its result, and CF and OF by the tests after the `switch`. -/
theorem aluCarry_spec {o : Opcode} (hres : ResultIs o a b (result32.setWidth 16))
    (hcf : CarryIs o a b (cpu.flag flagCf) ↔ 2 ^ 16 ≤ result32.toNat)
    (hof : OverflowIs o a b (cpu.flag flagOf) ↔
      (isAddLike && addOverflows a b (result32.setWidth 16)) = true) :
    AluSpec o a b cpu (aluCarry cpu a b result32 isAddLike) where
  result := hres
  zf := aluNoCarry_zf _ _
  nf := aluNoCarry_nf _ _
  cf := by
    rw [aluCarry, aluNoCarry_flag _ _ (by decide) (by decide),
      setFlag_flag_of_disjoint _ _ _ (by decide), setFlag_flag_self _ _ _ (by decide), hcf,
      decide_eq_true_iff]
    exact Iff.rfl
  overflow := by
    rw [aluCarry, aluNoCarry_flag _ _ (by decide) (by decide),
      setFlag_flag_self _ _ _ (by decide), hof]
  others := by
    rw [aluCarry, aluNoCarry_and _ _ (by decide) (by decide), setFlag_and _ _ _ (by decide),
      setFlag_and _ _ _ (by decide)]
  frame := aluCarry_cpu cpu a b result32 isAddLike

/-- The overflow test of `alu_execute` is the signed one. -/
theorem addOverflows_iff : addOverflows a b (a + b) = true ↔
    ¬ (-32768 ≤ a.toInt + b.toInt ∧ a.toInt + b.toInt ≤ 32767) := by
  have hsigns : addOverflows a b (a + b) = true ↔ a.msb = b.msb ∧ (a + b).msb ≠ a.msb := by
    rw [addOverflows, decide_eq_true_iff]
    exact and_congr (WideWord.sign_bit_eq_iff (k := 15) a b)
      (not_congr (WideWord.sign_bit_eq_iff (k := 15) (a + b) a))
  rw [hsigns, WideWord.add_overflows_iff]
  omega

end Carry

/-! ## The `switch` -/

section Switch

variable (cpu : CPU) (a b : Word)

theorem add_spec {o : Opcode} (ho : o = .add ∨ o = .addi) :
    AluSpec o a b cpu (aluExecute cpu o.code a b) := by
  have hwide := WideWord.toNat_add (w := 16) (v := 32) (by decide) a b
  have hnarrow : (a.setWidth 32 + b.setWidth 32).setWidth 16 = a + b := by
    rw [BitVec.setWidth_add _ _ (by decide)]
    simp
  rcases ho with rfl | rfl
  all_goals
    refine aluCarry_spec cpu a b _ true ?_ ?_ ?_
    · rw [hnarrow]
      exact BitVec.toNat_add a b
    · rw [hwide]
      exact Iff.rfl
    · rw [hnarrow]
      exact (addOverflows_iff a b).symm

theorem setWidth_sub_wide : (a.setWidth 32 - b.setWidth 32).setWidth 16 = a - b := by
  have hb := b.isLt
  apply BitVec.eq_of_toNat_eq
  simp only [BitVec.toNat_setWidth, BitVec.toNat_sub]
  omega

theorem sub_spec {o : Opcode} (ho : o = .sub ∨ o = .cmp) :
    AluSpec o a b cpu (aluExecute cpu o.code a b) := by
  have hborrow := WideWord.two_pow_le_sub_iff (w := 16) (v := 32) (by decide) a b
  have hdiff : (((a - b).toNat : Nat) : Int) = ((a.toNat : Int) - b.toNat) % 2 ^ 16 := by
    have hb := b.isLt
    rw [BitVec.toNat_sub]
    omega
  rcases ho with rfl | rfl
  all_goals
    refine aluCarry_spec cpu a b _ false ?_ ?_ ?_
    · rw [setWidth_sub_wide]
      exact hdiff
    · exact hborrow.symm
    · exact iff_of_false (fun h => h) Bool.false_ne_true

/-- The shift count is the low four bits. -/
theorem toNat_shiftCount : (b &&& 0x0F).toNat = b.toNat % 16 :=
  BitFields.toNat_and_mask (k := 4) b (by decide)

theorem shl_spec : AluSpec .shl a b cpu (aluExecute cpu Opcode.shl.code a b) := by
  have hwide : (a.setWidth 32 <<< (b &&& 0x0F)).toNat = a.toNat * 2 ^ (b.toNat % 16) := by
    rw [BitVec.shiftLeft_eq', toNat_shiftCount]
    exact WideWord.toNat_shiftLeft (by omega) a
  refine aluCarry_spec cpu a b _ false ?_ ?_ ?_
  · show ((a.setWidth 32 <<< (b &&& 0x0F)).setWidth 16).toNat = _
    rw [BitVec.toNat_setWidth, hwide]
  · rw [hwide, WideWord.two_pow_le_shift_iff]
    constructor
    · rintro ⟨i, -, hbit, hi⟩
      exact ⟨i, hbit, hi⟩
    · rintro ⟨i, hbit, hi⟩
      have hlt : i < 16 := BitVec.lt_of_getLsbD hbit
      exact ⟨i, hlt, hbit, hi⟩
  · exact iff_of_false (fun h => h) Bool.false_ne_true

theorem shr_spec : AluSpec .shr a b cpu (aluExecute cpu Opcode.shr.code a b) := by
  refine aluNoCarry_spec cpu _ ?_ Iff.rfl Iff.rfl
  show (a >>> (b &&& 0x0F)).toNat = _
  rw [BitVec.ushiftRight_eq', toNat_shiftCount, BitVec.toNat_ushiftRight,
    Nat.shiftRight_eq_div_pow]

theorem bitwise_spec {o : Opcode} (ho : o = .and ∨ o = .or ∨ o = .xor ∨ o = .not) :
    AluSpec o a b cpu (aluExecute cpu o.code a b) := by
  rcases ho with rfl | rfl | rfl | rfl
  · refine aluNoCarry_spec cpu (a &&& b) ?_ Iff.rfl Iff.rfl
    intro i _
    exact BitVec.getLsbD_and
  · refine aluNoCarry_spec cpu (a ||| b) ?_ Iff.rfl Iff.rfl
    intro i _
    exact BitVec.getLsbD_or
  · refine aluNoCarry_spec cpu (a ^^^ b) ?_ Iff.rfl Iff.rfl
    intro i _
    exact BitVec.getLsbD_xor
  · refine aluNoCarry_spec cpu (~~~a) ?_ Iff.rfl Iff.rfl
    intro i hi
    rw [BitVec.getLsbD_not, decide_eq_true hi, Bool.true_and]

end Switch

/-- Every operation of the ALU means what `AluSpec` says. -/
theorem aluExecute_spec {o : Opcode} (ho : o ∈ aluOps) (cpu : CPU) (a b : Word) :
    AluSpec o a b cpu (aluExecute cpu o.code a b) := by
  simp only [aluOps, List.mem_cons, List.not_mem_nil, or_false] at ho
  rcases ho with h | h | h | h | h | h | h | h | rfl | rfl
  · exact add_spec cpu a b (.inl h)
  · exact add_spec cpu a b (.inr h)
  · exact sub_spec cpu a b (.inl h)
  · exact sub_spec cpu a b (.inr h)
  · exact bitwise_spec cpu a b (.inl h)
  · exact bitwise_spec cpu a b (.inr (.inl h))
  · exact bitwise_spec cpu a b (.inr (.inr (.inl h)))
  · exact bitwise_spec cpu a b (.inr (.inr (.inr h)))
  · exact shl_spec cpu a b
  · exact shr_spec cpu a b

/-! ## Nothing is left open

A specification that a second result also met would say less than it seems to. The result is
determined by `ResultIs`, the flags by their four bits and the bits outside the masks, and the rest
of the CPU by the frame. -/

theorem ResultIs.unique {o : Opcode} {a b r r' : Word} (h : ResultIs o a b r)
    (h' : ResultIs o a b r') : r = r' := by
  cases o
  case add | addi | shl | shr => exact BitVec.eq_of_toNat_eq (h.trans h'.symm)
  case sub | cmp => exact BitVec.eq_of_toNat_eq (Int.ofNat.inj (h.trans h'.symm))
  case and | or | xor | not =>
    exact BitVec.eq_of_getLsbD_eq fun i hi => (h i hi).trans (h' i hi).symm
  case lw | sw | mov | jmp | jeq | jne | jlt | jgt | call | ret | halt => exact h.elim

/-- A flag register is its four flags and its other bits. -/
theorem flags_ext {cpu cpu' : CPU} (hz : cpu.flag flagZf = cpu'.flag flagZf)
    (hn : cpu.flag flagNf = cpu'.flag flagNf) (hc : cpu.flag flagCf = cpu'.flag flagCf)
    (ho : cpu.flag flagOf = cpu'.flag flagOf)
    (hothers : cpu.flags &&& 0xF0 = cpu'.flags &&& 0xF0) : cpu.flags = cpu'.flags := by
  have hsplit : ∀ f : Byte, f = (f &&& 0xF0) ||| (if f &&& flagZf ≠ 0 then flagZf else 0) |||
      (if f &&& flagNf ≠ 0 then flagNf else 0) ||| (if f &&& flagCf ≠ 0 then flagCf else 0) |||
      (if f &&& flagOf ≠ 0 then flagOf else 0) := by decide
  simp only [CPU.flag, decide_eq_decide] at hz hn hc ho
  rw [hsplit cpu.flags, hsplit cpu'.flags, hothers]
  simp only [hz, hn, hc, ho]

/-- `AluSpec` determines the result and the whole CPU. -/
theorem AluSpec.unique {o : Opcode} {a b : Word} {cpu : CPU} {out out' : Word × CPU}
    (h : AluSpec o a b cpu out) (h' : AluSpec o a b cpu out') : out = out' := by
  have hresult := h.result.unique h'.result
  have hflags : out.2.flags = out'.2.flags := by
    refine flags_ext (Bool.eq_iff_iff.mpr ?_) (Bool.eq_iff_iff.mpr ?_) (Bool.eq_iff_iff.mpr ?_)
      (Bool.eq_iff_iff.mpr ?_) (h.others.trans h'.others.symm)
    · rw [h.zf, h'.zf, hresult]
    · rw [h.nf, h'.nf, hresult]
    · rw [h.cf, h'.cf]
    · rw [h.overflow, h'.overflow]
  refine Prod.ext hresult ?_
  rw [h.frame, h'.frame, hflags]

/-- **The ALU matches its arithmetic meaning**, whatever the flags before, and there is nothing else
it could do that does. From left to right this is `AluSpec.unique`, from right to left
`aluExecute_spec`, one case for each way out of the `switch`. -/
theorem alu_matches_arithmetic (o : Opcode) (ho : o ∈ aluOps) (cpu : CPU) (a b : Word)
    (out : Word × CPU) : AluSpec o a b cpu out ↔ out = aluExecute cpu o.code a b := by
  constructor
  · exact fun h => h.unique (aluExecute_spec ho cpu a b)
  · rintro rfl
    exact aluExecute_spec ho cpu a b

/-- A shift by 17 is a shift by one: the top bit goes to CF, and the OF set before is cleared. -/
theorem alu_matches_arithmetic_shl :
    AluSpec .shl 0x8001 17 ⟨fun _ => 0, 0, 0, 0x08, 0, false⟩
      (0x0002, ⟨fun _ => 0, 0, 0, 0x04, 0, false⟩) :=
  (alu_matches_arithmetic .shl (by decide) ⟨fun _ => 0, 0, 0, 0x08, 0, false⟩ 0x8001 17 _).mpr rfl

end Proof
end EduCpu16
