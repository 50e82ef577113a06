import EduCpu16.Lib.CountedRun
import EduCpu16.Proof.Observe

/-!
# The machine a program sees

What a program that reads no device can tell of the emulator: the registers, `pc`, two of the flags,
the memory, what has been printed and whether it runs. `Core.step` is one instruction on that, with
the results as operations on words and no flag byte, `ir`, cycle counter or 32-bit intermediate.

The emulator does what it says for as long as the program reads no device (`core_cpuStep`,
`core_of_leads`), by the ALU's specification and the frame of a step. The programs under
`src/programs` are then followed on cores: straight code is run as one block (`leads_block`), a load
and a jump are a step each, and a loop is an induction on its rounds with the rules of the library
(`Leads`).
-/

namespace EduCpu16
namespace Proof

open CLib BitFields CountedRun

/-- CF and OF are left out because no instruction reads them, and the devices because `NoDevice`
keeps the program away from them; so a step of the core is a function of the core. -/
@[ext]
structure Core where
  regs : Fin 8 → Word
  pc : Word
  zf : Bool
  nf : Bool
  mem : Word → Word
  stdout : Bytes
  halted : Bool

/-- What is seen of a machine. -/
def core (m : Machine) : Core where
  regs := m.cpu.regs
  pc := m.cpu.pc
  zf := m.cpu.flag flagZf
  nf := m.cpu.flag flagNf
  mem := m.bus.mem
  stdout := m.bus.stdout
  halted := m.cpu.halted

namespace Core

/-! ## Instructions

One definition for each way an instruction ends: with a result and its flags, with flags only, with
a load, a store or a jump. `exec` says which opcode does which. -/

/-- The flags of a result. -/
def test (c : Core) (r : Word) : Core := { c with zf := r = 0, nf := r.toInt < 0 }

/-- A result with its flags. -/
def result (c : Core) (d : Fin 8) (r : Word) : Core :=
  { c.test r with regs := Function.update c.regs d r }

def load (c : Core) (d : Fin 8) (addr : Word) : Core :=
  { c with regs := Function.update c.regs d (c.mem addr) }

def store (c : Core) (addr val : Word) : Core :=
  { c with
    mem := fun a => if a = addr ∧ a < ioBase then val else c.mem a
    stdout := c.stdout ++ if addr = ioStdout then [val.setWidth 8] else [] }

def jump (c : Core) (taken : Bool) (off : Word) : Core :=
  if taken then { c with pc := c.pc + off } else c

section Fields

variable (c : Core) (d : Fin 8) (r addr val off : Word) (taken : Bool)

@[simp] theorem test_regs : (c.test r).regs = c.regs := rfl
@[simp] theorem test_pc : (c.test r).pc = c.pc := rfl
@[simp] theorem test_zf : (c.test r).zf = decide (r = 0) := rfl
@[simp] theorem test_mem : (c.test r).mem = c.mem := rfl
@[simp] theorem test_stdout : (c.test r).stdout = c.stdout := rfl
@[simp] theorem test_halted : (c.test r).halted = c.halted := rfl

@[simp] theorem result_regs : (c.result d r).regs = Function.update c.regs d r := rfl
@[simp] theorem result_pc : (c.result d r).pc = c.pc := rfl
@[simp] theorem result_mem : (c.result d r).mem = c.mem := rfl
@[simp] theorem result_stdout : (c.result d r).stdout = c.stdout := rfl
@[simp] theorem result_halted : (c.result d r).halted = c.halted := rfl

@[simp] theorem load_regs : (c.load d addr).regs = Function.update c.regs d (c.mem addr) := rfl
@[simp] theorem load_pc : (c.load d addr).pc = c.pc := rfl
@[simp] theorem load_mem : (c.load d addr).mem = c.mem := rfl
@[simp] theorem load_stdout : (c.load d addr).stdout = c.stdout := rfl
@[simp] theorem load_halted : (c.load d addr).halted = c.halted := rfl

@[simp] theorem jump_pc : (c.jump taken off).pc = if taken then c.pc + off else c.pc := by
  cases taken with
  | true => rfl
  | false => rfl

@[simp] theorem jump_regs : (c.jump taken off).regs = c.regs := by
  cases taken with
  | true => rfl
  | false => rfl

@[simp] theorem jump_mem : (c.jump taken off).mem = c.mem := by
  cases taken with
  | true => rfl
  | false => rfl

@[simp] theorem jump_stdout : (c.jump taken off).stdout = c.stdout := by
  cases taken with
  | true => rfl
  | false => rfl

@[simp] theorem jump_halted : (c.jump taken off).halted = c.halted := by
  cases taken with
  | true => rfl
  | false => rfl

/-- A store to the port prints. -/
theorem store_port : c.store ioStdout val = { c with stdout := c.stdout ++ [val.setWidth 8] } := by
  refine Core.ext rfl rfl rfl rfl (funext fun a => if_neg ?_) ?_ rfl
  · rintro ⟨rfl, hlt⟩
    exact absurd hlt (by decide)
  · exact congrArg (c.stdout ++ ·) (if_pos rfl)

/-- A store below the page goes to memory. -/
theorem store_memory (h : addr < ioBase) :
    c.store addr val = { c with mem := Function.update c.mem addr val } := by
  refine Core.ext rfl rfl rfl rfl (funext fun a => ?_) ?_ rfl
  · by_cases ha : a = addr
    · subst ha
      exact (if_pos ⟨rfl, h⟩).trans (Function.update_self a val c.mem).symm
    · exact (if_neg fun hboth => ha hboth.1).trans (Function.update_of_ne ha val c.mem).symm
  · have hne : addr ≠ ioStdout := by
      rintro rfl
      exact absurd h (by decide)
    exact (congrArg (c.stdout ++ ·) (if_neg hne)).trans (List.append_nil _)

end Fields

/-- The instruction of a word, past which `c` has been moved. -/
def exec (w : Word) (c : Core) : Core :=
  let a := c.regs (rs1Of w)
  let b := c.regs (rs2Of w)
  let imm := instrImm5 w
  match opcodeOf w with
  | some .add => c.result (rdOf w) (a + b)
  | some .sub => c.result (rdOf w) (a - b)
  | some .and => c.result (rdOf w) (a &&& b)
  | some .or => c.result (rdOf w) (a ||| b)
  | some .xor => c.result (rdOf w) (a ^^^ b)
  | some .not => c.result (rdOf w) (~~~a)
  | some .shl => c.result (rdOf w) (a <<< (b.toNat % 16))
  | some .shr => c.result (rdOf w) (a >>> (b.toNat % 16))
  | some .addi => c.result (rdOf w) (a + imm)
  | some .mov => c.result (rdOf w) imm
  | some .cmp => c.test (a - b)
  | some .lw => c.load (rdOf w) (a + imm)
  | some .sw => c.store (a + imm) (c.regs (rdOf w))
  | some .jmp => c.jump true (instrOffset w)
  | some .jeq => c.jump c.zf (instrOffset w)
  | some .jne => c.jump (!c.zf) (instrOffset w)
  | some .jlt => c.jump c.nf (instrOffset w)
  | some .jgt => c.jump (!c.zf && !c.nf) (instrOffset w)
  | some .call =>
      { (c.store (c.regs 7) c.pc).jump true (instrOffset w) with
        regs := Function.update c.regs 7 (c.regs 7 - 1) }
  | some .ret =>
      { c with regs := Function.update c.regs 7 (c.regs 7 + 1), pc := c.mem (c.regs 7 + 1) }
  | some .halt | none => { c with halted := true }

def next (c : Core) : Core := { c with pc := c.pc + 1 }

@[simp] theorem next_regs (c : Core) : c.next.regs = c.regs := rfl
@[simp] theorem next_pc (c : Core) : c.next.pc = c.pc + 1 := rfl
@[simp] theorem next_zf (c : Core) : c.next.zf = c.zf := rfl
@[simp] theorem next_mem (c : Core) : c.next.mem = c.mem := rfl
@[simp] theorem next_stdout (c : Core) : c.next.stdout = c.stdout := rfl
@[simp] theorem next_halted (c : Core) : c.next.halted = c.halted := rfl

def step (c : Core) : Core := if c.halted then c else exec (c.mem c.pc) c.next

/-- The address the instruction of a word loads from. -/
def loadFrom (w : Word) (regs : Fin 8 → Word) : Option Word :=
  match opcodeOf w with
  | some .lw => some (regs (rs1Of w) + instrImm5 w)
  | some .ret => some (regs 7 + 1)
  | _ => none

/-- The next step executes an instruction and reads no device. The instruction itself is fetched
through the bus like any word, so `pc` must be below the device page as well. Stores are not
restricted: one to the output port is what printing is. -/
structure NoDevice (c : Core) : Prop where
  running : c.halted = false
  pc : c.pc < ioBase
  load : ∀ a, loadFrom (c.mem c.pc) c.regs = some a → a < ioBase

end Core

/-! ## The emulator

The results of the ALU are taken from its specification, and the rest of a step is read off the
`switch`. A store may go to a port, so it may print; a load must not read one. -/

/-- The result of an operation, as an operation on words. -/
def wordResult (o : Opcode) (a b : Word) : Word :=
  match o with
  | .add | .addi => a + b
  | .sub | .cmp => a - b
  | .and => a &&& b
  | .or => a ||| b
  | .xor => a ^^^ b
  | .not => ~~~a
  | .shl => a <<< (b.toNat % 16)
  | .shr => a >>> (b.toNat % 16)
  | _ => a

theorem eq_wordResult {o : Opcode} (ho : o ∈ aluOps) {a b r : Word} (h : ResultIs o a b r) :
    r = wordResult o a b := by
  cases o
  case add | addi => exact BitVec.eq_of_toNat_eq (h.trans (BitVec.toNat_add a b).symm)
  case sub | cmp =>
    have ha := a.isLt
    have hb := b.isLt
    have hr : (r.toNat : Int) = ((a.toNat : Int) - b.toNat) % 2 ^ 16 := h
    apply BitVec.eq_of_toNat_eq
    rw [wordResult, BitVec.toNat_sub]
    omega
  case and | or | xor | not =>
    apply BitVec.eq_of_getLsbD_eq
    intro i hi
    rw [h i hi]
    simp [wordResult, hi]
  case shl =>
    apply BitVec.eq_of_toNat_eq
    rw [wordResult, BitVec.toNat_shiftLeft, Nat.shiftLeft_eq]
    exact h
  case shr =>
    apply BitVec.eq_of_toNat_eq
    rw [wordResult, BitVec.toNat_ushiftRight, Nat.shiftRight_eq_div_pow]
    exact h
  case lw | sw | mov | jmp | jeq | jne | jlt | jgt | call | ret | halt =>
    exact absurd ho (by decide)

section Alu

variable {o : Opcode} (ho : o ∈ aluOps) (m : Machine) (a b : Word)
include ho

theorem core_test : core { m with cpu := (aluExecute m.cpu o.code a b).2 } =
    (core m).test (wordResult o a b) := by
  have hspec := aluExecute_spec ho m.cpu a b
  have hr := eq_wordResult ho hspec.result
  refine Core.ext ?_ ?_ ?_ ?_ rfl rfl ?_
  · exact aluExecute_regs _ _ _ _
  · exact aluExecute_pc _ _ _ _
  · rw [← hr]
    exact Bool.eq_iff_iff.mpr (hspec.zf.trans (decide_eq_true_iff).symm)
  · rw [← hr]
    exact Bool.eq_iff_iff.mpr (hspec.nf.trans (decide_eq_true_iff).symm)
  · exact aluExecute_halted _ _ _ _

theorem core_result (d : Fin 8) : core { m with
      cpu := (aluExecute m.cpu o.code a b).2.setReg d (aluExecute m.cpu o.code a b).1 } =
    (core m).result d (wordResult o a b) := by
  have htest := core_test ho m a b
  have hr := eq_wordResult ho (aluExecute_spec ho m.cpu a b).result
  rw [Core.result, ← htest, ← hr]
  refine Core.ext ?_ rfl rfl rfl rfl rfl rfl
  exact congrArg (fun regs => Function.update regs d _) (aluExecute_regs _ _ _ _)

end Alu

theorem core_memWrite (m : Machine) (addr val : Word) :
    core { m with bus := memWrite m.bus addr val } = (core m).store addr val :=
  Core.ext rfl rfl rfl rfl (funext fun a => memWrite_mem m.bus addr val a)
    (memWrite_stdout m.bus addr val) rfl

theorem core_jump (m : Machine) (taken : Bool) (off : Word) :
    core (m.jump taken off) = (core m).jump taken off := by
  cases taken with
  | true => rfl
  | false => rfl

/-- EXECUTE, when it reads no device. -/
theorem core_execute {w : Word} {o : Opcode} (hop : opcodeOf w = some o) {m : Machine}
    (hload : ∀ a, Core.loadFrom w m.cpu.regs = some a → a < ioBase) :
    core (execute o.code (rdOf w) (rs1Of w) (rs2Of w) (instrImm5 w) (instrOffset w) m) =
      (core m).exec w := by
  cases o
  case add | sub | and | or | xor | shl | shr | not | addi =>
    simp only [execute, Opcode.ofCode?_code, Core.exec, hop]
    exact core_result (by decide) m _ _ _
  -- The code adds the immediate to 0, where `exec` has the immediate itself.
  case mov =>
    simp only [execute, Opcode.ofCode?_code, Core.exec, hop]
    rw [core_result (by decide) m _ _ _, wordResult]
    exact congrArg _ (BitVec.zero_add _)
  case cmp =>
    simp only [execute, Opcode.ofCode?_code, Core.exec, hop]
    exact core_test (by decide) m _ _
  case lw =>
    have hlt : m.cpu.regs (rs1Of w) + instrImm5 w < ioBase :=
      hload _ (by simp only [Core.loadFrom, hop])
    simp only [execute, Opcode.ofCode?_code, Core.exec, hop, memRead_of_lt hlt]
    rfl
  case sw =>
    simp only [execute, Opcode.ofCode?_code, Core.exec, hop]
    exact core_memWrite m _ _
  case jmp | jeq | jne | jlt | jgt =>
    simp only [execute, Opcode.ofCode?_code, Core.exec, hop]
    exact core_jump m _ _
  case call =>
    simp only [execute, Opcode.ofCode?_code, Core.exec, hop]
    -- The push is a store like that of `SW`, and only the registers differ.
    have hstore := core_memWrite m (m.cpu.regs 7) m.cpu.pc
    have hmem : (memWrite m.bus (m.cpu.regs 7) m.cpu.pc).mem = _ := congrArg Core.mem hstore
    have hout : (memWrite m.bus (m.cpu.regs 7) m.cpu.pc).stdout = _ := congrArg Core.stdout hstore
    exact Core.ext rfl rfl rfl rfl hmem hout rfl
  case ret =>
    have hlt : m.cpu.regs 7 + 1 < ioBase := hload _ (by simp only [Core.loadFrom, hop])
    have htop : (m.cpu.setReg 7 (m.cpu.regs 7 + 1)).regs 7 = m.cpu.regs 7 + 1 :=
      Function.update_self (f := m.cpu.regs) 7 _
    simp only [execute, Opcode.ofCode?_code, Core.exec, hop, htop, memRead_of_lt hlt]
    rfl
  case halt =>
    simp only [execute, Opcode.ofCode?_code, Core.exec, hop]
    rfl

/-- **One step of the emulator** that reads no device: the core's step, the input left alone. -/
theorem core_cpuStep {m : Machine} (h : (core m).NoDevice) :
    core (cpuStep m) = (core m).step ∧ (cpuStep m).bus.stdin = m.bus.stdin := by
  have hrun : m.cpu.halted = false := h.running
  have hread : memRead m.bus m.cpu.pc = (m.bus.mem m.cpu.pc, m.bus) := memRead_of_lt h.pc
  have hfetched : fetched m = m.bus.mem m.cpu.pc := congrArg Prod.fst hread
  have hbus : (fetch m).bus = m.bus := congrArg Prod.snd hread
  have hnext : core (fetch m) = (core m).next :=
    Core.ext rfl rfl rfl rfl (congrArg Bus.mem hbus) (congrArg Bus.stdout hbus) rfl
  refine ⟨?_, ?_⟩
  · rw [Core.step, if_neg (by rw [h.running]; decide), ← hnext]
    have hword : (core m).mem (core m).pc = fetched m := hfetched.symm
    rw [hword]
    cases hop : opcodeOf (fetched m) with
    | none =>
      obtain ⟨hcpu, hmem, hout⟩ := cpuStep_of_unassigned hrun hop
      simp only [Core.exec, hop]
      rw [core, core, hcpu, hmem, hout, hbus]
      rfl
    | some o =>
      rw [cpuStep_of_opcode hrun hop]
      refine core_execute hop fun a ha => h.load a ?_
      rw [hword]
      exact ha
  · rw [cpuStep_stdin, if_neg]
    intro hmem
    rw [readAddrs, hrun, if_neg Bool.false_ne_true, List.mem_cons, Option.mem_toList] at hmem
    rcases hmem with hpc | hload
    · exact absurd (hpc ▸ h.pc : ioStdin < ioBase) (by decide)
    · rw [loadOf, hfetched] at hload
      exact absurd (h.load ioStdin hload) (by decide)

/-- A machine and the core seen of it, with an input that is left alone. -/
structure Seen (input : Bytes) (c : Core) (m : Machine) : Prop where
  core : core m = c
  stdin : m.bus.stdin = input

/-- **A run of the emulator**, along a run of cores that reads no device. -/
theorem core_of_leads {n : Nat} {m : Machine} {c : Core}
    (h : Leads Core.step Core.NoDevice n (core m) c) :
    core (cpuStep^[n] m) = c ∧ (cpuStep^[n] m).bus.stdin = m.bus.stdin := by
  have hseen : Seen m.bus.stdin c (cpuStep^[n] m) := by
    refine h.simulate (R := Seen m.bus.stdin) ?_ ⟨rfl, rfl⟩
    rintro _ m' ⟨rfl, hin⟩ hno
    obtain ⟨hstep, hin'⟩ := core_cpuStep hno
    exact ⟨hstep, hin'.trans hin⟩
  exact ⟨hseen.core, hseen.stdin⟩

/-- And the CPU is running in all states on the way. -/
theorem running_of_leads {n : Nat} {m : Machine} {c : Core}
    (h : Leads Core.step Core.NoDevice n (core m) c) :
    ∀ k < n, (cpuStep^[k] m).cpu.halted = false := by
  intro k hk
  have hpart : Leads Core.step Core.NoDevice k (core m) (Core.step^[k] (core m)) :=
    ⟨fun j hj => h.allowed j (Nat.lt_trans hj hk), rfl⟩
  have hcore := (core_of_leads hpart).1
  exact (congrArg Core.halted hcore).trans (h.allowed k hk).running

theorem machineAt_plain (m₀ : Machine) (n : Nat) : machineAt .plain m₀ n = cpuStep^[n] m₀ := by
  induction n with
  | zero => rfl
  | succ n ih => rw [machineAt_plain_succ, ih, Function.iterate_succ_apply']

/-! ## Straight code

Code without jumps, loads or stores changes registers and flags and moves past itself, whatever the
words are (`block_frame`). What it leaves in the registers is computed by unfolding `block` at the
words of the program. -/

/-- The words are in memory from `a` on. As `a` is a number, that code does not run over the end of
memory is a bound on `a` and the length. -/
def CodeAt (mem : Word → Word) (a : Nat) (ws : List Word) : Prop :=
  ∀ i w, ws[i]? = some w → mem (BitVec.ofNat 16 (a + i)) = w

theorem CodeAt.slice {mem : Word → Word} {a : Nat} {ws : List Word} (h : CodeAt mem a ws)
    (k n : Nat) : CodeAt mem (a + k) ((ws.drop k).take n) := by
  intro i w hi
  rw [List.getElem?_take] at hi
  split at hi
  · rw [List.getElem?_drop] at hi
    rw [Nat.add_assoc]
    exact h (k + i) w hi
  · cases hi

/-- An instruction on registers and flags only. -/
def straight (w : Word) : Bool :=
  match opcodeOf w with
  | some .add | some .sub | some .and | some .or | some .xor | some .not | some .shl
  | some .shr | some .addi | some .mov | some .cmp => true
  | _ => false

theorem Core.result_straight (c : Core) (d : Fin 8) (r : Word) :
    ∃ regs zf nf, c.result d r = { c with regs := regs, zf := zf, nf := nf } :=
  ⟨_, _, _, rfl⟩

theorem Core.exec_straight {w : Word} (h : straight w = true) (c : Core) :
    ∃ regs zf nf, c.exec w = { c with regs := regs, zf := zf, nf := nf } := by
  unfold straight at h
  unfold Core.exec
  cases hop : opcodeOf w with
  | none =>
    rw [hop] at h
    cases h
  | some o =>
    rw [hop] at h
    cases o
    case add | sub | and | or | xor | not | shl | shr | addi | mov => exact result_straight c _ _
    case cmp => exact ⟨c.regs, _, _, rfl⟩
    case lw | sw | jmp | jeq | jne | jlt | jgt | call | ret | halt => cases h

/-- An instruction that loads from memory. -/
def loads (w : Word) : Bool :=
  match opcodeOf w with
  | some .lw | some .ret => true
  | _ => false

theorem Core.loadFrom_of_not_loads {w : Word} (h : loads w = false) (regs : Fin 8 → Word) :
    Core.loadFrom w regs = none := by
  unfold loads at h
  unfold Core.loadFrom
  split
  · rename_i hop
    rw [hop] at h
    cases h
  · rename_i hop
    rw [hop] at h
    cases h
  · rfl

theorem not_loads_of_straight {w : Word} (h : straight w = true) : loads w = false := by
  unfold straight at h
  unfold loads
  split
  · rename_i hop
    rw [hop] at h
    cases h
  · rename_i hop
    rw [hop] at h
    cases h
  · rfl

namespace Core

/-- What straight code does. -/
def block (ws : List Word) (c : Core) : Core := ws.foldl (fun c w => c.next.exec w) c

/-- Straight code changes registers and flags, and moves past itself. -/
theorem block_frame {ws : List Word} (hws : ws.all straight = true) (c : Core) :
    (block ws c).mem = c.mem ∧ (block ws c).stdout = c.stdout ∧
    (block ws c).halted = c.halted ∧ (block ws c).pc = c.pc + BitVec.ofNat 16 ws.length := by
  induction ws generalizing c with
  | nil => exact ⟨rfl, rfl, rfl, (BitVec.add_zero _).symm⟩
  | cons w ws ih =>
    rw [List.all_cons, Bool.and_eq_true] at hws
    obtain ⟨regs, zf, nf, hexec⟩ := exec_straight hws.1 c.next
    obtain ⟨hmem, hout, hrun, hpc⟩ := ih hws.2 (c.next.exec w)
    rw [hexec] at hmem hout hrun hpc
    have hblock : block (w :: ws) c = block ws (c.next.exec w) := rfl
    rw [hblock, hexec, hmem, hout, hrun, hpc]
    refine ⟨rfl, rfl, rfl, ?_⟩
    show c.pc + 1 + BitVec.ofNat 16 ws.length = c.pc + BitVec.ofNat 16 (ws.length + 1)
    rw [BitVec.add_assoc, Nat.add_comm ws.length, BitVec.ofNat_add]
    rfl

/-- One instruction, of which a load reads no device. -/
theorem leads_load {c : Core} {w : Word} (hrun : c.halted = false) (hpc : c.pc < ioBase)
    (hw : c.mem c.pc = w) (hload : ∀ a, loadFrom w c.regs = some a → a < ioBase) :
    Leads step NoDevice 1 c (c.next.exec w) := by
  have hstep : c.step = c.next.exec w := by
    rw [step, if_neg (by rw [hrun]; decide), hw]
  rw [← hstep]
  exact Leads.step ⟨hrun, hpc, hw.symm ▸ hload⟩

theorem leads_step {c : Core} {w : Word} (hrun : c.halted = false) (hpc : c.pc < ioBase)
    (hw : c.mem c.pc = w) (hno : loads w = false) : Leads step NoDevice 1 c (c.next.exec w) := by
  apply leads_load hrun hpc hw
  intro a ha
  rw [loadFrom_of_not_loads hno] at ha
  cases ha

/-- **Straight code** takes a step for each word. -/
theorem leads_block {ws : List Word} (hws : ws.all straight = true) {c : Core} {a : Nat}
    (hrun : c.halted = false) (hpc : c.pc = BitVec.ofNat 16 a) (hend : a + ws.length ≤ 0xFF00)
    (hcode : CodeAt c.mem a ws) : Leads step NoDevice ws.length c (block ws c) := by
  induction ws generalizing c a with
  | nil => exact Leads.refl c
  | cons w ws ih =>
    rw [List.all_cons, Bool.and_eq_true] at hws
    rw [List.length_cons] at hend
    obtain ⟨regs, zf, nf, hexec⟩ := exec_straight hws.1 c.next
    have hlt : c.pc < ioBase := by
      rw [hpc, BitVec.lt_def, toNat_ofNat_of_lt (by omega)]
      exact Nat.lt_of_lt_of_le (by omega) hend
    have hword : c.mem c.pc = w := hpc ▸ hcode 0 w rfl
    have hfirst := leads_step hrun hlt hword (not_loads_of_straight hws.1)
    have hrest : Leads step NoDevice ws.length (c.next.exec w) (block ws (c.next.exec w)) := by
      rw [hexec]
      refine ih (a := a + 1) hws.2 hrun ?_ (by omega) ?_
      · show c.pc + 1 = BitVec.ofNat 16 (a + 1)
        rw [hpc, BitVec.ofNat_add]
        rfl
      · intro i v hi
        rw [Nat.add_assoc, Nat.add_comm 1]
        exact hcode (i + 1) v hi
    rw [List.length_cons, Nat.add_comm]
    exact hfirst.trans hrest

end Core

end Proof
end EduCpu16
