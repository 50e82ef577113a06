import EduCpu16.Emulator.Main
import EduCpu16.Lib.BitFields
import EduCpu16.Lib.Nesting
import EduCpu16.Proof.Step

/-!
# The stack discipline of CALL and RET

`event` reads a step of a run as a call, a return or something else, and the open calls of the run
are those of `Lib/Nesting.lean`. The invariant (`Framed`) is that R7 is the initial stack pointer
minus the number of open calls and that the slot each open call pushed to still holds its return
address. A push goes to the slot just below those in use, so it disturbs none of them, and a pop
reads the innermost.

The rest of the fragment has to keep its hands off: R7 is changed by nothing else, and no SW goes to
a slot in use. Everything else is free, loops and stores and nested calls included, and nothing is
asked of the code outside the fragment.
-/

namespace EduCpu16
namespace Proof

open CLib BitFields Nesting

/-- What the next step of `m` is to the nesting. -/
def event (m : Machine) : Event :=
  if m.cpu.halted then .other
  else
    match opcodeOf (fetched m) with
    | some .call => .call
    | some .ret => .ret
    | _ => .other

/-- The next step of `m` is a SW to `a`. -/
def StoresTo (m : Machine) (a : Word) : Prop :=
  m.cpu.halted = false ∧ opcodeOf (fetched m) = some .sw ∧
  a = m.cpu.regs (regIx ((instrRs1 (fetched m)).setWidth 8)) + instrImm5 (fetched m)

/-! ## The three kinds of step

What a step of each kind does to R7 and to memory, with the slot it pushes to or pops from. The rest
of the module does not go through the opcodes again. -/

theorem event_eq_call {m : Machine} (h : event m = .call) :
    m.cpu.halted = false ∧ opcodeOf (fetched m) = some .call := by
  unfold event at h
  split at h
  · cases h
  · rename_i hh
    split at h
    · exact ⟨Bool.eq_false_iff.mpr hh, by assumption⟩
    · cases h
    · cases h

theorem event_eq_ret {m : Machine} (h : event m = .ret) :
    m.cpu.halted = false ∧ opcodeOf (fetched m) = some .ret := by
  unfold event at h
  split at h
  · cases h
  · rename_i hh
    split at h
    · cases h
    · exact ⟨Bool.eq_false_iff.mpr hh, by assumption⟩
    · cases h

/-- CALL pushes the address of the next instruction, then lowers R7. -/
theorem cpuStep_call {m : Machine} (h : event m = .call) :
    (cpuStep m).cpu.regs 7 = m.cpu.regs 7 - 1 ∧
    (cpuStep m).bus = memWrite (fetch m).bus (m.cpu.regs 7) (m.cpu.pc + 1) := by
  obtain ⟨hh, hop⟩ := event_eq_call h
  have hop' : Opcode.ofCode? ((instrOpcode (fetch m).cpu.ir).setWidth 8) = some .call := hop
  rw [cpuStep_running hh, decodeExecute]
  simp only [execute, hop', CPU.setReg_regs, Function.update_self]
  exact ⟨rfl, rfl⟩

/-- RET raises R7, then continues at the address it finds there. -/
theorem cpuStep_ret {m : Machine} (h : event m = .ret) :
    (cpuStep m).cpu.regs 7 = m.cpu.regs 7 + 1 ∧
    (cpuStep m).cpu.pc = (memRead (fetch m).bus (m.cpu.regs 7 + 1)).1 ∧
    (cpuStep m).bus = (memRead (fetch m).bus (m.cpu.regs 7 + 1)).2 := by
  obtain ⟨hh, hop⟩ := event_eq_ret h
  have hop' : Opcode.ofCode? ((instrOpcode (fetch m).cpu.ir).setWidth 8) = some .ret := hop
  rw [cpuStep_running hh, decodeExecute]
  simp only [execute, hop', CPU.setReg_regs, Function.update_self]
  exact ⟨rfl, rfl, rfl⟩

/-- Any other step changes memory only where it is a SW. -/
theorem cpuStep_other_mem {m : Machine} (h : event m = .other) {a : Word}
    (ha : ¬ StoresTo m a) : (cpuStep m).bus.mem a = m.bus.mem a := by
  cases hh : m.cpu.halted with
  | true => rw [cpuStep_halted hh]
  | false =>
    have hop : (opcodeOf (fetched m)) ≠ some .call := by
      intro hcall
      simp [event, hh, hcall] at h
    rw [cpuStep_running hh, decodeExecute, execute_mem]
    split
    case h_1 hsw =>
      rw [memWrite_mem, if_neg fun hw => ha ⟨hh, hsw, hw.1⟩, fetch_mem]
    case h_2 hcall => exact absurd hcall hop
    case h_3 => rw [fetch_mem]

/-! ## The slots of the open calls

`Framed` is the invariant, and each kind of step keeps it: a CALL opens a slot, a RET closes the
innermost one, and any other step leaves R7 and the slots alone. -/

/-- Each open call's slot holds the address after the call. The slots lie from `s` down, the
outermost call's first, so the recursion on the list of open calls goes from the innermost out. -/
def Saved (pc : Nat → Word) (s : Nat) (mem : Word → Word) : List Nat → Prop
  | [] => True
  | j :: st => mem (BitVec.ofNat 16 (s - st.length)) = pc j + 1 ∧ Saved pc s mem st

/-- Only the slots in use matter. -/
theorem Saved.congr {pc : Nat → Word} {s : Nat} {mem mem' : Word → Word} (hs : s < 65536) :
    ∀ {st : List Nat}, Saved pc s mem st → st.length ≤ s →
      (∀ a : Word, s - st.length < a.toNat → a.toNat ≤ s → mem' a = mem a) →
      Saved pc s mem' st
  | [], _, _, _ => trivial
  | j :: st, ⟨hslot, hrest⟩, hlen, hmem => by
    rw [List.length_cons] at hlen hmem
    have hnat : (BitVec.ofNat 16 (s - st.length)).toNat = s - st.length :=
      toNat_ofNat_of_lt (by omega)
    refine ⟨?_, Saved.congr hs hrest (by omega) fun a hlo hhi => hmem a (by omega) hhi⟩
    rw [hmem _ (by omega) (by omega), hslot]

/-- The invariant of a run from stack pointer `s`. R7 is given by an equation between numbers, in
which no subtraction wraps because the fragment is at most `s` deep. -/
structure Framed (pc : Nat → Word) (s : Nat) (m : Machine) (st : List Nat) : Prop where
  sp : (m.cpu.regs 7).toNat + st.length = s
  saved : Saved pc s m.bus.mem st

section Framed

variable {pc : Nat → Word} {s : Nat} {m : Machine} {st : List Nat}

/-- R7 is the slot just below those in use. -/
theorem Framed.sp_eq (hf : Framed pc s m st) (hs : s < ioBase.toNat) :
    m.cpu.regs 7 = BitVec.ofNat 16 (s - st.length) := by
  have hio : ioBase.toNat = 65280 := rfl
  have hsp := hf.sp
  apply BitVec.eq_of_toNat_eq
  rw [BitVec.toNat_ofNat]
  omega

/-- It is plain memory. -/
theorem Framed.sp_lt (hf : Framed pc s m st) (hs : s < ioBase.toNat) :
    m.cpu.regs 7 < ioBase := by
  have hsp := hf.sp
  apply BitVec.lt_def.mpr
  omega

/-- A CALL pushes to a slot below every slot in use. -/
theorem Framed.call (hf : Framed pc s m st) (hs : s < ioBase.toNat) (hlen : st.length < s)
    (he : event m = .call) {i : Nat} (hpc : pc i = m.cpu.pc) :
    Framed pc s (cpuStep m) (i :: st) := by
  obtain ⟨hsp, hbus⟩ := cpuStep_call he
  have hio : ioBase.toNat = 65280 := rfl
  have hR := hf.sp
  have hmem : (cpuStep m).bus.mem =
      Function.update m.bus.mem (m.cpu.regs 7) (m.cpu.pc + 1) := by
    rw [hbus, memWrite_of_lt (hf.sp_lt hs), fetch_mem]
  refine ⟨?_, ?_, ?_⟩
  · rw [hsp, List.length_cons, BitVec.toNat_sub, show (1 : Word).toNat = 1 from rfl]
    omega
  · -- the new frame
    rw [hmem, hpc, ← hf.sp_eq hs, Function.update_self]
  · -- the older ones, all above the slot pushed to
    apply hf.saved.congr (by omega) (by omega)
    intro a hlo _
    have hne : a ≠ m.cpu.regs 7 := by
      rintro rfl
      omega
    rw [hmem, Function.update_of_ne hne]

/-- A RET takes the return address of the innermost open call. -/
theorem Framed.ret {j : Nat} (hf : Framed pc s m (j :: st)) (hs : s < ioBase.toNat)
    (he : event m = .ret) :
    Framed pc s (cpuStep m) st ∧ (cpuStep m).cpu.pc = pc j + 1 ∧
    (cpuStep m).bus = (fetch m).bus := by
  obtain ⟨hsp, hpc, hbus⟩ := cpuStep_ret he
  have hio : ioBase.toNat = 65280 := rfl
  have hR := hf.sp
  rw [List.length_cons] at hR
  have hnat : (m.cpu.regs 7 + 1).toNat = (m.cpu.regs 7).toNat + 1 := by
    rw [BitVec.toNat_add, show (1 : Word).toNat = 1 from rfl]
    omega
  have hlt : m.cpu.regs 7 + 1 < ioBase := BitVec.lt_def.mpr (by omega)
  have hslot : m.cpu.regs 7 + 1 = BitVec.ofNat 16 (s - st.length) := by
    apply BitVec.eq_of_toNat_eq
    rw [BitVec.toNat_ofNat]
    omega
  rw [memRead_of_lt hlt, fetch_mem] at hpc
  rw [memRead_of_lt hlt] at hbus
  refine ⟨⟨?_, ?_⟩, ?_, hbus⟩
  · rw [hsp, hnat]
    omega
  · rw [hbus, fetch_mem]
    exact hf.saved.2
  · rw [hpc, hslot]
    exact hf.saved.1

/-- Any other step keeps the frames, if it keeps R7 and does not store into a slot in use. -/
theorem Framed.other (hf : Framed pc s m st) (hs : s < ioBase.toNat) (he : event m = .other)
    (hsp : (cpuStep m).cpu.regs 7 = m.cpu.regs 7)
    (hstore : ∀ a, StoresTo m a → ¬ (m.cpu.regs 7 < a ∧ a.toNat ≤ s)) :
    Framed pc s (cpuStep m) st := by
  have hio : ioBase.toNat = 65280 := rfl
  have hR := hf.sp
  refine ⟨hsp ▸ hf.sp, hf.saved.congr (by omega) (by omega) ?_⟩
  intro a hlo hhi
  have hlt : m.cpu.regs 7 < a := BitVec.lt_def.mpr (by omega)
  exact cpuStep_other_mem he fun hst => hstore a hst ⟨hlt, hhi⟩

end Framed

/-! ## Whole fragments

The three lemmas are put together by induction on the number of steps. The list of open calls is a
ghost: the machine has only R7 and memory, and `event` is read off the run. -/

/-- `n` steps from `m₀` with R7 at `s`, whose CALL and RET are well nested and at most `s` deep,
in which nothing else changes R7 and no SW goes to a slot in use. -/
structure CallFragment (m₀ : Machine) (n : Nat) (s : Word) : Prop where
  start : m₀.cpu.regs 7 = s
  below : s < ioBase
  nested : WellNested (fun i => event (cpuStep^[i] m₀)) n s.toNat
  keeps : ∀ i < n, event (cpuStep^[i] m₀) = .other →
    (cpuStep^[i + 1] m₀).cpu.regs 7 = (cpuStep^[i] m₀).cpu.regs 7
  stores : ∀ i < n, ∀ a, StoresTo (cpuStep^[i] m₀) a →
    ¬ ((cpuStep^[i] m₀).cpu.regs 7 < a ∧ a ≤ s)

/-- The frames are kept throughout the fragment. -/
theorem CallFragment.framed {m₀ : Machine} {n : Nat} {s : Word} (h : CallFragment m₀ n s) :
    ∀ i st, openCalls (fun i => event (cpuStep^[i] m₀)) i = some st → i ≤ n →
      Framed (fun i => (cpuStep^[i] m₀).cpu.pc) s.toNat (cpuStep^[i] m₀) st := by
  have hs : s.toNat < ioBase.toNat := BitVec.lt_def.mp h.below
  refine openCalls_induction ?_ ?_ ?_ ?_
  · intro _
    exact ⟨by rw [Function.iterate_zero, id, h.start]; rfl, trivial⟩
  · intro i st he ho ih hi
    have hnext : openCalls (fun i => event (cpuStep^[i] m₀)) (i + 1) = some (i :: st) := by
      simp [openCalls, ho, he]
    have hdepth := h.nested.depth (i + 1) hi _ hnext
    rw [Function.iterate_succ_apply']
    exact (ih (Nat.le_of_lt hi)).call hs hdepth he rfl
  · intro i j st he _ ih hi
    rw [Function.iterate_succ_apply']
    exact ((ih (Nat.le_of_lt hi)).ret hs he).1
  · intro i st he _ ih hi
    have hkeep := h.keeps i hi he
    rw [Function.iterate_succ_apply'] at hkeep ⊢
    exact (ih (Nat.le_of_lt hi)).other hs he hkeep (h.stores i hi)

/-- The stack of open calls is there throughout the fragment, and never deeper than allowed. -/
theorem CallFragment.openCalls {m₀ : Machine} {n : Nat} {s : Word} (h : CallFragment m₀ n s)
    {i : Nat} (hi : i ≤ n) : ∃ st, openCalls (fun i => event (cpuStep^[i] m₀)) i = some st :=
  Option.isSome_iff_exists.mp (openCalls_isSome_of_le (by rw [h.nested.closed]; rfl) hi)

/-- What a CALL or RET leaves alone: the memory above `s`, the output, and of the input all but what
the instruction fetch read. The fetch is any step's own, and could be from the input port. -/
def Quiet (s : Word) (m : Machine) : Prop :=
  (∀ a, s < a → (cpuStep m).bus.mem a = m.bus.mem a) ∧
  (cpuStep m).bus.stdout = m.bus.stdout ∧
  (cpuStep m).bus.stdin = (fetch m).bus.stdin

theorem CallFragment.quiet {m₀ : Machine} {n : Nat} {s : Word} (h : CallFragment m₀ n s)
    {i : Nat} (hi : i < n)
    (he : event (cpuStep^[i] m₀) = .call ∨ event (cpuStep^[i] m₀) = .ret) :
    Quiet s (cpuStep^[i] m₀) := by
  have hs : s.toNat < ioBase.toNat := BitVec.lt_def.mp h.below
  obtain ⟨st, ho⟩ := h.openCalls (Nat.le_of_lt hi)
  have hf := h.framed i st ho (Nat.le_of_lt hi)
  rcases he with he | he
  · have hR := hf.sp
    have hle : ¬ s < (cpuStep^[i] m₀).cpu.regs 7 := by
      rw [BitVec.lt_def]
      omega
    have hbus := (cpuStep_call he).2
    rw [memWrite_of_lt (hf.sp_lt hs)] at hbus
    refine ⟨?_, ?_, ?_⟩
    · intro a ha
      have hne : a ≠ (cpuStep^[i] m₀).cpu.regs 7 := by
        rintro rfl
        exact hle ha
      rw [hbus, fetch_mem]
      exact Function.update_of_ne hne _ _
    · rw [hbus]
      exact memRead_stdout _ _
    · rw [hbus]
  · obtain ⟨j, rest, hj⟩ := h.nested.matches hi he
    obtain ⟨-, -, hbus⟩ := (h.framed i _ hj (Nat.le_of_lt hi)).ret hs he
    refine ⟨?_, ?_, ?_⟩
    · intro a _
      rw [hbus, fetch_mem]
    · rw [hbus]
      exact memRead_stdout _ _
    · rw [hbus]

/-- **CALL and RET obey the stack discipline.** Throughout a well-nested fragment R7 is its
initial value minus the number of open calls; every RET continues just after the CALL it
matches; at the end R7 is back; and no CALL or RET touches anything but the stack. -/
theorem call_ret_discipline {m₀ : Machine} {n : Nat} {s : Word} (h : CallFragment m₀ n s) :
    let run := fun i => cpuStep^[i] m₀
    let ev := fun i => event (run i)
    (∀ i < n, ev i = .ret → ∃ j < i, ev j = .call ∧ Matches ev j i ∧
      (run (i + 1)).cpu.pc = (run j).cpu.pc + 1) ∧
    (∀ i ≤ n, ∃ st, openCalls ev i = some st ∧
      ((run i).cpu.regs 7).toNat + st.length = s.toNat) ∧
    (run n).cpu.regs 7 = s ∧
    (∀ i < n, ev i = .call ∨ ev i = .ret → Quiet s (run i)) := by
  intro run ev
  have hs : s.toNat < ioBase.toNat := BitVec.lt_def.mp h.below
  refine ⟨?_, ?_, ?_, fun i hi he => h.quiet hi he⟩
  · intro i hi he
    obtain ⟨j, hm⟩ := h.nested.matches hi he
    obtain ⟨hji, hcall⟩ := hm.call
    obtain ⟨rest, hj⟩ := id hm
    obtain ⟨-, hpc, -⟩ := (h.framed i _ hj (Nat.le_of_lt hi)).ret hs he
    have hsucc : run (i + 1) = cpuStep (run i) := Function.iterate_succ_apply' _ _ _
    exact ⟨j, hji, hcall, hm, by rw [hsucc]; exact hpc⟩
  · intro i hi
    obtain ⟨st, ho⟩ := h.openCalls hi
    exact ⟨st, ho, (h.framed i st ho hi).sp⟩
  · have hsp := (h.framed n [] h.nested.closed (Nat.le_refl n)).sp
    exact BitVec.eq_of_toNat_eq hsp

/-- A call within a call: `CALL 3` at 0, `CALL 5` at 3 with `RET` behind it, and at 5 an addition
and `RET`. The inner return continues at 4 and the outer one at 1. -/
theorem call_ret_discipline_nested :
    let mem : Word → Word := fun a =>
      [0x9802, 0xF800, 0, 0x9801, 0xA000, 0x0800, 0xA000].getD a.toNat 0
    let m₀ := bootMachine ⟨fun _ => 0, 0, 0, 0, 0, false⟩ mem [] fun _ => 0
    (cpuStep^[4] m₀).cpu.pc = 4 ∧ (cpuStep^[5] m₀).cpu.pc = 1 ∧
    (cpuStep^[5] m₀).cpu.regs 7 = stackBase ∧
    Quiet stackBase (cpuStep^[1] m₀) ∧ Quiet stackBase (cpuStep^[4] m₀) := by
  intro mem m₀
  have hcall : event (cpuStep^[1] m₀) = .call := by decide +kernel
  have hinner : event (cpuStep^[3] m₀) = .ret := by decide +kernel
  have houter : event (cpuStep^[4] m₀) = .ret := by decide +kernel
  have hop : ∀ i < 5, opcodeOf (fetched (cpuStep^[i] m₀)) ≠ some .sw := by decide +kernel
  have hfragment : CallFragment m₀ 5 stackBase := by
    refine ⟨rfl, by decide, ⟨by decide +kernel, ?_⟩, by decide +kernel, ?_⟩
    · intro i hi st hst
      have hlen : ∀ i ≤ 5, ((openCalls (fun i => event (cpuStep^[i] m₀)) i).getD []).length ≤
          stackBase.toNat := by decide +kernel
      simpa [hst] using hlen i hi
    · intro i hi a hst
      exact absurd hst.2.1 (hop i hi)
  have hend : ∀ {m : Machine} {n : Nat} {s : Word}, CallFragment m n s →
      (cpuStep^[n] m).cpu.regs 7 = s := fun h => (call_ret_discipline h).2.2.1
  obtain ⟨hreturn, -, -, hquiet⟩ := call_ret_discipline hfragment
  -- Which call a return matches is read off the open calls.
  have hback : ∀ i j st, i < 5 → event (cpuStep^[i] m₀) = .ret →
      openCalls (fun i => event (cpuStep^[i] m₀)) i = some (j :: st) →
      (cpuStep^[i + 1] m₀).cpu.pc = (cpuStep^[j] m₀).cpu.pc + 1 := by
    intro i j st hi he hopen
    obtain ⟨j', -, -, ⟨st', hst⟩, hpc⟩ := hreturn i hi he
    obtain ⟨rfl, -⟩ := List.cons.inj (Option.some.inj (hst.symm.trans hopen))
    exact hpc
  have hfrom : (cpuStep^[1] m₀).cpu.pc + 1 = 4 := by decide +kernel
  have hfrom' : (cpuStep^[0] m₀).cpu.pc + 1 = 1 := by decide +kernel
  exact ⟨(hback 3 1 [0] (by decide) hinner (by decide +kernel)).trans hfrom,
    (hback 4 0 [] (by decide) houter (by decide +kernel)).trans hfrom', hend hfragment,
    hquiet 1 (by decide) (.inl hcall), hquiet 4 (by decide) (.inr houter)⟩

end Proof
end EduCpu16
