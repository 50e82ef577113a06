import EduCpu16.Proof.AssemblerRun
import EduCpu16.Proof.Message
import EduCpu16.Proof.Simulation

/-!
# The two commands, one after the other

The file the assembler leaves is the one the emulator opens. What comes out of the second command is
what the source program says (`toolchain_runs`): the assembler writes the image of the source, the
emulator loads it, and the simulation carries the run.

The condition on the run is that of the simulation. A source program that overwrites one of its own
instruction lines goes on as its lines say, since the source machine executes lines; the emulator
executes what is in memory, and may well halt with a message. `HaltsAfter` therefore asks that each
step is `Allowed`, and this is a condition on the program and its input, not on the tools.
-/

namespace EduCpu16
namespace Proof

open CLib CommandLine Source

/-! ## Messages -/

/-- A source program prints no message. -/
theorem step_stderr (prog : Program) (env : Env) (m : Machine) :
    (step prog env m).bus.stderr = m.bus.stderr := by
  unfold Source.step
  split
  · rfl
  · split
    · rfl
    · split
      · rfl
      · rename_i o _
        cases o
        case jmp | jeq | jne | jlt | jgt =>
          simp only [exec, goto]
          split
          · rfl
          · rfl
        case sw | call => exact memWrite_stderr _ _ _
        case lw | ret => exact memRead_stderr _ _
        all_goals rfl

theorem run_stderr (prog : Program) (env : Env) (m : Machine) (n : Nat) :
    ((step prog env)^[n] m).bus.stderr = m.bus.stderr := by
  induction n with
  | zero => rfl
  | succ n ih => rw [Function.iterate_succ_apply', step_stderr, ih]

/-! ## From the source to the output

The source program starts on the image with everything else as the emulator has it, so what it
prints can be compared with what the emulator prints. -/

/-- The emulator's view of the files there are. -/
def openFrom (file : Bytes → Option Bytes) (path : Bytes) : Option BinFile :=
  (file path).map fun content => ⟨content, true, true, true, content.length / 2⟩

/-- The machine a source program starts on. -/
def startOf (opt : AsmOptions) (lines : List Bytes) (host : EmuHost) : Machine :=
  bootOf host (Stores.write (fun _ => 0) (emitted opt lines))

/-- The source program halts after `n` steps, and at each of them executes an instruction line and
stores to none. The first field is what `assembled_runs` asks of a run: no SW and no push of a CALL
hits the address of an instruction line, and the program does not run on into its data. -/
structure HaltsAfter (lines : List Bytes) (m : Machine) (n : Nat) : Prop where
  allowed : ∀ k < n, Allowed (sourceProgram lines) (sourceEnv lines)
    ((step (sourceProgram lines) (sourceEnv lines))^[k] m)
  running : ∀ k < n, ((step (sourceProgram lines) (sourceEnv lines))^[k] m).cpu.halted = false
  halted : ((step (sourceProgram lines) (sourceEnv lines))^[n] m).cpu.halted = true

section Run

variable {opt : AsmOptions} {lines : List Bytes} (h : WellPlaced opt lines)
include h

/-- The emulator follows the source program. -/
theorem WellPlaced.follows (host : EmuHost) (n : Nat)
    (hallowed : ∀ k < n, Allowed (sourceProgram lines) (sourceEnv lines)
      ((step (sourceProgram lines) (sourceEnv lines))^[k] (startOf opt lines host))) :
    Agree ((step (sourceProgram lines) (sourceEnv lines))^[n] (startOf opt lines host))
      (cpuStep^[n] (startOf opt lines host)) := by
  refine (Lockstep.iterate h.agree_step ⟨⟨rfl, rfl, rfl, rfl, rfl, rfl⟩, ?_⟩ n hallowed).1
  intro r hr _ w hw
  exact h.assembles.image_at h.forward h.within (List.mem_flatMap.mpr ⟨r, hr, hw⟩)

/-- A plain run on the image prints what the source program prints. -/
theorem WellPlaced.emulatorRun_eq {host : EmuHost} {args : EmuArgs} (hmode : args.mode = .plain)
    (hdump : args.doDump = false) {n : Nat}
    (hrun : HaltsAfter lines (startOf opt lines host) n) :
    ∃ fuel, emulatorRun fuel host args (Stores.write (fun _ => 0) (emitted opt lines)) =
      some ⟨0, ((step (sourceProgram lines) (sourceEnv lines))^[n]
        (startOf opt lines host)).bus.stdout, []⟩ := by
  have hfollow : ∀ k ≤ n, Agree ((step (sourceProgram lines) (sourceEnv lines))^[k]
      (startOf opt lines host)) (cpuStep^[k] (startOf opt lines host)) :=
    fun k hk => h.follows host k fun j hj => hrun.allowed j (Nat.lt_of_lt_of_le hj hk)
  have hloop : runLoop .plain n (startOf opt lines host) =
      some (cpuStep^[n] (startOf opt lines host)) :=
    runLoop_eq_some.mpr ⟨n, Nat.le_refl n, rfl,
      fun k hk => (hfollow k hk.le).halted.trans (hrun.running k hk),
      (hfollow n (Nat.le_refl n)).halted.trans hrun.halted⟩
  have hbus := (hfollow n (Nat.le_refl n)).bus
  have hquiet : (cpuStep^[n] (startOf opt lines host)).bus.stderr = [] := by
    rw [hbus, run_stderr]
    rfl
  refine ⟨n, ?_⟩
  rw [emulatorRun_plain hmode hdump hloop, hquiet, hbus]
  rfl

end Run

/-! ## The two commands

What the first command leaves at the output path is what the second one reads there. -/

section Commands

variable {host : Host} {opt : AsmOptions} {src content out : Bytes} {sf : SourceFile}
  (hread : host.read src = some content) (hlines : sourceRead content = some sf)
  (hok : Assembles opt sf.lines) (hforward : Layout.Forward 0 (layoutOf sf.lines))
  (hwithin : Layout.Within 0xFFFF 0 (layoutOf sf.lines)) (hopen : host.fopen out = true)
  (hwrite : ∀ w, host.fwrite out w = true) (hclose : host.fclose out = true)
include hread hlines hok hforward hwithin hopen hwrite hclose

/-- The assembler leaves the image of the source, and the emulator loads it. -/
theorem built_loads (ehost : EmuHost) :
    let built := assemblerRun host opt src out
    built.status = 0 ∧ Loads { ehost with fopen := openFrom built.file } out
      (Stores.write (fun _ => 0) (emitted opt sf.lines)) := by
  intro built
  obtain ⟨hends, hfile⟩ := assemblerRun_spec host opt src out
  have hdone : Delivered host opt src out :=
    ⟨content, sf, hread, hlines, hok, hopen, fun w _ => hwrite w⟩
  have hstatus : built.status = 0 := by
    rcases hends with ⟨-, hzero, -⟩ | ⟨hnot, -⟩
    · exact hzero
    · exact absurd hdone hnot
  refine ⟨hstatus, ?_⟩
  obtain ⟨bin, hbin, hload⟩ := hok.loadProgram_bin hforward hwithin
  have hwritten : built.file out = some bin := by
    rw [hfile, Function.update_self, (assembleAt_read hread hlines).2]
    rw [(assembleFile_ok (host.output out) hopen hwrite hclose).2 hok, hbin]
  have hopened : openFrom built.file out = some ⟨bin, true, true, true, bin.length / 2⟩ :=
    congrArg (Option.map _) hwritten
  exact ⟨_, hopened, ⟨rfl, rfl, rfl, Nat.le_refl _⟩, hload⟩

end Commands

/-- The emulator, called on a file and nothing else. -/
theorem emulatorMain_file {host : EmuHost} {path : PathWord} {mem : Word → Word}
    (h : Loads host path.val mem) (fuel : Nat) (prog : Bytes) :
    emulatorMain fuel host prog [path.val] = emulatorRun fuel host (setBy {} [.file path]) mem := by
  have hfiles : filesOf [.file path] = [path.val] := rfl
  have hmode : ¬ (EmuItem.step ∈ [EmuItem.file path] ∧ EmuItem.trace ∈ [EmuItem.file path]) := by
    simp
  rw [← emulatorOn_loads h]
  exact emulatorMain_items fuel host prog hfiles hmode

/-- A source that prints one byte. -/
def printEight : List Bytes :=
  [ascii "MOV R2, 8", ascii "NOT R1, R0", ascii "SHL R1, R1, R2", ascii "SW R2, R1, 0",
    ascii "HALT"]

end Proof
end EduCpu16
