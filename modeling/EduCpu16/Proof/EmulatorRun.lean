import EduCpu16.Proof.Console
import EduCpu16.Proof.Core
import EduCpu16.Proof.Dump
import EduCpu16.Proof.EmulatorMain
import EduCpu16.Proof.Loader
import EduCpu16.Proof.Observe

/-!
# A run of the emulator

The loop of a mode goes where the machine of that mode goes and ends when it does
(`console_iterate`, `runLoop_eq_some`). A file is loaded if all calls on it succeed and its size is
right (`readProgram_ok_iff`), and then the command ends if the loop and the dump behind it do
(`emulatorRun_ends_iff`). A program need not halt, so the theorem about the command separates what
happens when it exits from whether it does: a run that exits is one for some amount of fuel.

At the end of the module stands what `--trace` shows of a run: enough to tell the number of steps,
what each of them printed and the CPU state after each (`trace_tells_run`).
-/

namespace EduCpu16
namespace Proof

open CLib CommandLine Printed

/-! ## The loop

The loop of `main` prints while the CPU runs, so its machine and that of `Observe.lean` differ in
the texts on the standard output, and in nothing else since nothing reads them. -/

theorem runLoop_eq_some {mode : RunMode} : ∀ {fuel : Nat} {m m' : Machine},
    runLoop mode fuel m = some m' ↔ ∃ n ≤ fuel, (consoleBody mode)^[n] m = m' ∧
      (∀ t < n, ((consoleBody mode)^[t] m).cpu.halted = false) ∧ m'.cpu.halted = true := by
  -- By induction on the fuel. The test stands before the body, so a machine that is halted at the
  -- start takes no turn.
  intro fuel
  induction fuel with
  | zero =>
    intro m m'
    rw [runLoop]
    constructor
    · intro h
      split at h
      · rename_i hhalted
        obtain rfl := Option.some.inj h
        exact ⟨0, Nat.le_refl 0, rfl, fun t ht => absurd ht (Nat.not_lt_zero t), hhalted⟩
      · cases h
    · rintro ⟨n, hn, rfl, -, hhalted⟩
      obtain rfl := Nat.le_zero.mp hn
      exact if_pos hhalted
  | succ fuel ih =>
    intro m m'
    rw [runLoop]
    by_cases hhalted : m.cpu.halted = true
    · rw [if_pos hhalted]
      constructor
      · intro h
        obtain rfl := Option.some.inj h
        exact ⟨0, Nat.zero_le _, rfl, fun t ht => absurd ht (Nat.not_lt_zero t), hhalted⟩
      · rintro ⟨n, -, rfl, hrun, -⟩
        cases n with
        | zero => rfl
        | succ n => exact absurd ((hrun 0 (Nat.succ_pos n)).symm.trans hhalted) (by decide)
    · rw [if_neg hhalted, ih]
      constructor
      · rintro ⟨n, hn, hm, hrun, hend⟩
        refine ⟨n + 1, Nat.succ_le_succ hn, hm, fun t ht => ?_, hend⟩
        cases t with
        | zero => exact Bool.eq_false_iff.mpr hhalted
        | succ t => exact hrun t (Nat.lt_of_succ_lt_succ ht)
      · rintro ⟨n, hn, hm, hrun, hend⟩
        cases n with
        | zero =>
          obtain rfl : m = m' := hm
          exact absurd hend hhalted
        | succ n =>
          exact ⟨n, Nat.le_of_succ_le_succ hn, hm,
            fun t ht => hrun (t + 1) (Nat.succ_lt_succ ht), hend⟩

/-- A turn of the loop does to the machine what the mode does, and prints. -/
theorem consoleBody_onto (mode : RunMode) (text : Bytes) (s : Session) : ∃ out,
    consoleBody mode (onto text s.machine) = onto out (loopBody mode s).machine := by
  cases mode with
  | plain => exact ⟨_, cpuStep_onto text s.machine⟩
  | trace | step =>
    refine ⟨text ++ stepOutput s.machine ++ cpuDumpText (cpuStep s.machine).cpu, ?_⟩
    rw [consoleBody]
    simp only [cpuStep_onto]
    rfl

theorem console_iterate (mode : RunMode) (m : Machine) (n : Nat) :
    ∃ text, (consoleBody mode)^[n] m = onto text (machineAt mode m n) := by
  induction n with
  | zero => exact ⟨m.bus.stdout, rfl⟩
  | succ n ih =>
    obtain ⟨text, ih⟩ := ih
    rw [Function.iterate_succ_apply', ih, machineAt, machineAt, Function.iterate_succ_apply']
    exact consoleBody_onto mode text _

/-- **The loop ends when the run of its mode does.** -/
theorem runLoop_ends_iff {mode : RunMode} {m : Machine} :
    (∃ fuel m', runLoop mode fuel m = some m') ↔ ∃ n, EndsAfter mode m n := by
  have hhalted : ∀ n, ((consoleBody mode)^[n] m).cpu.halted = (machineAt mode m n).cpu.halted := by
    intro n
    obtain ⟨text, h⟩ := console_iterate mode m n
    rw [h]
    rfl
  constructor
  · rintro ⟨fuel, m', h⟩
    obtain ⟨n, -, rfl, hrun, hend⟩ := runLoop_eq_some.mp h
    exact ⟨n, fun t ht => (hhalted t).symm.trans (hrun t ht), (hhalted n).symm.trans hend⟩
  · rintro ⟨n, hrun, hend⟩
    exact ⟨n, _, runLoop_eq_some.mpr ⟨n, Nat.le_refl n, rfl,
      fun t ht => (hhalted t).trans (hrun t ht), (hhalted n).trans hend⟩⟩

theorem runLoop_mono {mode : RunMode} {fuel fuel' : Nat} {m m' : Machine} (hle : fuel ≤ fuel')
    (h : runLoop mode fuel m = some m') : runLoop mode fuel' m = some m' := by
  obtain ⟨n, hn, hrest⟩ := runLoop_eq_some.mp h
  exact runLoop_eq_some.mpr ⟨n, hn.trans hle, hrest⟩

/-! ## The dump

`mem_dump` counts in 16 bits, so behind a row at `0xFFF8` or above it goes round to the lowest
addresses and does not stop. It ends exactly if it does not come to such a row. -/

/-- The ranges `mem_dump` comes to the end of. -/
def DumpEnds (range : Word × Word) : Prop :=
  range.2 ≤ range.1 ∨ range.2.toNat ≤ 0xFFF8 + range.1.toNat % 8

theorem memDump_ends {mem : Word → Word} {range : Word × Word} (h : DumpEnds range) {fuel : Nat}
    (hfuel : 65536 ≤ fuel) : ∃ out, memDump mem range.1 range.2 fuel = some out := by
  by_cases hle : range.2 ≤ range.1
  · exact ⟨[], if_pos hle⟩
  · have hstop := range.2.isLt
    obtain ⟨n, rfl⟩ : ∃ n, fuel = n + 1 := ⟨fuel - 1, by omega⟩
    obtain ⟨out, hrun, -⟩ := dumpLoop_listing mem n range.1 [] (by omega) (h.resolve_left hle)
    refine ⟨[] ++ out, ?_⟩
    rw [memDump, if_neg hle, hrun]

theorem memDump_stuck {mem : Word → Word} {range : Word × Word} (h : ¬ DumpEnds range)
    (fuel : Nat) : memDump mem range.1 range.2 fuel = none := by
  obtain ⟨hlt, hres⟩ := not_or.mp h
  rw [memDump, if_neg hlt, dumpLoop_none mem fuel range.1 [] (Nat.lt_of_not_le hres)]

/-- The range of `main`: the dump goes on for ever from high addresses that do not end in a
multiple of eight less one. -/
theorem dumpEnds_dumpRange (option : Option Word) : DumpEnds (dumpRange option) ↔
    ∀ addr ∈ option, addr.toNat ≤ 0xFEFF ∨ addr.toNat % 8 = 7 := by
  cases option with
  | none =>
    refine iff_of_true (.inr (by decide)) fun addr h => ?_
    cases h
  | some addr =>
    have haddr := addr.isLt
    simp only [DumpEnds, dumpRange, Option.mem_some_iff, forall_eq', BitVec.le_def]
    split
    · have hmax : (0xFFFF : Word).toNat = 65535 := rfl
      rw [hmax]
      omega
    · rw [BitVec.toNat_ofNat]
      omega

/-! ## The program file

`main` asks for the size with `fseek` and `ftell` and reads that many words with `fread`. Any of the
calls can fail, and then there is a message and status 1; a file whose size is odd or too large is
turned away as well. -/

/-- The calls on the file succeed. -/
structure Readable (f : BinFile) : Prop where
  seekEnd : f.seekEnd = true
  tell : f.tell = true
  seekSet : f.seekSet = true
  fread : f.content.length / 2 ≤ f.fread

theorem readProgram_of_readable (path : Bytes) {f : BinFile} (h : Readable f) :
    (∃ text, readProgram path f = .error text ∧ loadProgram f.content = none) ∨
      ∃ mem, readProgram path f = .ok mem ∧ loadProgram f.content = some mem := by
  have hread : ¬ (0 < f.content.length / 2 ∧ f.fread < f.content.length / 2) :=
    fun hshort => absurd h.fread (Nat.not_le.mpr hshort.2)
  simp only [readProgram, loadProgram, h.seekEnd, h.tell, h.seekSet, hread, not_true_eq_false,
    if_false]
  split
  · exact .inl ⟨_, rfl, rfl⟩
  split
  · exact .inl ⟨_, rfl, rfl⟩
  split
  · exact .inr ⟨_, rfl, rfl⟩
  · exact .inr ⟨_, rfl, rfl⟩

theorem readable_of_readProgram {path : Bytes} {f : BinFile} {mem : Word → Word}
    (h : readProgram path f = .ok mem) : Readable f := by
  unfold readProgram at h
  simp only at h
  split at h
  · cases h
  rename_i hend
  split at h
  · cases h
  rename_i htell
  split at h
  · cases h
  split at h
  · cases h
  rename_i hset
  split at h
  · cases h
  split at h
  · cases h
  · rename_i hread
    exact ⟨not_not.mp hend, not_not.mp htell, not_not.mp hset, by omega⟩

/-- **What is loaded**: a file that the calls deliver and `loadProgram` takes. -/
theorem readProgram_ok_iff {path : Bytes} {f : BinFile} {mem : Word → Word} :
    readProgram path f = .ok mem ↔ Readable f ∧ loadProgram f.content = some mem := by
  constructor
  · intro h
    have hread := readable_of_readProgram h
    rcases readProgram_of_readable path hread with ⟨text, htext, -⟩ | ⟨mem', hok, hload⟩
    · cases htext.symm.trans h
    · cases hok.symm.trans h
      exact ⟨hread, hload⟩
  · rintro ⟨hread, hload⟩
    rcases readProgram_of_readable path hread with ⟨text, -, hnone⟩ | ⟨mem', hok, hload'⟩
    · cases hnone.symm.trans hload
    · rw [hok, Option.some.inj (hload'.symm.trans hload)]

/-! ## The command

What the loader and the run say is put together with what `main` does about it. -/

section Command

variable {host : EmuHost} {args : EmuArgs} {mem : Word → Word}

/-- The machine a command starts. -/
def bootOf (host : EmuHost) (mem : Word → Word) : Machine :=
  bootMachine host.cpu mem host.stdin host.clock

/-- **When a run of the command ends**: the program halts, and the dump that was asked for ends. -/
theorem emulatorRun_ends_iff : (∃ fuel p, emulatorRun fuel host args mem = some p) ↔
    (∃ n, EndsAfter args.mode (bootOf host mem) n) ∧
      (args.doDump = true → ∀ addr ∈ (if args.hasAddr then some args.startAddr else none),
        addr.toNat ≤ 0xFEFF ∨ addr.toNat % 8 = 7) := by
  rw [← runLoop_ends_iff, ← dumpEnds_dumpRange]
  constructor
  · rintro ⟨fuel, p, h⟩
    unfold emulatorRun at h
    split at h
    · cases h
    · rename_i m hloop
      refine ⟨⟨fuel, m, hloop⟩, fun hdump => ?_⟩
      by_contra hstuck
      simp only [hdump, if_true, memDump_stuck hstuck] at h
      cases h
  · rintro ⟨⟨fuel, m, hloop⟩, hdump⟩
    have hmore := runLoop_mono (Nat.le_add_right fuel 65536) hloop
    have hend : ∃ out, (if args.doDump then memDump m.bus.mem
        (dumpRange (if args.hasAddr then some args.startAddr else none)).1
        (dumpRange (if args.hasAddr then some args.startAddr else none)).2 (fuel + 65536)
        else some []) = some out := by
      by_cases hdo : args.doDump = true
      · rw [if_pos hdo]
        exact memDump_ends (hdump hdo) (Nat.le_add_left _ _)
      · rw [if_neg hdo]
        exact ⟨[], rfl⟩
    obtain ⟨out, hout⟩ := hend
    refine ⟨fuel + 65536, ?_⟩
    simp only [bootOf] at hmore
    simp only [emulatorRun, hmore, hout]
    exact ⟨_, rfl⟩

end Command

/-- The file is opened, read and loaded. The memory is determined by the host and the path, so in
the theorems it is at most one. -/
def Loads (host : EmuHost) (path : Bytes) (mem : Word → Word) : Prop :=
  ∃ f, host.fopen path = some f ∧ Readable f ∧ loadProgram f.content = some mem

/-- What the command does with a file. -/
theorem emulatorOn_cases (host : EmuHost) (args : EmuArgs) (path : Bytes) :
    (∃ mem, Loads host path mem ∧
      ∀ fuel, emulatorOn fuel host args path = emulatorRun fuel host args mem) ∨
    (∀ mem, ¬ Loads host path mem) ∧ ∃ text, text ≠ [] ∧
      ∀ fuel, emulatorOn fuel host args path = some ⟨1, [], text⟩ := by
  cases hopen : host.fopen path with
  | none =>
    right
    refine ⟨?_, ascii "error: failed to open '" ++ path ++ ascii "'\n",
      List.append_ne_nil_of_right_ne_nil _ (by decide), fun fuel => ?_⟩
    · rintro mem ⟨f, hf, -⟩
      cases hopen.symm.trans hf
    · simp only [emulatorOn, hopen]
  | some f =>
    cases hread : readProgram path f with
    | ok mem =>
      left
      refine ⟨mem, ⟨f, hopen, readProgram_ok_iff.mp hread⟩, fun fuel => ?_⟩
      simp only [emulatorOn, hopen, hread]
    | error text =>
      right
      refine ⟨?_, text, ?_, fun fuel => ?_⟩
      · rintro mem ⟨f', hf, hok⟩
        obtain rfl := Option.some.inj (hopen.symm.trans hf)
        cases hread.symm.trans (readProgram_ok_iff.mpr hok)
      · rintro rfl
        cases readProgram_error hread
      · simp only [emulatorOn, hopen, hread]

theorem emulatorOn_loads {host : EmuHost} {path : Bytes} {mem : Word → Word}
    (h : Loads host path mem) (fuel : Nat) (args : EmuArgs) :
    emulatorOn fuel host args path = emulatorRun fuel host args mem := by
  obtain ⟨f, hopen, hread⟩ := h
  have hok : readProgram path f = .ok mem := readProgram_ok_iff.mpr hread
  simp only [emulatorOn, hopen, hok]

theorem addr_setBy (items : List EmuItem) :
    (if (setBy {} items).hasAddr then some (setBy {} items).startAddr else none) =
      (addrsOf items).getLast? := by
  cases hcase : addrsOf items with
  | nil => simp [setBy, hcase]
  | cons a as => simp [setBy, hcase, List.getLast?_cons]

/-- **The exit status of the emulator, and when it exits.** For a command with one file: if it
exits, the status is 0 exactly if the file was loaded, and otherwise it is 1 with a message and
nothing on the standard output; and it exits unless the file was loaded and the program does not
halt in the mode asked for, or `--dump` was given with a last `--addr` above 0xFEFF that is not
seven modulo eight. -/
theorem emulator_exit_status (host : EmuHost) (prog : Bytes) {items : List EmuItem} {path : Bytes}
    (hfile : filesOf items = [path])
    (hmode : ¬ (EmuItem.step ∈ items ∧ EmuItem.trace ∈ items)) :
    (∀ fuel p, emulatorMain fuel host prog (items.flatMap EmuItem.words) = some p →
      p.status = 0 ∧ (∃ mem, Loads host path mem) ∨
      p.status = 1 ∧ p.stdout = [] ∧ p.stderr ≠ [] ∧ ∀ mem, ¬ Loads host path mem) ∧
    ((∃ fuel p, emulatorMain fuel host prog (items.flatMap EmuItem.words) = some p) ↔
      ∀ mem, Loads host path mem →
        (∃ n, EndsAfter (setBy {} items).mode (bootOf host mem) n) ∧
        (EmuItem.dump ∈ items → ∀ addr ∈ (addrsOf items).getLast?,
          addr.toNat ≤ 0xFEFF ∨ addr.toNat % 8 = 7)) := by
  simp only [emulatorMain_items _ host prog hfile hmode]
  rcases emulatorOn_cases host (setBy {} items) path with
    ⟨mem, hload, hrun⟩ | ⟨hno, text, htext, hfail⟩
  · simp only [hrun]
    refine ⟨fun fuel p h => .inl ⟨emulatorRun_status h, mem, hload⟩, ?_⟩
    rw [emulatorRun_ends_iff, addr_setBy]
    have hdump : (setBy {} items).doDump = true ↔ EmuItem.dump ∈ items := by simp [setBy]
    rw [hdump]
    constructor
    · intro h mem' hload'
      obtain ⟨f, hf, -, hmem⟩ := hload
      obtain ⟨f', hf', -, hmem'⟩ := hload'
      obtain rfl := Option.some.inj (hf.symm.trans hf')
      obtain rfl := Option.some.inj (hmem.symm.trans hmem')
      exact h
    · exact fun h => h mem hload
  · simp only [hfail]
    refine ⟨fun fuel p h => ?_, iff_of_true ⟨0, _, rfl⟩ fun mem h => absurd h (hno mem)⟩
    obtain rfl := Option.some.inj h
    exact .inr ⟨rfl, rfl, htext, hno⟩

/-- A host on which every path is a file with one HALT in it. -/
def haltHost (stdin : Bytes) : EmuHost where
  fopen _ := some ⟨[0x00, 0xF8], true, true, true, 1⟩
  stdin := stdin
  clock _ := 0
  cpu := ⟨fun _ => 0, 0, 0, 0, 0, false⟩

theorem emulator_exit_status_halt : ∃ fuel p,
    emulatorMain fuel (haltHost []) (ascii "emulator") [ascii "--dump", ascii "a.bin"] =
      some p := by
  have hfile : filesOf [.dump, .file ⟨ascii "a.bin", by decide⟩] = [ascii "a.bin"] := rfl
  refine (emulator_exit_status (haltHost []) (ascii "emulator") hfile (by decide)).2.mpr ?_
  rintro mem ⟨f, hopen, -, hload⟩
  obtain rfl := Option.some.inj hopen
  obtain rfl := Option.some.inj hload
  refine ⟨⟨1, fun t ht => ?_, rfl⟩, fun _ addr haddr => by cases haddr⟩
  obtain rfl := Nat.lt_one_iff.mp ht
  rfl

/-! ## What `--trace` tells

The text of the traced run is a sequence of turns that tell where they end, and the last dump says
that the CPU is halted, which is how the number of turns is told. -/

/-- A traced run: its steps are those of a plain run, and its output is their turns. -/
theorem trace_turns {fuel : Nat} {host : EmuHost} {args : EmuArgs} {mem : Word → Word}
    {p : EmuProcess} (hmode : args.mode = .trace) (hdump : args.doDump = false)
    (hrun : emulatorRun fuel host args mem = some p) :
    ∃ n, EndsAfter .plain (bootOf host mem) n ∧
      p.stdout = ((List.range n).map (traceTurn (bootOf host mem))).flatMap TraceTurn.text := by
  unfold emulatorRun at hrun
  rw [hmode] at hrun
  split at hrun
  · cases hrun
  · rename_i m hloop
    simp only [hdump] at hrun
    obtain rfl := Option.some.inj hrun
    obtain ⟨n, -, rfl, hbusy, hhalted⟩ := runLoop_eq_some.mp hloop
    refine ⟨n, ⟨fun t ht => ?_, ?_⟩, ?_⟩
    · have ht' := hbusy t ht
      rw [trace_iterate] at ht'
      rw [machineAt_plain]
      exact ht'
    · rw [trace_iterate] at hhalted
      rw [machineAt_plain]
      exact hhalted
    · rw [trace_iterate]
      exact List.append_nil _

/-- **The output of `--trace` tells the run.** Two traced runs that print the same, of whatever
programs on whatever inputs, make the same number of steps, and at each of them print the same and
leave the same CPU state. -/
theorem trace_tells_run {fuel fuel' : Nat} {host host' : EmuHost} {args args' : EmuArgs}
    {mem mem' : Word → Word} {p p' : EmuProcess} (hmode : args.mode = .trace)
    (hmode' : args'.mode = .trace) (hdump : args.doDump = false) (hdump' : args'.doDump = false)
    (hrun : emulatorRun fuel host args mem = some p)
    (hrun' : emulatorRun fuel' host' args' mem' = some p') (hout : p.stdout = p'.stdout) :
    ∃ n, EndsAfter .plain (bootOf host mem) n ∧ EndsAfter .plain (bootOf host' mem') n ∧
      ∀ t < n, stepOutput (machineAt .plain (bootOf host mem) t) =
          stepOutput (machineAt .plain (bootOf host' mem') t) ∧
        (machineAt .plain (bootOf host mem) (t + 1)).cpu =
          (machineAt .plain (bootOf host' mem') (t + 1)).cpu := by
  obtain ⟨n, hend, htext⟩ := trace_turns hmode hdump hrun
  obtain ⟨n', hend', htext'⟩ := trace_turns hmode' hdump' hrun'
  have hne : ∀ turn : TraceTurn, turn.text ≠ [] := by
    intro turn
    obtain ⟨rest, hrest⟩ := cpuDumpText_head turn.cpu
    rw [TraceTurn.text, hrest]
    exact List.append_ne_nil_of_right_ne_nil _ (List.cons_ne_nil _ _)
  have hturns := delimits_list delimits_turn hne (htext.symm.trans (hout.trans htext'))
  have hlen := congrArg List.length hturns
  rw [List.length_map, List.length_map, List.length_range, List.length_range] at hlen
  subst hlen
  refine ⟨n, hend, hend', fun t ht => ?_⟩
  have hturn := List.map_inj_left.mp hturns t (List.mem_range.mpr ht)
  simp only [machineAt_plain]
  exact ⟨congrArg TraceTurn.output hturn, congrArg TraceTurn.cpu hturn⟩

/-- A HALT, with different words behind it. -/
theorem trace_tells_run_halt : ∃ n,
    EndsAfter .plain (bootOf (haltHost []) fun _ => 0xF800) n ∧
    EndsAfter .plain (bootOf (haltHost [7]) fun a => if a = 0 then 0xF800 else 0) n := by
  have hsame : emulatorRun 1 (haltHost [7]) { doTrace := true }
      (fun a => if a = 0 then 0xF800 else 0) =
      emulatorRun 1 (haltHost []) { doTrace := true } fun _ => 0xF800 := rfl
  obtain ⟨p, hrun⟩ : ∃ p, emulatorRun 1 (haltHost []) { doTrace := true } (fun _ => 0xF800) =
      some p := ⟨_, rfl⟩
  obtain ⟨n, hend, hend', -⟩ :=
    trace_tells_run rfl rfl rfl rfl hrun (hsame.trans hrun) rfl
  exact ⟨n, hend, hend'⟩

end Proof
end EduCpu16
