import EduCpu16.Emulator.Dump
import EduCpu16.Emulator.Main
import EduCpu16.Lib.Decimal
import EduCpu16.Lib.Strtoul

/-!
# `main.c` of the emulator — the command, and `cpu_dump`

`emulatorMain` is a run of the command, from the words behind the program's name to the exit status
and the two output streams. The program's output and the dumps share the standard output, and
`getchar` shares the standard input with `IO_STDIN`. Programs and dumps need not end: both loops
carry the fuel, and `none` is a command that is still running.
-/

namespace EduCpu16

open CLib

/-! ## `cpu_dump` -/

/-- `%5u`, with another number for 5. -/
def padLeft (width : Nat) (s : Bytes) : Bytes := List.replicate (width - s.length) (ch ' ') ++ s

/-- A register's line. -/
def regText (i : Nat) (v : Word) : Bytes :=
  ascii "R" ++ decimal i ++ ascii ": 0x" ++ fmt04X v ++ ascii " (" ++
    padLeft 5 (decimal v.toNat) ++ ascii ")\n"

/-- `%u` of a comparison. -/
def bitText (b : Bool) : Bytes := decimal b.toNat

def cpuDumpText (cpu : CPU) : Bytes :=
  ascii "=== CPU State ===\n" ++
    (List.finRange 8).flatMap (fun i => regText i.val (cpu.regs i)) ++
    ascii "PC: 0x" ++ fmt04X cpu.pc ++ ascii "\n" ++
    ascii "IR: 0x" ++ fmt04X cpu.ir ++ ascii "\n" ++
    ascii "SP: 0x" ++ fmt04X (cpu.regs 7) ++ ascii "\n" ++
    ascii "FLAGS: [Z=" ++ bitText (cpu.flag flagZf) ++ ascii " N=" ++ bitText (cpu.flag flagNf) ++
    ascii " C=" ++ bitText (cpu.flag flagCf) ++ ascii " O=" ++ bitText (cpu.flag flagOf) ++
    ascii "] (0x" ++ fmt02X cpu.flags ++ ascii ")\n" ++
    ascii "CYCLES: " ++ decimal cpu.cycleCount.toNat ++ ascii "\n" ++
    ascii "HALTED: " ++ (if cpu.halted then ascii "yes" else ascii "no") ++ ascii "\n"

/-! ## The run loops

`Emulator/Main.lean` has the loops without what they print. Here they print, and with fuel in the
place of a loop that need not end. -/

/-- `printf`. -/
def Machine.print (m : Machine) (text : Bytes) : Machine :=
  { m with bus := { m.bus with stdout := m.bus.stdout ++ text } }

/-- The body of the `while (!cpu.halted)` loop, with what it prints. -/
def consoleBody (mode : RunMode) (m : Machine) : Machine :=
  let m := cpuStep m
  match mode with
  | .plain => m
  | .trace => m.print (cpuDumpText m.cpu)
  | .step =>
      let m := m.print (cpuDumpText m.cpu)
      { m with bus := m.bus.getchar }

def runLoop (mode : RunMode) : Nat → Machine → Option Machine
  | 0, m => if m.cpu.halted then some m else none
  | fuel + 1, m => if m.cpu.halted then some m else runLoop mode fuel (consoleBody mode m)

/-- What `cpu_step` prints for an unassigned opcode. -/
def illegalText (op : Byte) (pc : Word) : Bytes :=
  ascii "illegal instruction: opcode=0x" ++ fmt02X op ++ ascii " at PC=0x" ++ fmt04X pc ++
    ascii "\n"

/-! ## The command line -/

def printUsage (prog : Bytes) : Bytes :=
  ascii "Usage: " ++ prog ++ ascii " <file.bin> [--dump] [--step] [--trace] [--addr X]\n"

/-- `none` is a text that is turned down. -/
def parseHexAddr (text : Bytes) : Option Word :=
  let parsed := strtoul text 16
  if parsed.erange ∨ parsed.rest = text ∨ parsed.rest ≠ [] ∨ 0xFFFF < parsed.value.toNat then none
  else some (parsed.value.setWidth 16)

/-- The variables the argument loop sets. -/
structure EmuArgs where
  binPath : Option Bytes := none
  doDump : Bool := false
  doStep : Bool := false
  doTrace : Bool := false
  hasAddr : Bool := false
  startAddr : Word := 0
  deriving DecidableEq

/-- The loop over the words; `none` is the usage. -/
def argumentLoop : List Bytes → EmuArgs → Option EmuArgs
  | [], args => some args
  | a :: rest, args =>
      if a = ascii "--dump" then argumentLoop rest { args with doDump := true }
      else if a = ascii "--step" then argumentLoop rest { args with doStep := true }
      else if a = ascii "--trace" then argumentLoop rest { args with doTrace := true }
      else if a = ascii "--addr" then
        match rest with
        | [] => none
        | text :: rest =>
            match parseHexAddr text with
            | none => none
            | some addr => argumentLoop rest { args with startAddr := addr, hasAddr := true }
      else if a.head? = some (ch '-') then none
      else
        match args.binPath with
        | none => argumentLoop rest { args with binPath := some a }
        | some _ => none

def EmuArgs.mode (args : EmuArgs) : RunMode :=
  if args.doStep then .step else if args.doTrace then .trace else .plain

/-! ## The program file

`fseek`, `ftell` and `fread` may all fail on a file that was opened, and how they turn out is in
`BinFile`. -/

/-- A file that `fopen` opens, and how the calls on it turn out. -/
structure BinFile where
  content : Bytes
  seekEnd : Bool
  tell : Bool
  seekSet : Bool
  /-- The words `fread` delivers at most. -/
  fread : Nat

/-- The memory the file is loaded into, or the message. -/
def readProgram (path : Bytes) (f : BinFile) : Except Bytes (Word → Word) :=
  let numWords := f.content.length / 2
  if ¬ f.seekEnd then .error (ascii "error: failed to seek '" ++ path ++ ascii "'\n")
  else if ¬ f.tell then
    .error (ascii "error: failed to determine size of '" ++ path ++ ascii "'\n")
  else if f.content.length % 2 ≠ 0 then
    .error (ascii "error: binary size must be a multiple of 2 bytes\n")
  else if ¬ f.seekSet then .error (ascii "error: failed to rewind '" ++ path ++ ascii "'\n")
  else if memSize < numWords then
    .error (ascii "error: program is larger than addressable memory\n")
  else if 0 < numWords ∧ f.fread < numWords then
    .error (ascii "error: failed to read binary words from '" ++ path ++ ascii "'\n")
  else if 0 < numWords then
    .ok (memLoad (fun _ => 0) (freadWords f.content) (BitVec.ofNat 16 numWords) 0)
  else .ok fun _ => 0

/-! ## `main` -/

/-- What the command is run on: the files, the standard input, the clock, and what was on the stack
where `cpu` is. -/
structure EmuHost where
  fopen : Bytes → Option BinFile
  stdin : Bytes
  clock : Nat → BitVec 64
  cpu : CPU

/-- What a run of the command leaves. -/
structure EmuProcess where
  status : Nat
  stdout : Bytes
  stderr : Bytes
  deriving DecidableEq

/-- From `cpu_init` on. -/
def emulatorRun (fuel : Nat) (host : EmuHost) (args : EmuArgs) (mem : Word → Word) :
    Option EmuProcess :=
  match runLoop args.mode fuel (bootMachine host.cpu mem host.stdin host.clock) with
  | none => none
  | some m =>
      let (start, stop) := dumpRange (if args.hasAddr then some args.startAddr else none)
      match if args.doDump then memDump m.bus.mem start stop fuel else some [] with
      | none => none
      | some dump =>
          some { status := 0
                 stdout := m.bus.stdout ++ dump
                 stderr := m.bus.stderr.flatMap fun e => illegalText e.1 e.2 }

/-- From `fopen` on. -/
def emulatorOn (fuel : Nat) (host : EmuHost) (args : EmuArgs) (path : Bytes) :
    Option EmuProcess :=
  match host.fopen path with
  | none => some ⟨1, [], ascii "error: failed to open '" ++ path ++ ascii "'\n"⟩
  | some f =>
      match readProgram path f with
      | .error text => some ⟨1, [], text⟩
      | .ok mem => emulatorRun fuel host args mem

/-- `main`, called as `prog` with these words. -/
def emulatorMain (fuel : Nat) (host : EmuHost) (prog : Bytes) (words : List Bytes) :
    Option EmuProcess :=
  match argumentLoop words {} with
  | none => some ⟨1, [], printUsage prog⟩
  | some args =>
      match args.binPath with
      | none => some ⟨1, [], printUsage prog⟩
      | some path =>
          if args.doStep && args.doTrace then some ⟨1, [], printUsage prog⟩
          else emulatorOn fuel host args path

example : parseHexAddr (ascii "0xFF") = some 0xFF ∧ parseHexAddr (ascii "1FFFF") = none := by
  decide

end EduCpu16
