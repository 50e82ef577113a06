import EduCpu16.Emulator.Control

/-!
# `main.c` of the emulator — loading and running a binary

The path of `main` from the opened file to the first instruction, for a file that can be opened,
sought and read, on a little-endian host; then the loops of its three modes.
-/

namespace EduCpu16

open CLib

/-- What `fread` puts into a `uint16_t` buffer. -/
def freadWords : Bytes → List Word
  | lo :: hi :: rest => (lo.setWidth 16 ||| (hi.setWidth 16 <<< 8)) :: freadWords rest
  | _ => []

/-- The memory before the first instruction, from the static zeroes; `none` when the size check
rejects the file. The word count reaches `mem_load` as a `uint16_t`. -/
def loadProgram (file : Bytes) : Option (Word → Word) :=
  if file.length % 2 ≠ 0 then none
  else
    let numWords := file.length / 2
    if memSize < numWords then none
    else if 0 < numWords then
      some (memLoad (fun _ => 0) (freadWords file) (BitVec.ofNat 16 numWords) 0)
    else some fun _ => 0

/-- The machine `main` starts to run: the CPU after `cpu_init` and `cpu_reset`, the program in
memory, nothing printed and no clock read yet. -/
def bootMachine (cpu : CPU) (mem : Word → Word) (stdin : Bytes) (clock : Nat → BitVec 64) :
    Machine where
  cpu := cpuReset (cpuInit cpu)
  bus := { mem := mem, stdin := stdin, clock := clock, ticks := 0, stdout := [], stderr := [] }

/-! ## The run loops -/

/-- `--step`, `--trace` or neither; the options exclude each other. -/
inductive RunMode
  | plain
  | trace
  | step
  deriving DecidableEq, Repr

/-- A run in progress: the machine, and the CPU states `cpu_dump` printed, oldest first. -/
structure Session where
  machine : Machine
  dumps : List CPU

/-- `(void)getchar()`, from the stream that `IO_STDIN` reads. -/
def Bus.getchar (bus : Bus) : Bus := { bus with stdin := bus.stdin.tail }

def Session.cpuDump (s : Session) : Session := { s with dumps := s.dumps ++ [s.machine.cpu] }

/-- The body of the `while (!cpu.halted)` loop. -/
def loopBody (mode : RunMode) (s : Session) : Session :=
  let s := { s with machine := cpuStep s.machine }
  match mode with
  | .plain => s
  | .trace => s.cpuDump
  | .step =>
      let s := s.cpuDump
      { s with machine := { s.machine with bus := s.machine.bus.getchar } }

end EduCpu16
