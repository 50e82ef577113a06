import EduCpu16.Assembler.Output
import EduCpu16.Assembler.SourceFile
import EduCpu16.Emulator.Dump
import EduCpu16.Lib.Decimal

/-!
# `main.c` of the assembler — the command, and the texts it prints

`assemblerMain` is a run of the command: the words behind the program's name go in, and an exit
status, the two output streams and the files come out. Any call on a file may fail, and which ones
do is the environment's choice, `Host`: opening the source or the output, reading a line of the one,
writing a word of the other, and closing it. Allocations succeed, printing succeeds, and different
paths are different files.
-/

namespace EduCpu16

open CLib

/-- The files there are, and how calls on a path turn out. The last four fields are those of
`OutputPath`. -/
structure Host where
  file : Bytes → Option Bytes
  /-- Whether `fopen` opens a file that is there for reading. -/
  readable : Bytes → Bool
  /-- Whether call `i` of `fgets` on the open file reads its line. It does not after a read error,
  and on a directory, which can be opened, the first one does not. -/
  fgets : Bytes → Nat → Bool
  /-- Whether `fopen` opens the path for writing. -/
  fopen : Bytes → Bool
  fwrite : Bytes → Nat → Bool
  fclose : Bytes → Bool
  reached : Bytes → Nat

/-- What is read of a path, `none` if it cannot be opened. `source_read` leaves its loop when
`fgets` answers `NULL` and does not ask whether this is the end of the file or an error, so what it
sees is what was handed over until then, and `sourceRead` takes it for the file. -/
def Host.read (host : Host) (path : Bytes) : Option Bytes :=
  if host.readable path then
    (host.file path).map fun content =>
      handedOver 4095 (host.fgets path) (content.length + 1) 0 content
  else none

def Host.output (host : Host) (path : Bytes) : OutputPath where
  before := host.file path
  fopen := host.fopen path
  fwrite := host.fwrite path
  fclose := host.fclose path
  reached := host.reached path

/-! ## Texts -/

def asmErrorName : AsmError → Bytes
  | .ok => ascii "ok"
  | .undefinedLabel => ascii "undefined-label"
  | .duplicateLabel => ascii "duplicate-label"
  | .immOverflow => ascii "immediate-overflow"
  | .jumpOverflow => ascii "jump-overflow"
  | .unknownMnemonic => ascii "unknown-mnemonic"
  | .wrongOperandCount => ascii "wrong-operand-count"
  | .invalidRegister => ascii "invalid-register"
  | .invalidNumber => ascii "invalid-number"
  | .invalidDirective => ascii "invalid-directive"
  | .io => ascii "io"
  | .internal => ascii "internal"

/-- `asm_report`. -/
def asmReport (file : Bytes) (d : Diag) : Bytes :=
  file ++ ascii ":" ++ (if 0 < d.line then decimal d.line ++ ascii ": " else []) ++
    ascii "error[" ++ asmErrorName d.code ++ ascii "]: " ++ d.msg ++ ascii "\n"

/-- A line of `--listing`. -/
def listingText : Listing → Bytes
  | .instr addr word src =>
      ascii "  " ++ fmt04X addr ++ ascii "  " ++ fmt04X word ++ ascii "   " ++ src ++ ascii "\n"
  | .word addr word v =>
      ascii "  " ++ fmt04X addr ++ ascii "  " ++ fmt04X word ++ ascii "   ; .word " ++
        signedDecimal v.toInt ++ ascii "\n"
  | .ascii addr word =>
      ascii "  " ++ fmt04X addr ++ ascii "  " ++ fmt04X word ++ ascii "   ; .ascii\n"

/-- `%-32s`, with another number for 32. -/
def padRight (width : Nat) (s : Bytes) : Bytes := s ++ List.replicate (width - s.length) (ch ' ')

/-- What `symtable_dump` prints. -/
def symtableText (t : Symtable) : Bytes :=
  ascii "-- symbol table (" ++ decimal t.count ++ ascii " entries) --\n" ++
    (symtableDump t).flatMap fun s =>
      ascii "  " ++ padRight 32 s.1 ++ ascii " = 0x" ++ fmt04X s.2 ++ ascii "\n"

/-- `usage`. -/
def usage (prog : Bytes) : Bytes :=
  ascii "usage: " ++ prog ++ ascii " <src.asm> [-o out.bin] [--listing] [--symbols]\n" ++
    ascii "\n" ++
    ascii "  -o <file>   override output filename\n" ++
    ascii "  --listing   print address + hex + source line for each instruction\n" ++
    ascii "  --symbols   print the final symbol table\n" ++
    ascii "  -h, --help  show this help and exit\n"

/-! ## `assemble_file` -/

/-- What a call of `assemble_file` leaves, with the file then at the output path. -/
structure AssembleRun where
  rc : AsmError
  result : AsmResult
  stdout : Bytes
  stderr : Bytes
  file : Option Bytes

/-- `assemble_file` on paths. -/
def assembleAt (host : Host) (opt : AsmOptions) (src out : Bytes) : AssembleRun :=
  match host.read src with
  | none =>
      { rc := .io, result := ⟨0, 0, 0⟩, stdout := []
        stderr := asmReport src ⟨0, .io, ascii "could not open for reading"⟩
        file := host.file out }
  | some content =>
      match sourceRead content with
      -- The array of lines could not grow; nothing is said about it.
      | none =>
          { rc := .io, result := ⟨0, 0, 0⟩, stdout := [], stderr := [], file := host.file out }
      | some sf =>
          let p1 := pass1 sf.lines
          let p2 := pass2 opt sf.lines p1
          let fin := finalise (host.output out) p2.nErrors p2.image (highest p1.addr + 1)
          { rc := fin.rc
            result := ⟨p1.origin, p2.nWords, p2.nErrors⟩
            stdout := p2.listing.flatMap listingText ++
              if opt.dumpSymbols then symtableText p1.sym else []
            stderr := p2.diags.flatMap (asmReport src) ++ fin.diags.flatMap (asmReport out)
            file := fin.file }

/-! ## The command line -/

/-- The index of the last `c` in a text. -/
def strrchr : Bytes → Byte → Option Nat
  | [], _ => none
  | a :: s, c =>
      match strrchr s c with
      | some i => some (i + 1)
      | none => if a = c then some 0 else none

def deriveOutputPath (path : Bytes) : Bytes :=
  match strrchr path (ch '.'), strrchr path (ch '/') with
  | some dot, none => path.take dot ++ ascii ".bin"
  | some dot, some slash =>
      if slash < dot then path.take dot ++ ascii ".bin" else path ++ ascii ".bin"
  | none, _ => path ++ ascii ".bin"

/-- The variables the option loop sets. -/
structure AsmArgs where
  srcPath : Option Bytes := none
  outPath : Option Bytes := none
  opt : AsmOptions := {}

/-- How the option loop is left: for the help, for a usage error with what is printed before the
usage, or at its end. -/
inductive AsmCommand
  | help
  | bad (complaint : Bytes)
  | run (args : AsmArgs)

/-- The loop over the words, as far as they are left. -/
def optionLoop : List Bytes → AsmArgs → AsmCommand
  | [], args => .run args
  | a :: rest, args =>
      if a = ascii "-h" ∨ a = ascii "--help" then .help
      else if a = ascii "-o" then
        match rest with
        | [] => .bad []
        | out :: rest => optionLoop rest { args with outPath := some out }
      else if a = ascii "--listing" then
        optionLoop rest { args with opt := { args.opt with listing := true } }
      else if a = ascii "--symbols" then
        optionLoop rest { args with opt := { args.opt with dumpSymbols := true } }
      else if a.head? = some (ch '-') then
        .bad (ascii "unknown option: " ++ a ++ ascii "\n")
      else
        match args.srcPath with
        | none => optionLoop rest { args with srcPath := some a }
        | some _ => .bad (ascii "unexpected positional argument: " ++ a ++ ascii "\n")

/-- What a run of a command leaves. -/
structure Process where
  status : Nat
  stdout : Bytes
  stderr : Bytes
  file : Bytes → Option Bytes

/-- From the options on. -/
def assemblerRun (host : Host) (opt : AsmOptions) (src out : Bytes) : Process :=
  let run := assembleAt host opt src out
  let file := Function.update host.file out run.file
  if run.rc = .ok ∧ run.result.nErrors = 0 then
    { status := 0
      stdout := run.stdout ++ ascii "assembled " ++ src ++ ascii " -> " ++ out ++
        ascii "  (origin 0x" ++ fmt04X run.result.origin ++ ascii ", " ++
        decimal run.result.nWords.toNat ++ ascii " words)\n"
      stderr := run.stderr
      file := file }
  else
    { status := 1
      stdout := run.stdout
      stderr := run.stderr ++ ascii "assembly failed with " ++ decimal run.result.nErrors ++
        ascii " error(s)\n"
      file := file }

/-- `main`, called as `prog` with these words. -/
def assemblerMain (host : Host) (prog : Bytes) (args : List Bytes) : Process :=
  match optionLoop args {} with
  | .help => ⟨0, usage prog, [], host.file⟩
  | .bad complaint => ⟨2, [], complaint ++ usage prog, host.file⟩
  | .run a =>
      match a.srcPath with
      | none => ⟨2, [], usage prog, host.file⟩
      | some src => assemblerRun host a.opt src (a.outPath.getD (deriveOutputPath src))

example : deriveOutputPath (ascii "a.b/prog.asm") = ascii "a.b/prog.bin" ∧
    deriveOutputPath (ascii "a.b/prog") = ascii "a.b/prog.bin" := by decide

end EduCpu16
