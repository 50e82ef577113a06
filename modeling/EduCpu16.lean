import EduCpu16.Assembler.Assembler
import EduCpu16.Assembler.Encoder
import EduCpu16.Assembler.Errors
import EduCpu16.Assembler.Lexer
import EduCpu16.Assembler.Main
import EduCpu16.Assembler.Output
import EduCpu16.Assembler.Parser
import EduCpu16.Assembler.SourceFile
import EduCpu16.Assembler.Symtable
import EduCpu16.Checked.Encoder
import EduCpu16.Checked.Lexer
import EduCpu16.Checked.Parser
import EduCpu16.Emulator.Alu
import EduCpu16.Emulator.CommandLine
import EduCpu16.Emulator.Control
import EduCpu16.Emulator.Cpu
import EduCpu16.Emulator.Dump
import EduCpu16.Emulator.Main
import EduCpu16.Emulator.Memory
import EduCpu16.Isa
import EduCpu16.Lib.BitFields
import EduCpu16.Lib.BoundedMap
import EduCpu16.Lib.CString
import EduCpu16.Lib.CheckedC
import EduCpu16.Lib.CommandLine
import EduCpu16.Lib.CountedRun
import EduCpu16.Lib.Decimal
import EduCpu16.Lib.Layout
import EduCpu16.Lib.Lockstep
import EduCpu16.Lib.Nesting
import EduCpu16.Lib.OpenAddressing
import EduCpu16.Lib.Printed
import EduCpu16.Lib.Stores
import EduCpu16.Lib.Strtol
import EduCpu16.Lib.Strtoul
import EduCpu16.Lib.TextLines
import EduCpu16.Lib.Traverse
import EduCpu16.Lib.WideWord
import EduCpu16.Proof.Addresses
import EduCpu16.Proof.Alu
import EduCpu16.Proof.Append
import EduCpu16.Proof.Ascii
import EduCpu16.Proof.AssemblerMain
import EduCpu16.Proof.AssemblerRun
import EduCpu16.Proof.Assembly
import EduCpu16.Proof.Branch
import EduCpu16.Proof.CheckedEncoder
import EduCpu16.Proof.CheckedLexer
import EduCpu16.Proof.CheckedParser
import EduCpu16.Proof.Console
import EduCpu16.Proof.Constant
import EduCpu16.Proof.Core
import EduCpu16.Proof.Diagnostics
import EduCpu16.Proof.Disassemble
import EduCpu16.Proof.Dump
import EduCpu16.Proof.EmulatorMain
import EduCpu16.Proof.EmulatorRun
import EduCpu16.Proof.Encoder
import EduCpu16.Proof.Execute
import EduCpu16.Proof.Fibonacci
import EduCpu16.Proof.Format
import EduCpu16.Proof.Formatter
import EduCpu16.Proof.Grammar
import EduCpu16.Proof.Hello
import EduCpu16.Proof.HelloTable
import EduCpu16.Proof.Image
import EduCpu16.Proof.Input
import EduCpu16.Proof.Installed
import EduCpu16.Proof.Labels
import EduCpu16.Proof.Lexer
import EduCpu16.Proof.LineEnds
import EduCpu16.Proof.Listing
import EduCpu16.Proof.Loader
import EduCpu16.Proof.Located
import EduCpu16.Proof.Message
import EduCpu16.Proof.Number
import EduCpu16.Proof.Observe
import EduCpu16.Proof.Output
import EduCpu16.Proof.Overlong
import EduCpu16.Proof.Parser
import EduCpu16.Proof.Pass1
import EduCpu16.Proof.Pass2
import EduCpu16.Proof.Passes
import EduCpu16.Proof.Position
import EduCpu16.Proof.Print
import EduCpu16.Proof.Programs
import EduCpu16.Proof.Reachable
import EduCpu16.Proof.Rejected
import EduCpu16.Proof.Relocate
import EduCpu16.Proof.Restyle
import EduCpu16.Proof.Scan
import EduCpu16.Proof.Simulation
import EduCpu16.Proof.SourceFile
import EduCpu16.Proof.Spread
import EduCpu16.Proof.Stack
import EduCpu16.Proof.Statement
import EduCpu16.Proof.Step
import EduCpu16.Proof.StepFrame
import EduCpu16.Proof.Summary
import EduCpu16.Proof.Symbols
import EduCpu16.Proof.Symtable
import EduCpu16.Proof.Timer
import EduCpu16.Proof.Toolchain
import EduCpu16.Proof.Turns
import EduCpu16.Proof.WellFormed
import EduCpu16.Source.Edit
import EduCpu16.Source.Format
import EduCpu16.Source.Grammar
import EduCpu16.Source.Literal
import EduCpu16.Source.Machine
import EduCpu16.Source.Number
import EduCpu16.Source.Print
import EduCpu16.Source.Programs
import EduCpu16.Source.Statement
import EduCpu16.Source.WellFormed
