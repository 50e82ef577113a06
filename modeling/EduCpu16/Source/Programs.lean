import EduCpu16.Lib.CString

/-!
# `programs/` — the sample programs

Line by line, without the comments.
-/

namespace EduCpu16
namespace Source

open CLib

/-- `hello.asm` up to its table. -/
def helloCode : List Bytes := [
  ascii "        .org 0x0000",
  ascii "        MOV  R0, 0",
  ascii "        MOV  R3, 15",
  ascii "        MOV  R2, 4",
  ascii "        SHL  R3, R3, R2",
  ascii "        MOV  R2, 15",
  ascii "        ADD  R3, R3, R2",
  ascii "        MOV  R2, 8",
  ascii "        SHL  R3, R3, R2",
  ascii "        MOV  R4, 1",
  ascii "        MOV  R2, 8",
  ascii "        SHL  R4, R4, R2",
  ascii "NEXT:",
  ascii "        LW   R1, R4, 0",
  ascii "        CMP  R1, R0",
  ascii "        JEQ  DONE",
  ascii "        SW   R1, R3, 0",
  ascii "        ADDI R4, R4, 1",
  ascii "        JMP  NEXT",
  ascii "DONE:",
  ascii "        HALT"]

/-- `fibonacci.asm`. -/
def fibonacci : List Bytes := [
  ascii "        MOV  R0, 0",
  ascii "        MOV  R1, 0",
  ascii "        MOV  R2, 1",
  ascii "        MOV  R5, 10",
  ascii "        MOV  R4, 3",
  ascii "        MOV  R6, 8",
  ascii "        SHL  R4, R4, R6",
  ascii "LOOP:",
  ascii "        SW   R1, R4, 0",
  ascii "        ADDI R4, R4, 1",
  ascii "        ADD  R3, R1, R2",
  ascii "        ADD  R1, R2, R0",
  ascii "        ADD  R2, R3, R0",
  ascii "        ADDI R5, R5, -1",
  ascii "        CMP  R5, R0",
  ascii "        JNE  LOOP",
  ascii "        HALT"]

/-- `timer_example.asm`. -/
def timerExample : List Bytes := [
  ascii "        MOV  R1, 15",
  ascii "        MOV  R2, 4",
  ascii "        SHL  R1, R1, R2",
  ascii "        MOV  R2, 15",
  ascii "        ADD  R1, R1, R2",
  ascii "        MOV  R2, 8",
  ascii "        SHL  R1, R1, R2",
  ascii "        LW   R0, R1, 2",
  ascii "        ADDI R0, R0, 15",
  ascii "        ADDI R0, R0, 15",
  ascii "        ADDI R0, R0, 12",
  ascii "        MOV  R3, 2",
  ascii "        MOV  R2, 8",
  ascii "        SHL  R3, R3, R2",
  ascii "        SW   R0, R3, 0",
  ascii "        HALT"]

end Source
end EduCpu16
