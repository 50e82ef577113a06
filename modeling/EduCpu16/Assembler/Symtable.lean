import EduCpu16.Assembler.Errors
import EduCpu16.Isa
import Mathlib.Data.List.FinRange

/-!
# `symtable.c` — the fixed-size open-addressing symbol table

The static `table` and `count` are a record the operations pass along. Names are compared in
full but stored cut to `SYM_NAME_MAX` bytes.
-/

namespace EduCpu16

open CLib

/-- `SYM_CAPACITY`. -/
def symCapacity : Nat := 256

/-- `SYM_NAME_MAX`. -/
def symNameMax : Nat := 63

/-- `SYM_NOT_FOUND`, outside the range of a 16-bit address. -/
def symNotFound : BitVec 32 := 0xFFFFFFFF

structure Symbol where
  name : Bytes := []
  addr : Word := 0
  used : Bool := false
  deriving DecidableEq, Repr

structure Symtable where
  table : Fin symCapacity → Symbol
  count : Nat

/-- FNV-1a, 32 bits. -/
def hashName (s : Bytes) : BitVec 32 :=
  s.foldl (fun h c => (h ^^^ c.setWidth 32) * 16777619) 2166136261

def symtableReset : Symtable := ⟨fun _ => {}, 0⟩

/-- `(int)((h + (uint32_t)probe) % SYM_CAPACITY)`. -/
def probeIndex (h : BitVec 32) (probe : Nat) : Fin symCapacity :=
  ⟨(h + BitVec.ofNat 32 probe).toNat % symCapacity, Nat.mod_lt _ (by decide)⟩

/-- The probe loop of an insertion, over the probe numbers still to try. -/
def insertLoop (t : Symtable) (name : Bytes) (addr : Word) (h : BitVec 32) :
    List Nat → AsmError × Symtable
  | [] => (.internal, t)
  | probe :: rest =>
      let idx := probeIndex h probe
      let s := t.table idx
      if s.used = false then
        (.ok,
          { table := Function.update t.table idx
              { name := name.take symNameMax, addr := addr, used := true }
            count := t.count + 1 })
      -- The name looked for is whole, the stored one may have been cut.
      else if s.name = name then (.duplicateLabel, t)
      else insertLoop t name addr h rest

def symtableInsert (t : Symtable) (name : Bytes) (addr : Word) : AsmError × Symtable :=
  if name = [] then (.internal, t)
  else if symCapacity ≤ t.count then (.internal, t)
  else insertLoop t name addr (hashName name) (List.range symCapacity)

/-- The probe loop of a lookup. -/
def lookupLoop (t : Symtable) (name : Bytes) (h : BitVec 32) : List Nat → BitVec 32
  | [] => symNotFound
  | probe :: rest =>
      let s := t.table (probeIndex h probe)
      if s.used = false then symNotFound
      else if s.name = name then s.addr.setWidth 32
      else lookupLoop t name h rest

def symtableLookup (t : Symtable) (name : Bytes) : BitVec 32 :=
  if name = [] then symNotFound
  else lookupLoop t name (hashName name) (List.range symCapacity)

def symtableCount (t : Symtable) : Nat := t.count

/-- The names and addresses `symtable_dump` prints, in slot order. -/
def symtableDump (t : Symtable) : List (Bytes × Word) :=
  ((List.finRange symCapacity).map t.table).filterMap fun s =>
    if s.used then some (s.name, s.addr) else none

end EduCpu16
