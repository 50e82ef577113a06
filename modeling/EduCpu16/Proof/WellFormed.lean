import EduCpu16.Proof.Format
import EduCpu16.Proof.Spread
import EduCpu16.Proof.Relocate
import EduCpu16.Proof.Execute
import EduCpu16.Proof.CheckedEncoder
import EduCpu16.Source.WellFormed

/-!
# The assembler accepts the well-formed programs

Both directions at once: nothing that is not well formed gets through, and nothing that is well
formed is refused. What carries it is `fits_iff`, which says that the operands an operation wants
are those the encoder takes, and `envOf_tableOf`, that the table gives names the values of their
definitions.

The static semantics (`Source/WellFormed.lean`) speaks of values as integers and of targets as
distances; the encoder checks registers, immediates of 32 bits and an offset that it has computed.
The two are compared operand by operand, as lists of conditions (`Asks`), and not format by format.
-/

namespace EduCpu16
namespace Proof

open CLib Source

/-! ## Operands

An immediate of 32 bits that a name resolves to is an address, so as an integer it is the name's
value. -/

section Resolve

variable {env : Env} {a a' : Arg}

theorem toInt_setWidth_word (x : Word) : (x.setWidth 32 : I32).toInt = x.toNat := by
  have hlt := x.isLt
  rw [BitVec.toInt_eq_toNat_of_lt (by rw [BitVec.toNat_setWidth]; omega), BitVec.toNat_setWidth,
    Nat.mod_eq_of_lt (by omega)]

/-- A value is that of the immediate a name resolves to. -/
theorem value_resolve (h : a.resolve env = some a') :
    a.value env = if a'.operand.kind = .imm then some a'.operand.imm.toInt else none := by
  cases a with
  | reg r =>
    obtain rfl := Option.some.inj h
    rfl
  | imm v =>
    obtain rfl := Option.some.inj h
    rfl
  | name n =>
    obtain ⟨x, hx, rfl⟩ := Option.map_eq_some_iff.mp h
    simp only [Arg.value, hx, Option.map_some, Arg.operand, if_true, toInt_setWidth_word]

theorem isReg_resolve (h : a.resolve env = some a') : a'.operand.kind = .reg ↔ IsReg a := by
  cases a with
  | reg r =>
    obtain rfl := Option.some.inj h
    exact iff_of_true rfl ⟨r, rfl⟩
  | imm v =>
    obtain rfl := Option.some.inj h
    exact iff_of_false nofun (by rintro ⟨r, hr⟩; cases hr)
  | name n =>
    obtain ⟨x, -, rfl⟩ := Option.map_eq_some_iff.mp h
    exact iff_of_false nofun (by rintro ⟨r, hr⟩; cases hr)

theorem between_resolve (h : a.resolve env = some a') (base lo hi : Int) :
    Between env base lo hi a ↔ a'.operand.kind = .imm ∧ lo ≤ a'.operand.imm.toInt - base ∧
      a'.operand.imm.toInt - base ≤ hi := by
  rw [Between, value_resolve h]
  split
  case isTrue hk => simp [hk]
  case isFalse hk => simp [hk]

end Resolve

/-! ## Instructions

`wants` lists what an operation wants of its arguments, `takes` what the encoder asks of the
operands they resolve to. The lists are of the same length and agree entry by entry. -/

/-- What the encoder takes, operand by operand. -/
def takes (pc : Word) : Fmt → List (Operand → Prop)
  | .r3 => [(·.kind = .reg), (·.kind = .reg), (·.kind = .reg)]
  | .r2 | .rCmp => [(·.kind = .reg), (·.kind = .reg)]
  | .i3 => [(·.kind = .reg), (·.kind = .reg), immediate 0 (-16) 15]
  | .iMov => [(·.kind = .reg), immediate 0 (-16) 15]
  | .j => [immediate (pc.toNat + 1) (-1024) 1023]
  | .none => []
where
  immediate (base lo hi : Int) (o : Operand) : Prop :=
    o.kind = .imm ∧ lo ≤ o.imm.toInt - base ∧ o.imm.toInt - base ≤ hi

theorem fits_takes (m : Bytes) (as : List Arg) (pc : Word) (f : Fmt) :
    Fits (instrOf m as) pc f ↔ List.Forall₂ (fun p a => p a.operand) (takes pc f) as := by
  cases f with
  | r3 | i3 =>
    rcases as with _ | ⟨a, _ | ⟨b, _ | ⟨c, _ | ⟨d, as⟩⟩⟩⟩
    case cons.cons.cons.nil => simp [Fits, takes, takes.immediate, instrOf]
    all_goals simp [Fits, takes, instrOf]
  | r2 | rCmp | iMov =>
    rcases as with _ | ⟨a, _ | ⟨b, _ | ⟨c, as⟩⟩⟩
    case cons.cons.nil => simp [Fits, takes, takes.immediate, instrOf]
    all_goals simp [Fits, takes, instrOf]
  | j =>
    rcases as with _ | ⟨a, _ | ⟨b, as⟩⟩
    case cons.nil => simp [Fits, takes, takes.immediate, instrOf]
    all_goals simp [Fits, takes, instrOf]
  | none => cases as <;> simp [Fits, takes, instrOf]

section Fits

variable {env : Env} {args as : List Arg}

/-- A condition on operands that asks the same as one on arguments. What is asked for resolves: no
operation wants an argument whose name has no value. -/
structure Asks (env : Env) (p : Operand → Prop) (P : Arg → Prop) : Prop where
  resolves : ∀ a, P a → (a.resolve env).isSome = true
  same : ∀ a a', a.resolve env = some a' → (p a'.operand ↔ P a)

theorem asks_reg : Asks env (·.kind = .reg) IsReg where
  resolves := by
    rintro a ⟨r, rfl⟩
    rfl
  same := fun _ _ => isReg_resolve

theorem asks_between (base lo hi : Int) :
    Asks env (takes.immediate base lo hi) (Between env base lo hi) where
  resolves := by
    rintro a ⟨v, hv, -⟩
    cases a with
    | reg | imm => rfl
    | name n =>
      obtain ⟨x, hx, -⟩ := Option.map_eq_some_iff.mp hv
      rw [Arg.resolve, hx]
      rfl
  same := fun _ _ h => (between_resolve h base lo hi).symm

theorem asks_takes (env : Env) (pc : Word) (o : Opcode) :
    List.Forall₂ (Asks env) (takes pc (fmtOf o)) (wants env pc o) := by
  cases o with
  | add | sub | and | or | xor | shl | shr =>
    exact .cons asks_reg (.cons asks_reg (.cons asks_reg .nil))
  | not | cmp => exact .cons asks_reg (.cons asks_reg .nil)
  | addi | lw | sw => exact .cons asks_reg (.cons asks_reg (.cons (asks_between _ _ _) .nil))
  | mov => exact .cons asks_reg (.cons (asks_between _ _ _) .nil)
  | jmp | jeq | jne | jlt | jgt | call => exact .cons (asks_between _ _ _) .nil
  | ret | halt => exact .nil

theorem forall₂_asks {ps : List (Operand → Prop)} {Ps : List (Arg → Prop)}
    (h : List.Forall₂ (Asks env) ps Ps)
    (has : List.Forall₂ (fun a a' => Arg.resolve env a = some a') args as) :
    List.Forall₂ (fun p a => p a.operand) ps as ↔ List.Forall₂ (fun P a => P a) Ps args := by
  induction h generalizing args as with
  | nil => cases has <;> simp
  | cons hp _ ih =>
    cases has with
    | nil => simp
    | cons ha has => rw [List.forall₂_cons, List.forall₂_cons, hp.same _ _ ha, ih has]

/-- **What an operation wants is what the encoder takes.** -/
theorem fits_iff (has : args.mapM (Arg.resolve env) = some as) (m : Bytes) (pc : Word)
    (o : Opcode) : Fits (instrOf m as) pc (fmtOf o) ↔
      List.Forall₂ (fun P a => P a) (wants env pc o) args := by
  rw [fits_takes]
  exact forall₂_asks (asks_takes env pc o) (Traverse.mapM_eq_some_iff.mp has)

theorem resolves_of_wants {pc : Word} {o : Opcode}
    (h : List.Forall₂ (fun P a => P a) (wants env pc o) args) :
    (args.mapM (Arg.resolve env)).isSome = true := by
  rw [Traverse.isSome_mapM_iff]
  intro a ha
  obtain ⟨P, hP, hPa⟩ := Traverse.exists_left_of_mem h ha
  obtain ⟨p, -, hask⟩ := Traverse.exists_left_of_mem (asks_takes env pc o) hP
  exact hask.resolves a hPa

theorem words_instr_isSome {m : Bytes} (hregs : ∀ r, .reg r ∈ args → r.toNat < 8) (pc : Word) :
    (Cmd.words env pc (.instr m args)).isSome = true ↔ (Cmd.instr m args).WellFormed env pc := by
  constructor
  · intro h
    obtain ⟨ws, hws⟩ := Option.isSome_iff_exists.mp h
    obtain ⟨as, has, hw⟩ := Option.bind_eq_some_iff.mp hws
    have hok : (encodeInstr (instrOf m as) pc 0).1 = .ok := by
      by_contra hne
      cases (if_neg hne).symm.trans hw
    obtain ⟨d, hd, hfit⟩ := fits_of_encodeInstr_ok hok
    rw [findOp_eq] at hd
    obtain ⟨o, ho, rfl⟩ := Option.map_eq_some_iff.mp hd
    exact ⟨o, ho, (fits_iff has m pc o).mp hfit⟩
  · rintro ⟨o, ho, hwants⟩
    obtain ⟨as, has⟩ := Option.isSome_iff_exists.mp (resolves_of_wants hwants)
    have hd : findOp (instrOf m as).mnemonic = some (defOf o) := by
      rw [findOp_eq]
      exact congrArg (Option.map defOf) ho
    obtain ⟨w, hw, -⟩ := encodeInstr_of_fits (regsOk_resolved has m hregs) hd
      ((fits_iff has m pc o).mpr hwants) 0
    rw [Cmd.words, has, Option.bind_some]
    exact congrArg Option.isSome (if_pos (congrArg Prod.fst hw))

end Fits

/-! ## Statements that were read

Some conditions need not be asked, because no line spells a register above 7 or defines a name
without a character. -/

section Read

variable {src : Bytes} {s : Stmt}

theorem regs_of_readsAs (h : ReadsAs src s) {m : Bytes} {args : List Arg}
    (hcmd : s.cmd = .instr m args) : ∀ r, .reg r ∈ args → r.toNat < 8 := by
  obtain ⟨ts, -, -, hs⟩ := h
  obtain ⟨c, hc, rfl⟩ := Option.map_eq_some_iff.mp hs
  obtain ⟨head, rest, -, hargs⟩ := readCmd_instr (hc.trans (congrArg some hcmd))
  intro r hr
  obtain ⟨t, -, ht⟩ := Traverse.exists_left_of_mem (Traverse.mapM_eq_some_iff.mp hargs) hr
  unfold readArg at ht
  split at ht
  · obtain ⟨v, -, hv⟩ := Option.map_eq_some_iff.mp ht
    cases hv
  · cases hreg : parseRegister t.text with
    | none => simp [hreg] at ht
    | some r' =>
      rw [hreg] at ht
      obtain rfl := Arg.reg.inj (Option.some.inj ht)
      exact parseRegister_lt hreg
  · cases ht

theorem ident_ne_nil {text : Bytes} (h : WellSpelled ⟨.ident, text⟩) : text ≠ [] := by
  obtain ⟨hspelled, -⟩ := h
  rintro rfl
  cases hspelled

/-- What a statement defines has a name. -/
theorem defs_ne_nil (h : ReadsAs src s) (addr : Word) : ∀ d ∈ s.defs addr, d.1 ≠ [] := by
  obtain ⟨ts, hlex, -, hs⟩ := h
  have hspelled := (readStmt_tokens (wellSpelled_of_lexes hlex) hs).1
  obtain ⟨label, cmd⟩ := s
  intro d hd
  rcases List.mem_append.mp hd with hd | hd
  · split at hd
    · rename_i hne
      rw [List.mem_singleton.mp hd]
      exact hne
    · cases hd
  · cases cmd with
    | equ n v =>
      rw [List.mem_singleton.mp hd]
      apply ident_ne_nil (hspelled _ _)
      simp [Stmt.tokens, Cmd.tokens]
    | nothing | instr | word | ascii | org => cases hd

end Read

/-! ## Sources

The passes ask the table and the static semantics asks the definitions. For names that are distinct
and fit they get the same answers. -/

section Sources

variable {ss : List Stmt}

theorem valueOf_eq_some (h : ((symbols ss).map Prod.fst).Nodup) {n : Bytes} {a : Word} :
    valueOf ss n = some a ↔ (n, a) ∈ symbols ss := by
  rw [valueOf, Option.map_eq_some_iff]
  constructor
  · rintro ⟨⟨m, b⟩, hfind, rfl⟩
    obtain rfl : m = n := by simpa using List.find?_some hfind
    exact List.mem_of_find?_eq_some hfind
  · intro hmem
    cases hfind : (symbols ss).find? fun d => d.1 = n with
    | none => simpa using List.find?_eq_none.mp hfind _ hmem
    | some d =>
      have hd : d.1 = n := by simpa using List.find?_some hfind
      have := List.inj_on_of_nodup_map h (List.mem_of_find?_eq_some hfind) hmem hd
      exact ⟨d, rfl, congrArg Prod.snd this⟩

/-- **The table has the values of the definitions.** -/
theorem envOf_tableOf (hcodes : ∀ rc ∈ (tableOf ss).1, rc = .ok)
    (hlen : ∀ d ∈ symbols ss, d.1.length ≤ symNameMax)
    (hnodup : ((symbols ss).map Prod.fst).Nodup) : envOf (tableOf ss).2 = valueOf ss := by
  funext n
  apply Option.ext
  intro a
  rw [tableOf, envOf_insertAll hcodes hlen, valueOf_eq_some hnodup]

/-- A command has words exactly if it may stand there. -/
theorem words_isSome_iff {env : Env} {s : Stmt} {src : Bytes} (h : ReadsAs src s) (pc : Word) :
    (s.cmd.InRange ∧ (s.cmd.words env pc).isSome = true) ↔ s.cmd.WellFormed env pc := by
  cases hcmd : s.cmd with
  | instr m args =>
    rw [words_instr_isSome (regs_of_readsAs h hcmd)]
    exact and_iff_right trivial
  | word v =>
    cases v with
    | name n => simp [Cmd.InRange, Cmd.words, Cmd.WellFormed, Arg.resolve]
    | reg | imm => simp [Cmd.InRange, Cmd.words, Cmd.WellFormed, Arg.resolve]
  | org v => exact and_iff_left rfl
  | nothing | ascii | equ => exact iff_of_true ⟨trivial, rfl⟩ trivial

theorem assembled_iff_wellFormed {lines : List Bytes} (hss : List.Forall₂ ReadsAs lines ss)
    (hlen : ∀ d ∈ symbols ss, d.1.length ≤ symNameMax) : Assembled ss ↔ WellFormed ss := by
  have hread : ∀ p ∈ placed 0 ss, ∃ src, ReadsAs src p.2 := by
    intro p hp
    obtain ⟨src, -, hsrc⟩ := Traverse.exists_left_of_mem hss (mem_of_placed hp)
    exact ⟨src, hsrc⟩
  have hne : ∀ d ∈ symbols ss, d.1 ≠ [] := by
    intro d hd
    obtain ⟨p, hp, hdp⟩ := List.mem_flatMap.mp hd
    obtain ⟨src, hsrc⟩ := hread p hp
    exact defs_ne_nil hsrc p.1 d hdp
  -- No name is empty or cut, so the table refuses a name only as a repetition or when it is full.
  have hcodes : (∀ rc ∈ (tableOf ss).1, rc = .ok) ↔
      ((symbols ss).map Prod.fst).Nodup ∧ (symbols ss).length ≤ symCapacity :=
    (insertAll_ok_iff hlen).trans (and_iff_right hne)
  constructor
  · rintro ⟨hrange, hok, hwords⟩
    obtain ⟨hnodup, hroom⟩ := hcodes.mp hok
    rw [envOf_tableOf hok hlen hnodup] at hwords
    refine ⟨hnodup, hroom, ?_⟩
    intro p hp
    obtain ⟨src, hsrc⟩ := hread p hp
    exact (words_isSome_iff hsrc p.1).mp ⟨hrange p.2 (mem_of_placed hp), hwords p hp⟩
  · rintro ⟨hnodup, hroom, hcmds⟩
    have hok := hcodes.mpr ⟨hnodup, hroom⟩
    have hboth : ∀ p ∈ placed 0 ss, p.2.cmd.InRange ∧
        (p.2.cmd.words (envOf (tableOf ss).2) p.1).isSome = true := by
      intro p hp
      obtain ⟨src, hsrc⟩ := hread p hp
      rw [envOf_tableOf hok hlen hnodup]
      exact (words_isSome_iff hsrc p.1).mpr (hcmds p hp)
    refine ⟨?_, hok, fun p hp => (hboth p hp).2⟩
    intro s hs
    obtain ⟨addr, hp⟩ := exists_placed hs 0
    exact (hboth _ hp).1

/-- **The assembler accepts the well-formed programs**, and no others, as long as the names fit
their entries. The options have no part in it, and the statements of the lines are unique, so this
is a decision about the source. -/
theorem assembles_iff_wellFormed {opt : AsmOptions} {lines : List Bytes}
    (hlen : ∀ n ∈ symbolNames lines, n.length ≤ symNameMax) : Assembles opt lines ↔
      ∃ ss, List.Forall₂ ReadsAs lines ss ∧ WellFormed ss := by
  rw [assembles_iff_statements]
  apply exists_congr
  intro ss
  apply and_congr_right
  intro hss
  apply assembled_iff_wellFormed hss
  rw [symbolNames_of_readsAs hss, ← symbols_names, List.forall_mem_map] at hlen
  exact hlen

end Sources

/-- A jump ahead. -/
theorem assembles_iff_wellFormed_jump :
    ∃ ss, List.Forall₂ ReadsAs [ascii "JMP END", ascii "END: HALT"] ss ∧ WellFormed ss := by
  have hok : Assembles {} [ascii "JMP END", ascii "END: HALT"] := by decide
  exact (assembles_iff_wellFormed (by decide)).mp hok

end Proof
end EduCpu16
