import EduCpu16.Proof.Addresses

/-!
# Moving a source

A source without `.org`, put behind one: its statements, its labels and its words move by the origin
(`placed_add`, `symbols_move`), and its jumps stay what they are because they are relative
(`jumpOffset_add`). What does not move is found by name, and the table finds names whole but keeps
them cut: a name of 63 bytes may turn out to be the beginning of a longer label, and then its value
moves too.

The module is on statements; `Position.lean` carries it to sources. Symbols are marked by whether
they move, and by `tableFor_uniform` the table of the marks tells which entry a name ends at for all
origins at once (`FindsLabel`).
-/

namespace EduCpu16
namespace Proof

open CLib Source

/-! ## Statements that are moved

A symbol carries a mark that says whether it moves: a label does, a constant does not. `move k`
turns a marked address into the one it has behind the origin `k`, so there is one list of symbols
for all origins. -/

/-- The symbols of a statement, those that move with it marked. -/
def marks (s : Stmt) (addr : Word) : List (Bytes × Bool × Word) :=
  (if s.label ≠ [] then [(s.label, true, addr)] else []) ++
  match s.cmd with
  | .equ n v => [(n, false, v.setWidth 16)]
  | _ => []

def marked (ss : List Stmt) : List (Bytes × Bool × Word) :=
  (placed 0 ss).flatMap fun p => marks p.2 p.1

/-- An address after a move by `k`. -/
def move (k : Word) (x : Bool × Word) : Word := if x.1 then x.2 + k else x.2

/-- The mark itself. -/
def mark (x : Bool × Word) : Word := if x.1 then 1 else 0

def NoOrg (ss : List Stmt) : Prop := ∀ s ∈ ss, ∀ v, s.cmd ≠ .org v

/-- The number of words of the statements. -/
def wordCount (ss : List Stmt) : Nat := (ss.map fun s => s.cmd.item.size).sum

theorem defs_move (s : Stmt) (addr k : Word) :
    s.defs (addr + k) = (marks s addr).map (Prod.map id (move k)) := by
  obtain ⟨label, cmd⟩ := s
  by_cases hl : label = [] <;> cases cmd <;> simp [Stmt.defs, marks, move, hl]

section NoOrg

variable {ss : List Stmt} (hno : NoOrg ss)
include hno

theorem NoOrg.next {s : Stmt} (hs : s ∈ ss) (c : Nat) :
    s.cmd.item.next c = c + s.cmd.item.size := by
  have hcmd := hno s hs
  obtain ⟨label, cmd⟩ := s
  cases cmd with
  | org v => exact absurd rfl (hcmd v)
  | nothing | instr | word | ascii | equ => rfl

omit hno in
theorem NoOrg.tail {s : Stmt} {ss : List Stmt} (hno : NoOrg (s :: ss)) : NoOrg ss :=
  fun s' hs' => hno s' (List.mem_cons_of_mem _ hs')

/-- Without an origin, the statements move as a whole. -/
theorem placed_add (k c : Nat) : placed (c + k) ss =
    (placed c ss).map fun p => (p.1 + BitVec.ofNat 16 k, p.2) := by
  induction ss generalizing c with
  | nil => rfl
  | cons s ss ih =>
    have hnext : s.cmd.item.next (c + k) = s.cmd.item.next c + k := by
      rw [hno.next List.mem_cons_self, hno.next List.mem_cons_self]
      omega
    rw [placed, placed, hnext, ih hno.tail, List.map_cons, BitVec.ofNat_add]

theorem symbols_move (k : Nat) : ((placed k ss).flatMap fun p => p.2.defs p.1) =
    (marked ss).map (Prod.map id (move (BitVec.ofNat 16 k))) := by
  have hplaced := placed_add hno k 0
  rw [Nat.zero_add] at hplaced
  rw [hplaced, List.flatMap_map, marked, List.map_flatMap]
  simp only [defs_move]

/-- Where a statement stands. -/
theorem placed_within {c : Nat} {p : Word × Stmt} (hp : p ∈ placed c ss) :
    ∃ j, p.1 = BitVec.ofNat 16 j ∧ c ≤ j ∧ j + p.2.cmd.item.size ≤ c + wordCount ss := by
  induction ss generalizing c with
  | nil => exact absurd hp List.not_mem_nil
  | cons s ss ih =>
    have hsize : wordCount (s :: ss) = s.cmd.item.size + wordCount ss := rfl
    rcases List.mem_cons.mp hp with rfl | hp
    · exact ⟨c, rfl, Nat.le_refl c, by simp only [hsize]; omega⟩
    · obtain ⟨j, hj, hlow, hhigh⟩ := ih hno.tail hp
      rw [hno.next List.mem_cons_self] at hlow hhigh
      exact ⟨j, hj, by omega, by omega⟩

end NoOrg

/-- The marked symbols of a source are its labels, at their addresses. -/
theorem mem_marked_label {ss : List Stmt} {n : Bytes} {a : Word} :
    (n, true, a) ∈ marked ss ↔ n ≠ [] ∧ ∃ s, (a, s) ∈ placed 0 ss ∧ s.label = n := by
  have hone : ∀ (s : Stmt) (addr : Word),
      (n, true, a) ∈ marks s addr ↔ n ≠ [] ∧ a = addr ∧ s.label = n := by
    rintro ⟨label, cmd⟩ addr
    cases cmd <;> by_cases hl : label = [] <;> simp [marks, hl] <;> grind
  simp only [marked, List.mem_flatMap, hone]
  constructor
  · rintro ⟨⟨addr, s⟩, hp, hn, rfl, hl⟩
    exact ⟨hn, s, hp, hl⟩
  · rintro ⟨hn, s, hp, hl⟩
    exact ⟨(a, s), hp, hn, rfl, hl⟩

/-! ## The names of a source that is moved

The table of the marks has its entries where the table of the addresses has them, because the
position of an entry depends on the name only. So whether a name moves can be asked before the
origin is known. -/

section Env

variable (ss : List Stmt)

/-- A name is found at the entry of a label. -/
def FindsLabel (n : Bytes) : Prop := envOf (tableFor (marked ss) mark).2 n = some 1

/-- What a source gives its names when it starts at `k`. -/
def envAt (k : Word) : Env := envOf (tableFor (marked ss) (move k)).2

variable {ss}

theorem envAt_zero (hno : NoOrg ss) : envAt ss 0 = envOf (tableOf ss).2 := by
  rw [envAt, tableFor, show (0 : Word) = BitVec.ofNat 16 0 from rfl, ← symbols_move hno 0]
  rfl

theorem envAt_of_not_findsLabel {n : Bytes} (h : ¬ FindsLabel ss n) (k : Word) :
    envAt ss k n = envAt ss 0 n := by
  rcases (tableFor_uniform (marked ss)).2 n with hnone | ⟨⟨m, b, a⟩, -, -, hfound⟩
  · rw [envAt, envAt, hnone, hnone]
  · cases b with
    | true => exact absurd (hfound mark) h
    | false =>
      rw [envAt, envAt, hfound, hfound]
      rfl

theorem envAt_of_findsLabel {n : Bytes} (h : FindsLabel ss n) : ∃ a m, (m, true, a) ∈ marked ss ∧
    m.take symNameMax = n ∧ ∀ k, envAt ss k n = some (a + k) := by
  rcases (tableFor_uniform (marked ss)).2 n with hnone | ⟨⟨m, b, a⟩, hmem, hcut, hfound⟩
  · rw [FindsLabel, hnone] at h
    cases h
  · cases b with
    | true => exact ⟨a, m, hmem, hcut, fun k => hfound (move k)⟩
    | false =>
      rw [FindsLabel, hfound] at h
      cases h

/-- A label that fits is found, when the symbols of the source are accepted. -/
theorem findsLabel_of_label (hno : NoOrg ss) (hcodes : ∀ rc ∈ (tableOf ss).1, rc = .ok)
    {n : Bytes} {a : Word} (hmem : (n, true, a) ∈ marked ss) (hlen : n.length ≤ symNameMax) :
    FindsLabel ss n := by
  have hsym := symbols_move hno 0
  have hok : ∀ rc ∈ (tableFor (marked ss) mark).1, rc = .ok := by
    rw [(tableFor_uniform (marked ss)).1 mark (move (BitVec.ofNat 16 0)), tableFor, ← hsym]
    exact hcodes
  refine envOf_eq_some.mpr (symtableLookup_insertAll hok hlen ?_)
  exact List.mem_map_of_mem (f := Prod.map id mark) hmem

end Env

/-! ## Words that stay

A command keeps its words if it is a jump to a name that moves with it, or anything else whose names
keep their values. Here the origin must leave room: an address that wrapped around would change the
distance of a jump. -/

def IsJump (i : Instr) : Prop := (findOp i.mnemonic).map OpDef.fmt = some .j

instance decidableIsJump (i : Instr) : Decidable (IsJump i) := inferInstanceAs (Decidable (_ = _))

/-- The names a command uses otherwise than to jump. -/
def OutsideJumps : Cmd → Bytes → Prop
  | .instr m args, n => ¬ IsJump (instrOf m args) ∧ .name n ∈ args
  | .word v, n => v = .name n
  | _, _ => False

/-- A command that uses a name so takes one word. -/
theorem OutsideJumps.size_eq {c : Cmd} {n : Bytes} (h : OutsideJumps c n) : c.item.size = 1 := by
  cases c with
  | instr | word => rfl
  | nothing | ascii | org | equ => exact h.elim

theorem OutsideJumps.words_eq {c : Cmd} {n : Bytes} (h : OutsideJumps c n) {env : Env} {pc : Word}
    (hsome : (c.words env pc).isSome = true) : ∃ w, c.words env pc = some [w] := by
  obtain ⟨ws, hws⟩ := Option.isSome_iff_exists.mp hsome
  cases c with
  | instr m args =>
    obtain ⟨as, -, hw⟩ := Option.bind_eq_some_iff.mp hws
    obtain ⟨-, hw⟩ := Option.ite_none_right_eq_some.mp hw
    exact ⟨_, hws.trans hw.symm⟩
  | word v =>
    obtain ⟨v', -, hw⟩ := Option.map_eq_some_iff.mp hws
    exact ⟨_, hws.trans (congrArg some hw.symm)⟩
  | nothing | ascii | org | equ => exact h.elim

/-- A jump is relative. -/
theorem jumpOffset_add {t pc k : Word} (ht : t.toNat + k.toNat < 65536)
    (hpc : pc.toNat + k.toNat < 65536) :
    jumpOffset ((t + k).setWidth 32) (pc + k) = jumpOffset (t.setWidth 32) pc := by
  have hadd : ∀ x : Word, x.toNat + k.toNat < 65536 →
      ((x + k).setWidth 32 : I32) = x.setWidth 32 + k.setWidth 32 := by
    intro x hx
    apply BitVec.eq_of_toNat_eq
    simp only [BitVec.toNat_setWidth, BitVec.toNat_add]
    omega
  rw [jumpOffset, jumpOffset, hadd t ht, hadd pc hpc]
  generalize (t.setWidth 32 : I32) = a
  generalize (pc.setWidth 32 : I32) = b
  generalize (k.setWidth 32 : I32) = c
  bv_omega

/-- Only a jump is encoded by its address. -/
theorem encodeInstr_addr {i : Instr} (h : ¬ IsJump i) (pc pc' out : Word) :
    encodeInstr i pc out = encodeInstr i pc' out := by
  unfold encodeInstr
  rw [IsJump] at h
  cases hd : findOp i.mnemonic with
  | none => rfl
  | some d =>
    rw [hd] at h
    cases hfmt : d.fmt
    case j => exact absurd (congrArg some hfmt) h
    all_goals simp only [hfmt]

/-- An accepted jump has one operand. -/
theorem jump_nops {i : Instr} {pc out : Word} (h : IsJump i)
    (hok : (encodeInstr i pc out).1 = .ok) : i.nops = 1 := by
  obtain ⟨d, hd, hfit⟩ := fits_of_encodeInstr_ok hok
  rw [IsJump, hd, Option.map_some, Option.some.injEq] at h
  rw [h] at hfit
  exact hfit.1

theorem encodeInstr_jump_add {m : Bytes} {t pc k : Word}
    (h : IsJump (instrOf m [.imm (t.setWidth 32)])) (ht : t.toNat + k.toNat < 65536)
    (hpc : pc.toNat + k.toNat < 65536) (out : Word) :
    encodeInstr (instrOf m [.imm ((t + k).setWidth 32)]) (pc + k) out =
      encodeInstr (instrOf m [.imm (t.setWidth 32)]) pc out := by
  have hfind : (findOp m).map OpDef.fmt = some .j := h
  obtain ⟨d, hd, hfmt⟩ := Option.map_eq_some_iff.mp hfind
  simp [encodeInstr, instrOf, hd, hfmt, Arg.operand, jumpOffset_add ht hpc]

section Words

variable {env env' : Env} {pc k : Word} (hpc : pc.toNat + k.toNat < 65536)

theorem resolve_congr {args : List Arg} (h : ∀ n, .name n ∈ args → env' n = env n) :
    args.mapM (Arg.resolve env') = args.mapM (Arg.resolve env) := by
  apply Traverse.mapM_congr
  intro a ha
  cases a with
  | name n => rw [Arg.resolve, Arg.resolve, h n ha]
  | reg | imm => rfl

include hpc

/-- A jump to a name that moves with it. -/
theorem jump_words {m : Bytes} {args : List Arg} (hjump : IsJump (instrOf m args))
    (hargs : ∀ a ∈ args, ∃ n t, a = .name n ∧ env n = some t ∧ env' n = some (t + k) ∧
      t.toNat + k.toNat < 65536) {ws : List Word}
    (h : Cmd.words env pc (.instr m args) = some ws) :
    Cmd.words env' (pc + k) (.instr m args) = some ws := by
  obtain ⟨args', hres, h⟩ := Option.bind_eq_some_iff.mp h
  obtain ⟨hok, h⟩ := Option.ite_none_right_eq_some.mp h
  have hlen := (Traverse.mapM_eq_some_iff.mp hres).length_eq
  have hone : args'.length = 1 := jump_nops (i := instrOf m args') hjump hok
  -- One operand, and it is a name.
  obtain ⟨a, rfl⟩ := List.length_eq_one_iff.mp (hlen.trans hone)
  obtain ⟨n, t, rfl, henv, henv', ht⟩ := hargs a List.mem_cons_self
  have hres₀ : [Arg.name n].mapM (Arg.resolve env) = some [.imm (t.setWidth 32)] := by
    simp [Arg.resolve, henv]
  have hres' : [Arg.name n].mapM (Arg.resolve env') = some [.imm ((t + k).setWidth 32)] := by
    simp [Arg.resolve, henv']
  obtain rfl := Option.some.inj (hres.symm.trans hres₀)
  have henc := encodeInstr_jump_add (m := m) hjump ht hpc 0
  rw [Cmd.words, hres', Option.bind_some]
  simp only [henc, hok, if_true]
  exact h

omit hpc

/-- Anything else, if its names keep their values. -/
theorem other_words {c : Cmd} (hjump : ∀ m args, c = .instr m args → ¬ IsJump (instrOf m args))
    (hnames : ∀ n, OutsideJumps c n → env' n = env n) (pc' : Word) :
    c.words env' pc' = c.words env pc := by
  cases c with
  | instr m args =>
    have hno := hjump m args rfl
    have hres := resolve_congr fun n hn => hnames n ⟨hno, hn⟩
    rw [Cmd.words, Cmd.words, hres]
    congr 1
    funext args'
    have hno' : ¬ IsJump (instrOf m args') := hno
    simp only [encodeInstr_addr hno' pc' pc]
  | word v =>
    have hres : v.resolve env' = v.resolve env := by
      cases v with
      | name n => rw [Arg.resolve, Arg.resolve, hnames n rfl]
      | reg | imm => rfl
    rw [Cmd.words, Cmd.words, hres]
  | nothing | ascii | org | equ => rfl

end Words

/-! ## The statements behind an origin

The origin goes in front as a statement of its own. All symbols are inserted in the same order as
before, and each statement stands `k` higher. -/

/-- What a jump names is a label. -/
def JumpsToLabels (ss : List Stmt) : Prop := ∀ s ∈ ss, ∀ m args, s.cmd = .instr m args →
  IsJump (instrOf m args) → ∀ a ∈ args, ∃ n, a = .name n ∧ n ≠ [] ∧ n.length ≤ symNameMax ∧
    ∃ s' ∈ ss, s'.label = n

/-- `.org k` on a line of its own. -/
def orgStmt (k : I32) : Stmt := { cmd := .org k }

section Behind

variable {ss : List Stmt} (hno : NoOrg ss) {v : I32} {k : Word} (hv : BitVec.ofNat 16 v.toNat = k)
include hno hv

theorem tableOf_orgStmt : tableOf (orgStmt v :: ss) = tableFor (marked ss) (move k) := by
  rw [tableOf, tableFor, ← hv, ← symbols_move hno]
  rfl

theorem placed_orgStmt : placed 0 (orgStmt v :: ss) =
    (0, orgStmt v) :: (placed 0 ss).map fun p => (p.1 + k, p.2) := by
  have hadd := placed_add hno v.toNat 0
  rw [Nat.zero_add, hv] at hadd
  rw [placed, ← hadd]
  rfl

theorem wordsAt_orgStmt (h : Assembled (orgStmt v :: ss)) {p : Word × Stmt}
    (hp : p ∈ placed 0 ss) : (p.2.cmd.words (envAt ss k) (p.1 + k)).isSome = true := by
  have hsome := h.words (p.1 + k, p.2)
  rw [tableOf_orgStmt hno hv, placed_orgStmt hno hv] at hsome
  exact hsome (List.mem_cons_of_mem _ (List.mem_map_of_mem (f := fun p => (p.1 + k, p.2)) hp))

variable (hwords : ∀ p ∈ placed 0 ss,
  p.2.cmd.words (envAt ss k) (p.1 + k) = p.2.cmd.words (envAt ss 0) p.1)
include hwords

theorem assembled_orgStmt (hrange : (orgStmt v).cmd.InRange) (h : Assembled ss) :
    Assembled (orgStmt v :: ss) := by
  obtain ⟨hin, hcodes, hsome⟩ := h
  refine ⟨List.forall_mem_cons.mpr ⟨hrange, hin⟩, ?_, ?_⟩
  · have hsym := symbols_move hno 0
    rw [tableOf_orgStmt hno hv, (tableFor_uniform (marked ss)).1 _ (move (BitVec.ofNat 16 0)),
      tableFor, ← hsym]
    exact hcodes
  · rw [tableOf_orgStmt hno hv, placed_orgStmt hno hv]
    refine List.forall_mem_cons.mpr ⟨rfl, List.forall_mem_map.mpr fun p hp => ?_⟩
    have hp' := hsome p hp
    rw [← envAt_zero hno, ← hwords p hp] at hp'
    exact hp'

/-- The words move, and stay what they are. -/
theorem stores_orgStmt : stores (orgStmt v :: ss) = (stores ss).map (Prod.map (· + k) id) := by
  have hone : ∀ (a : Word) (ws : List Word),
      (wordsFrom (a + k) ws.length).zip ws =
        ((wordsFrom a ws.length).zip ws).map (Prod.map (· + k) id) := by
    intro a ws
    rw [← List.zip_map_left, wordsFrom, wordsFrom, List.map_map]
    congr 1
    apply List.map_congr_left
    intro i _
    simp only [Function.comp_apply]
    bv_omega
  rw [stores, stores, placed_orgStmt hno hv, tableOf_orgStmt hno hv, List.flatMap_cons,
    List.flatMap_map, List.map_flatMap, storesOf_none rfl, List.nil_append]
  apply List.flatMap_congr
  intro p hp
  have hp' := hwords p hp
  rw [envAt_zero hno] at hp'
  simp only [storesOf]
  rw [← hone, ← hp']
  rfl

end Behind

/-- Every statement keeps its words, if the names outside jumps keep their values. -/
theorem words_move {ss : List Stmt} (hno : NoOrg ss) (hass : Assembled ss)
    (hjumps : JumpsToLabels ss) {k : Word} (hk : k.toNat + wordCount ss ≤ 65535)
    {p : Word × Stmt} (hp : p ∈ placed 0 ss)
    (hnames : ∀ n, OutsideJumps p.2.cmd n → envAt ss k n = envAt ss 0 n) :
    p.2.cmd.words (envAt ss k) (p.1 + k) = p.2.cmd.words (envAt ss 0) p.1 := by
  obtain ⟨addr, label, cmd⟩ := p
  have hs : (⟨label, cmd⟩ : Stmt) ∈ ss := mem_of_placed hp
  by_cases hjump : ∃ m args, cmd = .instr m args ∧ IsJump (instrOf m args)
  · obtain ⟨m, args, rfl, hjump⟩ := hjump
    have hsome := hass.words _ hp
    rw [← envAt_zero hno] at hsome
    obtain ⟨ws, hws⟩ := Option.isSome_iff_exists.mp hsome
    have hws : Cmd.words (envAt ss 0) addr (.instr m args) = some ws := hws
    have hsmall : ∀ {s : Stmt} {a : Word}, (a, s) ∈ placed 0 ss → a.toNat + k.toNat < 65536 := by
      intro s a ha
      obtain ⟨j, hj, -, hle⟩ := placed_within hno ha
      have hj : a = BitVec.ofNat 16 j := hj
      rw [hj, BitVec.toNat_ofNat]
      omega
    show Cmd.words (envAt ss k) (addr + k) (.instr m args) = Cmd.words (envAt ss 0) addr _
    rw [hws]
    refine jump_words (hsmall hp) hjump (fun a ha => ?_) hws
    obtain ⟨n, rfl, hne, hlen, s', hs', hlabel⟩ := hjumps _ hs m args rfl hjump a ha
    obtain ⟨addr', hp'⟩ := exists_placed hs' 0
    -- The label is found, perhaps at the entry of a longer one.
    have hmem := mem_marked_label.mpr ⟨hne, s', hp', hlabel⟩
    obtain ⟨t, m', hmem', -, henv⟩ :=
      envAt_of_findsLabel (findsLabel_of_label hno hass.codes hmem hlen)
    obtain ⟨-, s₀, hp₀, -⟩ := mem_marked_label.mp hmem'
    exact ⟨n, t, rfl, (henv 0).trans (congrArg some (BitVec.add_zero t)), henv k, hsmall hp₀⟩
  · refine other_words (fun m args hcmd hj => hjump ⟨m, args, hcmd, hj⟩) hnames _

/-! ## Names that move outside jumps

The converse: a name that moves and is used otherwise is encoded as a number, and two numbers that
differ give two words. This is the injectivity of the encoder again, `sameInstr_of_word_eq`. -/

theorem regsOk_instrOf {m : Bytes} {args : List Arg} (h : ∀ r, .reg r ∈ args → r.toNat < 8) :
    RegsOk (instrOf m args) := by
  intro k hk
  cases ha : args[k.val]? with
  | none =>
    have hop : (instrOf m args).ops k = {} := by simp [instrOf, ha]
    rw [hop] at hk
    cases hk
  | some a =>
    have hof := instrOf_ops (m := m) ha
    cases a with
    | reg r =>
      rw [hof.2]
      exact h r (List.mem_of_getElem? ha)
    | imm => cases hof.1.symm.trans hk
    | name => cases hof.1.symm.trans hk

section Resolved

variable {env : Env} {args as : List Arg} (has : args.mapM (Arg.resolve env) = some as) (m : Bytes)
include has

theorem regsOk_resolved (h : ∀ r, .reg r ∈ args → r.toNat < 8) : RegsOk (instrOf m as) := by
  apply regsOk_instrOf
  intro r hr
  obtain ⟨a, ha, hres⟩ := Traverse.exists_left_of_mem (Traverse.mapM_eq_some_iff.mp has) hr
  cases a with
  | reg r' =>
    obtain rfl := Arg.reg.inj (Option.some.inj hres)
    exact h r' ha
  | imm v => cases hres
  | name n' =>
    obtain ⟨x, -, hx⟩ := Option.map_eq_some_iff.mp hres
    cases hx

/-- A name is encoded as an immediate, its value. -/
theorem argOf_resolved {j : Fin 3} {n : Bytes} {x : Word} (hname : args[j.val]? = some (.name n))
    (hx : env n = some x) : ArgOf ((instrOf m as).ops j) (.imm (x.setWidth 32)) := by
  have hall := Traverse.mapM_eq_some_iff.mp has
  have hj : j.val < as.length := hall.length_eq ▸ (List.getElem?_eq_some_iff.mp hname).1
  have hjb := List.getElem?_eq_getElem hj
  obtain ⟨a, ha, hres⟩ := Traverse.forall₂_getElem? hall hjb
  obtain rfl : a = .name n := Option.some.inj (ha.symm.trans hname)
  rw [Arg.resolve, hx, Option.map_some, Option.some.injEq] at hres
  exact instrOf_ops (hres ▸ hjb)

end Resolved

section Shifted

variable {env env' : Env} {n : Bytes} {t k : Word} (hk : k ≠ 0) (henv : env n = some t)
  (henv' : env' n = some (t + k))
include hk henv henv'

omit henv henv' in
theorem ne_add_of_ne_zero : t ≠ t + k := by
  intro h
  exact hk (by bv_omega)

/-- Two accepted instructions that differ in an immediate differ in their word. -/
theorem instr_word_ne {m : Bytes} {args : List Arg} (hregs : ∀ r, .reg r ∈ args → r.toNat < 8)
    (hjump : ¬ IsJump (instrOf m args)) (hmem : .name n ∈ args) {pc pc' w w' : Word}
    (hw : Cmd.words env pc (.instr m args) = some [w])
    (hw' : Cmd.words env' pc' (.instr m args) = some [w']) : w ≠ w' := by
  obtain ⟨as, has, hw⟩ := Option.bind_eq_some_iff.mp hw
  obtain ⟨as', has', hw'⟩ := Option.bind_eq_some_iff.mp hw'
  obtain ⟨hok, hw⟩ := Option.ite_none_right_eq_some.mp hw
  obtain ⟨hok', hw'⟩ := Option.ite_none_right_eq_some.mp hw'
  have hjump' : ¬ IsJump (instrOf m as') := hjump
  rw [encodeInstr_addr hjump' pc' pc] at hok' hw'
  rintro rfl
  have hword := (List.cons.inj (Option.some.inj (hw.trans hw'.symm))).1
  obtain ⟨d, hd, hfit, hdec⟩ := encodeInstr_spec (regsOk_resolved has m hregs) hok
  obtain ⟨d', hd', hfit', hdec'⟩ := encodeInstr_spec (regsOk_resolved has' m hregs) hok'
  obtain ⟨-, -, hsame⟩ := sameInstr_of_word_eq hd hd' hfit hfit' hdec (hword ▸ hdec')
  -- The name is one of at most three operands.
  obtain ⟨j, hj, hname⟩ := List.getElem_of_mem hmem
  have hlen := (Traverse.mapM_eq_some_iff.mp has).length_eq
  have hjn : j < (instrOf m as).nops := Nat.lt_of_lt_of_eq hj hlen
  have hj3 : j < 3 := Nat.lt_of_lt_of_le hjn hfit.nops_le
  have hat : args[(⟨j, hj3⟩ : Fin 3).val]? = some (.name n) :=
    (List.getElem?_eq_getElem hj).trans (congrArg some hname)
  obtain ⟨-, hvalue⟩ := hsame ⟨j, hj3⟩ hjn
  obtain ⟨hk₁, himm₁⟩ := argOf_resolved has m hat henv
  obtain ⟨hk₂, himm₂⟩ := argOf_resolved has' m hat henv'
  simp only [operandValue, hk₁, hk₂, himm₁, himm₂] at hvalue
  exact ne_add_of_ne_zero hk (setWidth_injective (BitVec.eq_of_toInt_eq hvalue))

/-- Anything but a jump that uses the name gets another word. -/
theorem outside_word_ne {c : Cmd} (hregs : ∀ m args, c = .instr m args →
    ∀ r, .reg r ∈ args → r.toNat < 8) (hout : OutsideJumps c n) {pc pc' w w' : Word}
    (hw : c.words env pc = some [w]) (hw' : c.words env' pc' = some [w']) : w ≠ w' := by
  cases c with
  | instr m args => exact instr_word_ne hk henv henv' (hregs m args rfl) hout.1 hout.2 hw hw'
  | word v =>
    obtain rfl : v = .name n := hout
    simp only [Cmd.words, Arg.resolve, henv, henv', Option.map_some, Arg.operand, setWidth_back,
      Option.some.injEq, List.cons.injEq, and_true] at hw hw'
    rw [← hw, ← hw']
    exact ne_add_of_ne_zero hk
  | nothing | ascii | org | equ => exact hout.elim

end Shifted

end Proof
end EduCpu16
