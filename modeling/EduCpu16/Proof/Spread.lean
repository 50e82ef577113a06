import EduCpu16.Proof.Restyle
import Mathlib.Logic.Relation

/-!
# Layout and case do not matter

What the edits of a source leave: the commands at their addresses and the symbols, among which new
labels may have come (`Spread`). That is enough for the same words, because the names in use keep
their values (`Spread.assembled`), and it goes through any number of edits (`edits_spread`).

`Spread` is the invariant of the sequence. It says nothing of lines, so an edit that changes a line
into another text of the same statement is the identity here, and the others put a statement without
a command somewhere. Whether the new names have room in the table is asked at the end, of the source
that has them all.
-/

namespace EduCpu16
namespace Proof

open CLib Source

/-- The commands of a source at their addresses. -/
def commands (c : Nat) (ss : List Stmt) : List (Word × Cmd) :=
  ((placed c ss).map fun p => (p.1, p.2.cmd)).filter fun p => p.2 ≠ .nothing

/-- The same commands at the same addresses, and the same symbols with new names among them. The
last two fields keep what an assembler asks of the names, so that a source that was in order stays
so. -/
structure Spread (ss ss' : List Stmt) : Prop where
  sameCommands : commands 0 ss' = commands 0 ss
  sublist : (symbols ss).Sublist (symbols ss')
  ne_nil : (∀ d ∈ symbols ss, d.1 ≠ []) → ∀ d ∈ symbols ss', d.1 ≠ []
  nodup : ((symbols ss).map Prod.fst).Nodup → ((symbols ss').map Prod.fst).Nodup

theorem spread_refl (ss : List Stmt) : Spread ss ss :=
  ⟨rfl, List.Sublist.refl _, id, id⟩

theorem Spread.trans {ss ss' ss'' : List Stmt} (h : Spread ss ss') (h' : Spread ss' ss'') :
    Spread ss ss'' where
  sameCommands := h'.sameCommands.trans h.sameCommands
  sublist := h.sublist.trans h'.sublist
  ne_nil := h'.ne_nil ∘ h.ne_nil
  nodup := h'.nodup ∘ h.nodup

/-! ## Statements that are added or split

A statement without a command takes no words, so nothing behind it moves, and a label stands at the
address of the command behind it whether it shares its line or not. -/

theorem placed_append (c : Nat) (pre post : List Stmt) : placed c (pre ++ post) =
    placed c pre ++ placed (Layout.counter c (pre.map fun s => s.cmd.item)) post := by
  induction pre generalizing c with
  | nil => rfl
  | cons s pre ih =>
    rw [List.cons_append, placed, placed, ih]
    rfl

theorem commands_append (c : Nat) (pre post : List Stmt) : commands c (pre ++ post) =
    commands c pre ++ commands (Layout.counter c (pre.map fun s => s.cmd.item)) post := by
  rw [commands, placed_append, List.map_append, List.filter_append]
  rfl

theorem symbols_append (pre post : List Stmt) : symbols (pre ++ post) = symbols pre ++
    (placed (Layout.counter 0 (pre.map fun s => s.cmd.item)) post).flatMap
      fun p => p.2.defs p.1 := by
  rw [symbols, placed_append, List.flatMap_append]
  rfl

/-- A statement without a command does not move what follows. -/
theorem placed_nothing (c : Nat) (label : Bytes) (ss : List Stmt) :
    placed c ({ label := label } :: ss) = (BitVec.ofNat 16 c, { label := label }) :: placed c ss :=
  rfl

theorem commands_nothing (c : Nat) (label : Bytes) (ss : List Stmt) :
    commands c ({ label := label } :: ss) = commands c ss := by
  rw [commands, placed_nothing, List.map_cons, List.filter_cons_of_neg (by simp)]
  rfl

/-- A label that is new, or none. -/
theorem spread_label {pre post : List Stmt} {label : Bytes}
    (hfresh : label ≠ [] → label ∉ (pre ++ post).flatMap names) :
    Spread (pre ++ post) (pre ++ { label := label } :: post) := by
  have hsym := symbols_append pre post
  have hsym' := symbols_append pre ({ label := label } :: post)
  rw [placed_nothing, List.flatMap_cons] at hsym'
  by_cases hne : label = []
  · subst hne
    have hsame : symbols (pre ++ { label := [] } :: post) = symbols (pre ++ post) := by
      rw [hsym, hsym']
      rfl
    refine ⟨?_, hsame ▸ List.Sublist.refl _, fun h => hsame ▸ h, fun h => hsame ▸ h⟩
    rw [commands_append, commands_append, commands_nothing]
  · -- The new symbol stands somewhere among the old ones.
    generalize Layout.counter 0 (pre.map fun s => s.cmd.item) = c at hsym hsym'
    have hdefs : Stmt.defs { label := label } (BitVec.ofNat 16 c) =
        [(label, BitVec.ofNat 16 c)] := by
      simp [Stmt.defs, hne]
    simp only [hdefs] at hsym'
    have hno := hfresh hne
    rw [← symbols_names, hsym] at hno
    refine ⟨?_, ?_, ?_, ?_⟩
    · rw [commands_append, commands_append, commands_nothing]
    · rw [hsym, hsym']
      exact List.Sublist.append_left (List.sublist_cons_self _ _) _
    · rw [hsym, hsym']
      intro h d hd
      rcases List.mem_append.mp hd with hd | hd
      · exact h d (List.mem_append_left _ hd)
      · rcases List.mem_cons.mp hd with rfl | hd
        · exact hne
        · exact h d (List.mem_append_right _ hd)
    · rw [hsym, hsym']
      simp only [List.map_append, List.map_cons, List.singleton_append] at hno ⊢
      intro h
      exact List.nodup_middle.mpr (List.nodup_cons.mpr ⟨hno, h⟩)

theorem defs_split (label : Bytes) (cmd : Cmd) (addr : Word) :
    Stmt.defs { label := label } addr ++ Stmt.defs { cmd := cmd } addr =
      Stmt.defs ⟨label, cmd⟩ addr := by
  simp [Stmt.defs]

/-- A label before its command. -/
theorem spread_split {pre post : List Stmt} (s : Stmt) : Spread (pre ++ s :: post)
    (pre ++ { label := s.label } :: { cmd := s.cmd } :: post) := by
  obtain ⟨label, cmd⟩ := s
  have hsame : symbols (pre ++ { label := label } :: { cmd := cmd } :: post) =
      symbols (pre ++ ⟨label, cmd⟩ :: post) := by
    rw [symbols_append, symbols_append, placed_nothing, placed, placed, List.flatMap_cons,
      List.flatMap_cons, List.flatMap_cons, ← List.append_assoc (Stmt.defs _ _), defs_split]
  refine ⟨?_, hsame ▸ List.Sublist.refl _, fun h => hsame ▸ h, fun h => hsame ▸ h⟩
  rw [commands_append, commands_append, commands_nothing]
  congr 1

/-! ## Edits

An edit of lines is an edit of statements, and `Spread` is transitive, so any sequence of edits is
one `Spread`. -/

section Edits

variable {lines lines' : List Bytes} {ss : List Stmt}

/-- **One edit.** -/
theorem Edit.spread (h : Edit lines lines') (hss : List.Forall₂ ReadsAs lines ss) :
    ∃ ss', List.Forall₂ ReadsAs lines' ss' ∧ Spread ss ss' := by
  cases h with
  | blank hblank =>
    obtain ⟨ss₁, ss₂, rfl, h₁, h₂⟩ := Traverse.forall₂_append_left hss
    exact ⟨_, List.rel_append h₁ (.cons hblank.readsAs h₂), spread_label fun hne => absurd rfl hne⟩
  | line hedit =>
    obtain ⟨ss₁, ss₂, rfl, h₁, h₂⟩ := Traverse.forall₂_append_left hss
    obtain ⟨s, ss₃, hs, h₃, rfl⟩ := List.forall₂_cons_left_iff.mp h₂
    exact ⟨_, List.rel_append h₁ (.cons (hedit.readsAs hs) h₃), spread_refl _⟩
  | label hturn =>
    obtain ⟨ss₁, ss₂, rfl, h₁, h₂⟩ := Traverse.forall₂_append_left hss
    obtain ⟨s, ss₃, hs, h₃, rfl⟩ := List.forall₂_cons_left_iff.mp h₂
    obtain ⟨hlabel, hcmd⟩ := readsAs_split hturn hs
    exact ⟨_, List.rel_append h₁ (.cons hlabel (.cons hcmd h₃)), spread_split s⟩
  | fresh hlex hfresh =>
    rw [symbolNames_of_readsAs hss] at hfresh
    obtain ⟨ss₁, ss₂, rfl, h₁, h₂⟩ := Traverse.forall₂_append_left hss
    exact ⟨_, List.rel_append h₁ (.cons (readsAs_labelLine hlex) h₂), spread_label fun _ => hfresh⟩

/-- **Any edits.** -/
theorem edits_spread (h : Relation.ReflTransGen Edit lines lines')
    (hss : List.Forall₂ ReadsAs lines ss) :
    ∃ ss', List.Forall₂ ReadsAs lines' ss' ∧ Spread ss ss' := by
  induction h with
  | refl => exact ⟨ss, hss, spread_refl ss⟩
  | tail _ hedit ih =>
    obtain ⟨ss₁, hss₁, hspread⟩ := ih
    obtain ⟨ss₂, hss₂, hspread'⟩ := hedit.spread hss₁
    exact ⟨ss₂, hss₂, hspread.trans hspread'⟩

end Edits

/-! ## The same words

A command that assembles in an environment assembles to the same words in a larger one. The
environments are those of the two tables, and a name has the value of its one definition in both. -/

section Words

variable {env env' : Env} (henv : ∀ n a, env n = some a → env' n = some a)
include henv

/-- Names that keep their values keep their words. -/
theorem words_mono {c : Cmd} {addr : Word} {ws : List Word} (h : c.words env addr = some ws) :
    c.words env' addr = some ws := by
  have harg : ∀ {a a' : Arg}, a.resolve env = some a' → a.resolve env' = some a' := by
    intro a a' ha
    cases a with
    | name n =>
      obtain ⟨x, hx, rfl⟩ := Option.map_eq_some_iff.mp ha
      rw [Arg.resolve, henv n x hx]
      rfl
    | reg | imm => exact ha
  cases c with
  | instr m args =>
    obtain ⟨args', hres, hw⟩ := Option.bind_eq_some_iff.mp h
    have hres' : args.mapM (Arg.resolve env') = some args' :=
      Traverse.mapM_eq_some_iff.mpr ((Traverse.mapM_eq_some_iff.mp hres).imp fun _ _ => harg)
    rw [Cmd.words, hres', Option.bind_some]
    exact hw
  | word v =>
    obtain ⟨v', hv, hw⟩ := Option.map_eq_some_iff.mp h
    rw [Cmd.words, harg hv, Option.map_some]
    exact congrArg some hw
  | nothing | ascii | org | equ => exact h

end Words

/-- A name is found where it is defined, and nowhere else. -/
theorem envOf_insertAll {ops : List (Bytes × Word)}
    (hok : ∀ rc ∈ (insertAll symtableReset ops).1, rc = .ok)
    (hlen : ∀ op ∈ ops, op.1.length ≤ symNameMax) {n : Bytes} {a : Word} :
    envOf (insertAll symtableReset ops).2 n = some a ↔ (n, a) ∈ ops := by
  constructor
  · intro h
    by_cases hdef : ∃ op ∈ ops, op.1 = n
    · obtain ⟨⟨m, b⟩, hmem, rfl⟩ := hdef
      have hb := envOf_eq_some.mpr (symtableLookup_insertAll hok (hlen _ hmem) hmem)
      obtain rfl := Option.some.inj (hb.symm.trans h)
      exact hmem
    · have hnone := symtableLookup_insertAll_none hlen fun op hop heq => hdef ⟨op, hop, heq⟩
      rw [envOf_eq_none.mpr hnone] at h
      cases h
  · intro hmem
    exact envOf_eq_some.mpr (symtableLookup_insertAll hok (hlen _ hmem) hmem)

/-- The words of a source are those of its commands. -/
theorem stores_eq_commands (ss : List Stmt) : stores ss = (commands 0 ss).flatMap fun p =>
    storesOf (envOf (tableOf ss).2) (p.1, { cmd := p.2 }) := by
  rw [stores, commands]
  generalize envOf (tableOf ss).2 = env
  induction placed 0 ss with
  | nil => rfl
  | cons p ps ih =>
    obtain ⟨addr, label, cmd⟩ := p
    rw [List.flatMap_cons, List.map_cons, ih]
    by_cases hcmd : cmd = .nothing
    · subst hcmd
      rw [List.filter_cons_of_neg (by simp)]
      rfl
    · rw [List.filter_cons_of_pos (by simpa using hcmd)]
      rfl

theorem mem_commands {ss : List Stmt} {addr : Word} {c : Cmd} (hc : c ≠ .nothing) :
    (addr, c) ∈ commands 0 ss ↔ ∃ s, (addr, s) ∈ placed 0 ss ∧ s.cmd = c := by
  simp [commands, List.mem_filter, hc]

/-- **What is spread over more lines assembles to the same words**, when all names fit and there is
room for them. -/
theorem Spread.assembled {ss ss' : List Stmt} (h : Spread ss ss') (hass : Assembled ss)
    (hlen : ∀ d ∈ symbols ss', d.1.length ≤ symNameMax)
    (hcount : (symbols ss').length ≤ symCapacity) : Assembled ss' ∧ stores ss' = stores ss ∧
    ∀ d ∈ symbols ss, symtableLookup (tableOf ss').2 d.1 = symtableLookup (tableOf ss).2 d.1 := by
  have hlen₀ : ∀ d ∈ symbols ss, d.1.length ≤ symNameMax := fun d hd =>
    hlen d (h.sublist.subset hd)
  -- The new symbols are accepted too.
  have hcodes : ∀ rc ∈ (tableOf ss').1, rc = .ok := by
    obtain ⟨hne, hnodup, -⟩ := (insertAll_ok_iff hlen₀).mp hass.codes
    exact (insertAll_ok_iff hlen).mpr ⟨h.ne_nil hne, h.nodup hnodup, hcount⟩
  have hmono : ∀ n a, envOf (tableOf ss).2 n = some a → envOf (tableOf ss').2 n = some a := by
    intro n a ha
    exact (envOf_insertAll hcodes hlen).mpr
      (h.sublist.subset ((envOf_insertAll hass.codes hlen₀).mp ha))
  -- A command of the new source is one of the old.
  have hold : ∀ {addr : Word} {s : Stmt}, (addr, s) ∈ placed 0 ss' → s.cmd ≠ .nothing →
      ∃ s₀, (addr, s₀) ∈ placed 0 ss ∧ s₀.cmd = s.cmd := by
    intro addr s hp hc
    have hmem := (mem_commands hc).mpr ⟨s, hp, rfl⟩
    rw [h.sameCommands] at hmem
    exact (mem_commands hc).mp hmem
  have hwords : ∀ {addr : Word} {s : Stmt}, (addr, s) ∈ placed 0 ss → ∀ {c : Cmd}, s.cmd = c →
      ∃ ws, c.words (envOf (tableOf ss).2) addr = some ws ∧
        c.words (envOf (tableOf ss').2) addr = some ws := by
    intro addr s hp c hc
    obtain ⟨ws, hws⟩ := Option.isSome_iff_exists.mp (hass.words _ hp)
    have hws : s.cmd.words (envOf (tableOf ss).2) addr = some ws := hws
    rw [hc] at hws
    exact ⟨ws, hws, words_mono hmono hws⟩
  refine ⟨⟨?_, hcodes, ?_⟩, ?_, ?_⟩
  · intro s hs
    obtain ⟨addr, hp⟩ := exists_placed hs 0
    by_cases hc : s.cmd = .nothing
    · simp only [hc, Cmd.InRange]
    · obtain ⟨s₀, hp₀, hcmd⟩ := hold hp hc
      simp only [← hcmd]
      exact hass.inRange s₀ (mem_of_placed hp₀)
  · rintro ⟨addr, s⟩ hp
    by_cases hc : s.cmd = .nothing
    · simp only [hc]
      rfl
    · obtain ⟨s₀, hp₀, hcmd⟩ := hold hp hc
      obtain ⟨ws, -, hws⟩ := hwords hp₀ hcmd
      exact Option.isSome_iff_exists.mpr ⟨ws, hws⟩
  · rw [stores_eq_commands, stores_eq_commands, h.sameCommands]
    apply List.flatMap_congr
    intro p hp
    obtain ⟨addr, c⟩ := p
    have hc : c ≠ .nothing := by simpa using (List.mem_filter.mp hp).2
    obtain ⟨s, hs, hcmd⟩ := (mem_commands hc).mp hp
    obtain ⟨ws, hws, hws'⟩ := hwords hs hcmd
    simp only [storesOf, hws, hws']
  · rintro ⟨n, a⟩ hd
    rw [tableOf, tableOf, symtableLookup_insertAll hcodes (hlen₀ _ hd) (h.sublist.subset hd),
      symtableLookup_insertAll hass.codes (hlen₀ _ hd) hd]

/-! ## Sources

From statements back to lines, with the image and the symbols that the theorem speaks of. -/

/-- **Layout and case do not matter.** Edited in any of these ways any number of times, a source
that assembles still does, if its names fit and there is room for them: to the same image and the
same number of words, and with its symbols where they were. -/
theorem layout_and_case {opt : AsmOptions} {lines lines' : List Bytes}
    (h : Relation.ReflTransGen Edit lines lines')
    (hlen : ∀ n ∈ symbolNames lines', n.length ≤ symNameMax)
    (hcount : (symbolNames lines').length ≤ symCapacity) (hok : Assembles opt lines) :
    Assembles opt lines' ∧ imageOf opt lines' = imageOf opt lines ∧
    (assembleLines opt lines').result.nWords = (assembleLines opt lines).result.nWords ∧
    ∀ n ∈ symbolNames lines,
      symtableLookup (pass1 lines').sym n = symtableLookup (pass1 lines).sym n := by
  obtain ⟨ss, hss, hass⟩ := assembles_iff_statements.mp hok
  obtain ⟨ss', hss', hspread⟩ := edits_spread h hss
  rw [symbolNames_of_readsAs hss', ← symbols_names] at hlen hcount
  rw [List.forall_mem_map] at hlen
  rw [List.length_map] at hcount
  obtain ⟨hass', hstores, hlook⟩ := hspread.assembled hass hlen hcount
  have hok' : Assembles opt lines' := (assembles_iff_assembled hss').mpr hass'
  have hemit : emitted opt lines' = emitted opt lines := by
    rw [emitted_eq_stores hss' hok', emitted_eq_stores hss hok, hstores]
  refine ⟨hok', ?_, ?_, ?_⟩
  · rw [imageOf, imageOf, pass2_image, pass2_image, hemit]
  · rw [pass2_nWords, pass2_nWords, hemit]
  · intro n hn
    rw [symbolNames_of_readsAs hss, ← symbols_names] at hn
    obtain ⟨d, hd, rfl⟩ := List.mem_map.mp hn
    rw [(pass1_statements hss' (assembles_iff.mp hok').1).1,
      (pass1_statements hss (assembles_iff.mp hok).1).1]
    exact hlook d hd

/-- A label moved to its own line, a mnemonic in lower case, a comment and a new label. -/
theorem layout_and_case_loop :
    let lines := [ascii "L:MOV R1,2", ascii "JMP L"]
    let lines' := [ascii "L:", ascii "mov R1,2;two", ascii "M:", ascii "JMP L"]
    Assembles {} lines' ∧ imageOf {} lines' = imageOf {} lines ∧
    (assembleLines {} lines').result.nWords = (assembleLines {} lines).result.nWords ∧
    ∀ n ∈ symbolNames lines,
      symtableLookup (pass1 lines').sym n = symtableLookup (pass1 lines).sym n := by
  intro lines lines'
  have hsplit : Edit ([] ++ (ascii "L:" ++ ascii "MOV R1,2") :: [ascii "JMP L"])
      ([] ++ ascii "L:" :: ascii "MOV R1,2" :: [ascii "JMP L"]) :=
    .label (show turn _ = .token .label (ascii "L") _ from rfl)
  have hcase : EditLine ([] ++ ([] ++ (ascii "MOV" ++ ascii " R1,2")))
      ([] ++ ([] ++ (ascii "mov" ++ ascii " R1,2"))) :=
    .letters .here (fun _ h => absurd h List.not_mem_nil)
      (show turn _ = .token .ident (ascii "MOV") _ from rfl) (.inl rfl)
      (by unfold SameLetters; decide)
  have hcomment : EditLine (ascii "mov R1,2") (ascii "mov R1,2" ++ ch ';' :: ascii "two") :=
    .comment (by decide +kernel) _
  have hfresh : Edit ([ascii "L:", ascii "mov R1,2;two"] ++ [ascii "JMP L"])
      ([ascii "L:", ascii "mov R1,2;two"] ++ ascii "M:" :: [ascii "JMP L"]) :=
    .fresh (show lexLine (ascii "M:") 0 = (⟨[⟨.label, ascii "M"⟩], 0⟩, none) by decide +kernel)
      (by decide +kernel)
  have hedits : Relation.ReflTransGen Edit lines lines' :=
    .tail (.tail (.tail (.tail .refl hsplit)
      (show Edit ([ascii "L:"] ++ _ :: [ascii "JMP L"]) _ from .line hcase))
      (show Edit ([ascii "L:"] ++ _ :: [ascii "JMP L"]) _ from .line hcomment)) hfresh
  exact layout_and_case hedits (by decide +kernel) (by decide +kernel) (by decide +kernel)

end Proof
end EduCpu16
