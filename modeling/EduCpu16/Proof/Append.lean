import EduCpu16.Proof.WellFormed

/-!
# What is appended

A source followed by more lines. Pass 1 goes through the lines from the front, so a line does not
see what stands behind it, but for one thing: pass 2 starts from the whole table, and a name may be
defined further down. Hence `front_assembles_iff`: of a source that assembles, the front assembles
on its own exactly if it defines all names it uses, and then to the words it had.

Conversely, lines that define nothing can be put behind a program and be checked with its names
(`wellFormed_behind`). Both rest on `wellFormed_congr`: whether a command may stand somewhere
depends on the names it uses and no others.
-/

namespace EduCpu16
namespace Proof

open CLib Source

/-! ## The names of a command

Whether a command is well formed depends on the values of the names it uses, and on no others. -/

section Uses

variable {env env' : Env}

theorem mem_uses_instr {m n : Bytes} {args : List Arg} :
    n ∈ (Cmd.instr m args).uses ↔ .name n ∈ args := by
  simp only [Cmd.uses, List.mem_filterMap]
  constructor
  · rintro ⟨a, ha, hn⟩
    cases a with
    | name n' =>
      obtain rfl := Option.some.inj hn
      exact ha
    | reg | imm => cases hn
  · intro h
    exact ⟨_, h, rfl⟩

theorem wants_congr {pc : Word} {o : Opcode} {args : List Arg}
    (h : ∀ n, .name n ∈ args → env n = env' n)
    (hargs : List.Forall₂ (fun P a => P a) (wants env pc o) args) :
    List.Forall₂ (fun P a => P a) (wants env' pc o) args := by
  obtain ⟨as, has⟩ := Option.isSome_iff_exists.mp (resolves_of_wants hargs)
  have has' : args.mapM (Arg.resolve env') = some as := by
    rw [resolve_congr fun n hn => (h n hn).symm]
    exact has
  exact (fits_iff has' [] pc o).mp ((fits_iff has [] pc o).mpr hargs)

/-- **Only the names that are used matter.** -/
theorem wellFormed_congr {c : Cmd} {pc : Word} (h : ∀ n ∈ c.uses, env n = env' n)
    (hc : c.WellFormed env pc) : c.WellFormed env' pc := by
  cases c with
  | instr m args =>
    obtain ⟨o, ho, hargs⟩ := hc
    exact ⟨o, ho, wants_congr (fun n hn => h n (mem_uses_instr.mpr hn)) hargs⟩
  | word v =>
    rintro n rfl
    rw [← h n List.mem_cons_self]
    exact hc n rfl
  | nothing | ascii | org | equ => exact hc

/-- And they have values. -/
theorem isSome_of_uses {c : Cmd} {pc : Word} (hc : c.WellFormed env pc) {n : Bytes}
    (hn : n ∈ c.uses) : (env n).isSome = true := by
  cases c with
  | instr m args =>
    obtain ⟨o, -, hargs⟩ := hc
    have hall := Traverse.isSome_mapM_iff.mp (resolves_of_wants hargs)
    have hname := hall _ (mem_uses_instr.mp hn)
    rwa [Arg.resolve, Option.isSome_map] at hname
  | word v =>
    cases v with
    | name n' =>
      obtain rfl := List.mem_singleton.mp hn
      exact hc n rfl
    | reg | imm => cases hn
  | nothing | ascii | org | equ => cases hn

end Uses

/-! ## What stands in front

A definition in the front is a definition of the whole, and as no name of a well-formed source is
defined twice, its value is the same in both (`valueOf_front`). The words are compared through
`envOf`, which answers a lookup as the table does; the bound on the lengths keeps the names of the
back from answering for those of the front. -/

section Front

variable {ss ts : List Stmt}

theorem symbols_front (ss ts : List Stmt) : (symbols ss).Sublist (symbols (ss ++ ts)) := by
  rw [symbols_append]
  exact List.sublist_append_left _ _

theorem valueOf_front {n : Bytes} (hn : n ∈ (symbols ss).map Prod.fst) :
    valueOf (ss ++ ts) n = valueOf ss n := by
  obtain ⟨d, hd, rfl⟩ := List.mem_map.mp hn
  have hsome : ((symbols ss).find? fun d' => d'.1 = d.1).isSome = true :=
    List.find?_isSome.mpr ⟨d, hd, decide_eq_true rfl⟩
  rw [valueOf, valueOf, symbols_append, List.find?_append, Option.or_of_isSome hsome]

theorem isSome_valueOf {n : Bytes} :
    (valueOf ss n).isSome = true ↔ n ∈ (symbols ss).map Prod.fst := by
  rw [valueOf, Option.isSome_map, List.find?_isSome]
  simp

theorem mem_placed_front {p : Word × Stmt} (hp : p ∈ placed 0 ss) : p ∈ placed 0 (ss ++ ts) := by
  rw [placed_append]
  exact List.mem_append_left _ hp

/-- The front is well formed on its own exactly if it defines all names it uses. -/
theorem wellFormed_front (h : WellFormed (ss ++ ts)) : WellFormed ss ↔
    ∀ s ∈ ss, ∀ n ∈ s.cmd.uses, n ∈ (symbols ss).map Prod.fst := by
  constructor
  · intro hss s hs n hn
    obtain ⟨addr, hp⟩ := exists_placed hs 0
    exact isSome_valueOf.mp (isSome_of_uses (hss.commands _ hp) hn)
  · intro huses
    have hsub := symbols_front ss ts
    refine ⟨h.once.sublist (hsub.map _), Nat.le_trans hsub.length_le h.room, ?_⟩
    intro p hp
    refine wellFormed_congr ?_ (h.commands p (mem_placed_front hp))
    intro n hn
    exact valueOf_front (huses _ (mem_of_placed hp) n hn)

/-- What assembles keeps its words when more comes behind. -/
theorem stores_front (h : Assembled ss) (h' : Assembled (ss ++ ts))
    (hlen : ∀ d ∈ symbols (ss ++ ts), d.1.length ≤ symNameMax) :
    stores (ss ++ ts) = stores ss ++
      (placed (Layout.counter 0 (ss.map fun s => s.cmd.item)) ts).flatMap
        (storesOf (envOf (tableOf (ss ++ ts)).2)) := by
  have hsub := symbols_front ss ts
  have hmono : ∀ n a, envOf (tableOf ss).2 n = some a →
      envOf (tableOf (ss ++ ts)).2 n = some a := by
    intro n a hn
    rw [tableOf, envOf_insertAll h.codes fun d hd => hlen d (hsub.subset hd)] at hn
    exact (envOf_insertAll h'.codes hlen).mpr (hsub.subset hn)
  rw [stores, stores, placed_append, List.flatMap_append]
  congr 1
  apply List.flatMap_congr
  intro p hp
  obtain ⟨ws, hws⟩ := Option.isSome_iff_exists.mp (h.words p hp)
  rw [storesOf, storesOf, hws, words_mono hmono hws]

section Behind

variable (hno : ∀ s ∈ ts, ∀ addr, s.defs addr = [])
include hno

theorem symbols_behind : symbols (ss ++ ts) = symbols ss := by
  rw [symbols_append, List.append_right_eq_self, List.flatMap_eq_nil_iff]
  intro p hp
  exact hno p.2 (mem_of_placed hp) p.1

/-- **Lines that define nothing** are checked with the names in front of them. -/
theorem wellFormed_behind (hss : WellFormed ss)
    (hcmds : ∀ p ∈ placed (Layout.counter 0 (ss.map fun s => s.cmd.item)) ts,
      p.2.cmd.WellFormed (valueOf ss) p.1) : WellFormed (ss ++ ts) := by
  have hsame : symbols (ss ++ ts) = symbols ss := symbols_behind hno
  have hvalue : valueOf (ss ++ ts) = valueOf ss := by
    funext n
    rw [valueOf, valueOf, hsame]
  refine ⟨hsame ▸ hss.once, hsame ▸ hss.room, ?_⟩
  rw [hvalue, placed_append]
  intro p hp
  rcases List.mem_append.mp hp with hp | hp
  · exact hss.commands p hp
  · exact hcmds p hp

end Behind

end Front

/-! ## Sources

From statements back to lines; the names that lines define and use are those of their statements. -/

theorem lineUses_of_readsAs {src : Bytes} {s : Stmt} (h : ReadsAs src s) :
    lineUses src = s.cmd.uses := by
  obtain ⟨ts, hts, hmax, hread⟩ := h
  have hlex : lexLine src 1 = (⟨ts, 1⟩, none) := lexLine_iff.mpr ⟨rfl, hts, hmax⟩
  simp only [lineUses, hlex, hread, Option.elim_some]

theorem usedNames_of_readsAs {lines : List Bytes} {ss : List Stmt}
    (h : List.Forall₂ ReadsAs lines ss) : usedNames lines = ss.flatMap fun s => s.cmd.uses :=
  Traverse.flatMap_eq_of_forall₂ (h.imp fun _ _ => lineUses_of_readsAs)

/-- **Lines do not see what is appended to them**, except for the names they take from there: they
assemble on their own exactly if they define all names they use, and then to the words they had, at
the same addresses, with the same values of their names. -/
theorem front_assembles_iff {opt : AsmOptions} {lines more : List Bytes}
    (hlen : ∀ n ∈ symbolNames (lines ++ more), n.length ≤ symNameMax)
    (hok : Assembles opt (lines ++ more)) :
    (Assembles opt lines ↔ ∀ n ∈ usedNames lines, n ∈ symbolNames lines) ∧
    (Assembles opt lines → emitted opt lines <+: emitted opt (lines ++ more) ∧
      ∀ n ∈ symbolNames lines, symtableLookup (pass1 (lines ++ more)).sym n =
        symtableLookup (pass1 lines).sym n) := by
  obtain ⟨all, hall, hass'⟩ := assembles_iff_statements.mp hok
  obtain ⟨ss, ts, rfl, hss, hts⟩ := Traverse.forall₂_append_left hall
  rw [symbolNames_of_readsAs hall, ← symbols_names, List.forall_mem_map] at hlen
  have hsub := symbols_front ss ts
  have hlen₀ : ∀ d ∈ symbols ss, d.1.length ≤ symNameMax := fun d hd => hlen d (hsub.subset hd)
  refine ⟨?_, ?_⟩
  · rw [assembles_iff_assembled hss, assembled_iff_wellFormed hss hlen₀,
      wellFormed_front ((assembled_iff_wellFormed hall hlen).mp hass'), usedNames_of_readsAs hss,
      symbolNames_of_readsAs hss, ← symbols_names, List.forall_mem_flatMap]
  · intro hok₀
    have hass := (assembles_iff_assembled hss).mp hok₀
    refine ⟨?_, ?_⟩
    · rw [emitted_eq_stores hss hok₀, emitted_eq_stores hall hok, stores_front hass hass' hlen]
      exact List.prefix_append _ _
    · intro n hn
      rw [symbolNames_of_readsAs hss, ← symbols_names] at hn
      obtain ⟨⟨m, a⟩, hd, rfl⟩ := List.mem_map.mp hn
      rw [(pass1_statements hall (assembles_iff.mp hok).1).1,
        (pass1_statements hss (assembles_iff.mp hok₀).1).1, tableOf, tableOf,
        symtableLookup_insertAll hass'.codes (hlen _ (hsub.subset hd)) (hsub.subset hd),
        symtableLookup_insertAll hass.codes (hlen₀ _ hd) hd]

/-- A loop and a jump to it. -/
theorem front_assembles_iff_loop :
    let lines := [ascii "L: JMP L"]
    let more := [ascii "JMP L"]
    (Assembles {} lines ↔ ∀ n ∈ usedNames lines, n ∈ symbolNames lines) ∧
    (Assembles {} lines → emitted {} lines <+: emitted {} (lines ++ more) ∧
      ∀ n ∈ symbolNames lines, symtableLookup (pass1 (lines ++ more)).sym n =
        symtableLookup (pass1 lines).sym n) :=
  front_assembles_iff (by decide) (by decide)

end Proof
end EduCpu16
