import EduCpu16.Proof.Append
import EduCpu16.Proof.Hello
import EduCpu16.Proof.Toolchain

/-!
# Hello, with any table

`hello.asm` with a table of one's own: the code of the program and behind it `.word` lines in any
notation, through the assembler and the emulator (`hello_says`). It is the composition of what the
other modules say of the parts: the lines are read as statements, the statements assemble, the file
is loaded, and the program in memory prints its table.

The code is assembled once and for all; that the table does not disturb it is `wellFormed_behind`.
So nothing here runs the assembler on the whole source, whose table is a variable.
-/

namespace EduCpu16
namespace Proof

open CLib CommandLine Source

/-! ## The table

The table is given as statements, and the lines of a source are only asked to read as them. Hence
any spelling will do: other numbers for the same words, comments, blanks, an other case of `.WORD`.
-/

def wordStmt (w : Word) : Stmt := { cmd := .word (.imm (w.setWidth 32)) }

/-- One word a line, and a zero behind them. -/
def helloTable (ws : List Word) : List Stmt := { cmd := .org 0x100 } :: (ws ++ [0]).map wordStmt

theorem words_wordStmt (env : Env) (pc w : Word) : (wordStmt w).cmd.words env pc = some [w] :=
  congrArg (fun v => some [v]) (setWidth_back w)

theorem stores_wordStmt (env : Env) : ∀ (ws : List Word) (a : Nat),
    (placed a (ws.map wordStmt)).flatMap (storesOf env) =
      (wordsFrom (BitVec.ofNat 16 a) ws.length).zip ws
  | [], _ => rfl
  | w :: ws, a => by
    have hnext : (wordStmt w).cmd.item.next a = a + 1 := rfl
    rw [List.map_cons, placed, List.flatMap_cons, storesOf_one (words_wordStmt env _ w), hnext,
      stores_wordStmt env ws (a + 1), List.length_cons, wordsFrom_succ, List.zip_cons_cons,
      BitVec.ofNat_add]
    rfl

theorem mem_helloTable {ws : List Word} {s : Stmt} (hs : s ∈ helloTable ws) :
    s = { cmd := .org 0x100 } ∨ ∃ w, s = wordStmt w := by
  rcases List.mem_cons.mp hs with rfl | hs
  · exact .inl rfl
  · obtain ⟨w, -, rfl⟩ := List.mem_map.mp hs
    exact .inr ⟨w, rfl⟩

theorem helloTable_defs {ws : List Word} {s : Stmt} (hs : s ∈ helloTable ws) (addr : Word) :
    s.defs addr = [] := by
  rcases mem_helloTable hs with rfl | ⟨w, rfl⟩
  · rfl
  · rfl

theorem helloTable_wellFormed {ws : List Word} (env : Env) (pc : Word) {s : Stmt}
    (hs : s ∈ helloTable ws) : s.cmd.WellFormed env pc := by
  rcases mem_helloTable hs with rfl | ⟨w, rfl⟩
  · exact ⟨by decide, by decide⟩
  · exact nofun

theorem helloTable_items (ws : List Word) : ((helloTable ws).map fun s => s.cmd.item) =
    .org 0x100 :: List.replicate (ws.length + 1) (.words 1) := by
  rw [helloTable, List.map_cons, List.map_map]
  congr 1
  rw [List.eq_replicate_iff]
  refine ⟨by rw [List.length_map, List.length_append]; rfl, ?_⟩
  intro i hi
  obtain ⟨w, -, rfl⟩ := List.mem_map.mp hi
  rfl

/-! ## The program

The `.org` puts the table at 0x100, behind the code and without overlap, so the layout goes forward
and the image holds both. -/

section Program

variable {ws : List Word} {tail : List Bytes} (htail : List.Forall₂ ReadsAs tail (helloTable ws))
  (opt : AsmOptions)
include htail

/-- The code is what it is without the table, and the table is where the code looks for it. -/
theorem helloTable_assembles : Assembles opt (helloCode ++ tail) ∧
    emitted opt (helloCode ++ tail) = (wordsFrom 0 18).zip (helloSetup ++ helloLoop) ++
      (wordsFrom 0x100 (ws.length + 1)).zip (ws ++ [0]) ∧
    layoutOf (helloCode ++ tail) = layoutOf helloCode ++
      .org 0x100 :: List.replicate (ws.length + 1) (.words 1) := by
  have hcode : Assembles {} helloCode := by decide +kernel
  obtain ⟨ss, hss, hass⟩ := assembles_iff_statements.mp hcode
  have hall : List.Forall₂ ReadsAs (helloCode ++ tail) (ss ++ helloTable ws) :=
    List.rel_append hss htail
  have hlen : ∀ d ∈ symbols ss, d.1.length ≤ symNameMax := by
    have hnames : ∀ n ∈ symbolNames helloCode, n.length ≤ symNameMax := by decide +kernel
    rwa [symbolNames_of_readsAs hss, ← symbols_names, List.forall_mem_map] at hnames
  have hlen' : ∀ d ∈ symbols (ss ++ helloTable ws), d.1.length ≤ symNameMax := by
    rwa [symbols_behind fun _ => helloTable_defs]
  have hwell : WellFormed (ss ++ helloTable ws) :=
    wellFormed_behind (fun _ => helloTable_defs) ((assembled_iff_wellFormed hss hlen).mp hass)
      fun p hp => helloTable_wellFormed _ p.1 (mem_of_placed hp)
  have hass' : Assembled (ss ++ helloTable ws) := (assembled_iff_wellFormed hall hlen').mpr hwell
  have hok : Assembles opt (helloCode ++ tail) := (assembles_iff_assembled hall).mpr hass'
  have hlayout := layout_of_statements hss (assembles_iff.mp hcode).1
  refine ⟨hok, ?_, ?_⟩
  · have horg : ∀ c, placed c (helloTable ws) =
        (BitVec.ofNat 16 c, { cmd := .org 0x100 }) :: placed 0x100 ((ws ++ [0]).map wordStmt) :=
      fun c => rfl
    rw [emitted_eq_stores hall hok, stores_front hass hass' hlen', ← emitted_eq_stores hss hcode,
      emitted_helloCode, horg, List.flatMap_cons, stores_wordStmt, List.length_append]
    rfl
  · rw [layout_of_statements hall (assembles_iff.mp hok).1, List.map_append, ← hlayout,
      helloTable_items]

variable (hroom : 0x100 + ws.length < 0xFF00)
include hroom

theorem helloTable_layout : Layout.Forward 0 (layoutOf (helloCode ++ tail)) ∧
    Layout.Within 0xFFFF 0 (layoutOf (helloCode ++ tail)) := by
  have hcode : layoutOf helloCode = .org 0 :: List.replicate 11 (.words 1) ++ .words 0 ::
      List.replicate 6 (.words 1) ++ [.words 0, .words 1] := by decide +kernel
  have hcounter : Layout.counter 0 (layoutOf helloCode) = 18 := by
    rw [hcode]
    rfl
  have hblocks : ∀ b ∈ Layout.blocks 0 0 (layoutOf helloCode), b.1 + b.2 ≤ 0xFFFF := by
    decide +kernel
  rw [(helloTable_assembles htail {}).2.2, Layout.forward_append, Layout.within_append,
    hcounter, Layout.within_cons]
  refine ⟨⟨?_, by decide, Layout.forward_words _ _⟩, Layout.within_iff_blocks.mpr hblocks,
    by decide, Layout.within_words ?_⟩
  · rw [hcode]
    simp [List.replicate, Layout.Forward, Layout.Item.next]
  · rw [Layout.Item.next]
    omega

omit htail hroom in
theorem codeAt_of_stored {mem : Word → Word} {a : Nat} {ws : List Word}
    (h : ∀ s ∈ (wordsFrom (BitVec.ofNat 16 a) ws.length).zip ws, mem s.1 = s.2) :
    CodeAt mem a ws := by
  intro i w hi
  obtain ⟨hlt, -⟩ := List.getElem?_eq_some_iff.mp hi
  have haddr : (wordsFrom (BitVec.ofNat 16 a) ws.length)[i]? = some (BitVec.ofNat 16 (a + i)) := by
    simp [wordsFrom, hlt, BitVec.ofNat_add]
  exact h (BitVec.ofNat 16 (a + i), w)
    (List.mem_of_getElem? (List.getElem?_zip_eq_some.mpr ⟨haddr, hi⟩))

/-- The image has the code at 0 and the table behind it. -/
theorem helloTable_image (hne : ∀ w ∈ ws, w ≠ 0) :
    let mem := Stores.write (fun _ => 0) (emitted opt (helloCode ++ tail))
    CodeAt mem 0 (helloSetup ++ helloLoop) ∧ TableAt mem ws := by
  intro mem
  obtain ⟨hok, hemitted, -⟩ := helloTable_assembles htail opt
  obtain ⟨hforward, hwithin⟩ := helloTable_layout htail hroom
  have hmem : ∀ s ∈ emitted opt (helloCode ++ tail), mem s.1 = s.2 :=
    fun s hs => hok.image_at hforward hwithin hs
  rw [hemitted] at hmem
  have hcode : CodeAt mem 0 (helloSetup ++ helloLoop) :=
    codeAt_of_stored fun s hs => hmem s (List.mem_append_left _ hs)
  have htable : CodeAt mem 0x100 (ws ++ [0]) :=
    codeAt_of_stored fun s hs => hmem s (List.mem_append_right _ (by simpa using hs))
  refine ⟨hcode, ?_, hne, ?_, hroom⟩
  · intro i w hi
    obtain ⟨hlt, -⟩ := List.getElem?_eq_some_iff.mp hi
    apply htable
    rw [List.getElem?_append_left hlt, hi]
  · exact htable ws.length 0 List.getElem?_concat_length

end Program

/-- The run prints the table, and says nothing else. -/
theorem hello_emulatorRun {mem : Word → Word} {ws : List Word}
    (hcode : CodeAt mem 0 (helloSetup ++ helloLoop)) (htable : TableAt mem ws) (host : EmuHost)
    (args : EmuArgs) (hmode : args.mode = .plain) (hdump : args.doDump = false) :
    ∃ fuel, emulatorRun fuel host args mem = some ⟨0, ws.map (BitVec.setWidth 8), []⟩ := by
  obtain ⟨u, hend, hurun, hupc, humem, huout⟩ :=
    hello_end (c := core (bootOf host mem)) hcode htable rfl rfl rfl
  obtain ⟨rfl, -⟩ := core_of_leads hend
  have hbusy : ∀ k ≤ 11 + 6 * ws.length + 3,
      (cpuStep^[k] (bootOf host mem)).cpu.halted = false := by
    intro k hk
    rcases Nat.lt_or_eq_of_le hk with hlt | rfl
    · exact running_of_leads hend k hlt
    · exact hurun
  have hfetch : fetched (cpuStep^[11 + 6 * ws.length + 3] (bootOf host mem)) = 0xF800 := by
    have hpc : (cpuStep^[11 + 6 * ws.length + 3] (bootOf host mem)).cpu.pc = 17 := hupc
    have hmem : (cpuStep^[11 + 6 * ws.length + 3] (bootOf host mem)).bus.mem = mem := humem
    rw [fetched, hpc, memRead_of_lt (by decide), hmem]
    exact hcode 17 _ rfl
  obtain ⟨fuel, hfuel⟩ := emulatorRun_halts hmode hdump hbusy (hfetch ▸ rfl)
  exact ⟨fuel, hfuel.trans (congrArg (fun out => some (EmuProcess.mk 0 out [])) huout)⟩

/-- "Hi", in two notations. -/
def hiTable : List Bytes :=
  [ascii " .org 0x0100", ascii " .word 72 ; H", ascii " .word 0x69", ascii " .word 0"]

theorem hiTable_readsAs : List.Forall₂ ReadsAs hiTable (helloTable [72, 105]) := by
  have hread : ∀ {src : Bytes} {ts : List Token} {s : Stmt}, lexLine src 1 = (⟨ts, 1⟩, none) →
      readStmt ts = some s → ReadsAs src s := by
    intro src ts s hlex hs
    obtain ⟨-, hts, hmax⟩ := lexLine_iff.mp hlex
    exact ⟨ts, hts, hmax, hs⟩
  exact .cons (hread rfl rfl) (.cons (hread rfl rfl) (.cons (hread rfl rfl)
    (.cons (hread rfl rfl) .nil)))

def hiSource : Bytes := (helloCode ++ hiTable).flatMap (· ++ ascii "\n")

theorem sourceRead_hi : sourceRead hiSource = some ⟨helloCode ++ hiTable, 64⟩ := by
  decide +kernel

end Proof
end EduCpu16
