import EduCpu16.Assembler.Main
import EduCpu16.Lib.CommandLine

/-!
# The assembler's command line

The words of a command are items (`AsmItem`): an option is one word or, for `-o`, two. The option
loop is then a loop over items (`optionLoop_items`), and what a command does is read off its items
and not off the order the loop met them in (`applyAll_asm`): an option is on if it is among them,
and the last output file is the one that counts.

A second source, a `-o` with nothing behind it and a word that begins like an option and is none
stop the loop, and so does a call for help, which ends the command with status 0 whatever comes
behind it. `Understood` puts these cases into one condition on the words.
-/

namespace EduCpu16
namespace Proof

open CLib CommandLine

/-- A word that the loops take for the name of a file. -/
abbrev PathWord := {w : Bytes // w.head? ≠ some (ch '-')}

theorem PathWord.ne {w flag : Bytes} (hw : w.head? ≠ some (ch '-'))
    (hflag : flag.head? = some (ch '-')) : w ≠ flag := by
  rintro rfl
  exact hw hflag

/-- What the loop takes in one turn. A source is a word that does not begin with a dash, since those
that do are options or errors. -/
inductive AsmItem
  | output (path : Bytes)
  | listing
  | symbols
  | source (path : PathWord)
  deriving DecidableEq

namespace AsmItem

def words : AsmItem → List Bytes
  | output path => [ascii "-o", path]
  | listing => [ascii "--listing"]
  | symbols => [ascii "--symbols"]
  | source path => [path.val]

/-- There is one source. -/
def apply (args : AsmArgs) : AsmItem → Option AsmArgs
  | output path => some { args with outPath := some path }
  | listing => some { args with opt := { args.opt with listing := true } }
  | symbols => some { args with opt := { args.opt with dumpSymbols := true } }
  | source path =>
      match args.srcPath with
      | none => some { args with srcPath := some path.val }
      | some _ => none

def source? : AsmItem → Option Bytes
  | source path => some path.val
  | _ => none

def output? : AsmItem → Option Bytes
  | output path => some path
  | _ => none

end AsmItem

/-- The sources that are named, and the output files. -/
def sourcesOf (items : List AsmItem) : List Bytes := items.flatMap fun i => i.source?.toList

def outputsOf (items : List AsmItem) : List Bytes := items.flatMap fun i => i.output?.toList

def helpWords : List Bytes := [ascii "-h", ascii "--help"]

/-! ## The option loop

An item is a word or two that the loop takes together. The items set fields of the record, and a
second source is the only one that is refused. -/

/-- A turn that does not look at the next word. -/
theorem optionLoop_cons {a : Bytes} (ho : a ≠ ascii "-o") (rest : List Bytes) (args : AsmArgs) :
    optionLoop (a :: rest) args =
      if a = ascii "-h" ∨ a = ascii "--help" then .help
      else if a = ascii "--listing" then
        optionLoop rest { args with opt := { args.opt with listing := true } }
      else if a = ascii "--symbols" then
        optionLoop rest { args with opt := { args.opt with dumpSymbols := true } }
      else if a.head? = some (ch '-') then
        .bad (ascii "unknown option: " ++ a ++ ascii "\n")
      else
        match args.srcPath with
        | none => optionLoop rest { args with srcPath := some a }
        | some _ => .bad (ascii "unexpected positional argument: " ++ a ++ ascii "\n") := by
  have hloop := optionLoop.eq_def (a :: rest) args
  simp only [if_neg ho] at hloop
  exact hloop

theorem optionLoop_items : ItemLoop AsmItem.words AsmItem.apply optionLoop where
  nonempty i := by cases i <;> exact List.cons_ne_nil _ _
  item {i rest s s'} h := by
    cases i with
    | output path =>
      obtain rfl := Option.some.inj h
      rfl
    | listing =>
      obtain rfl := Option.some.inj h
      exact optionLoop_cons (by decide) rest s
    | symbols =>
      obtain rfl := Option.some.inj h
      exact optionLoop_cons (by decide) rest s
    | source path =>
      have hne : ∀ {flag : Bytes}, flag.head? = some (ch '-') → path.val ≠ flag :=
        PathWord.ne path.property
      have hh : path.val ≠ ascii "-h" := hne rfl
      have hhelp : path.val ≠ ascii "--help" := hne rfl
      have hlisting : path.val ≠ ascii "--listing" := hne rfl
      have hsymbols : path.val ≠ ascii "--symbols" := hne rfl
      rw [AsmItem.apply] at h
      split at h
      · rename_i hsrc
        obtain rfl := Option.some.inj h
        rw [AsmItem.words, List.singleton_append, optionLoop_cons (hne rfl)]
        simp only [hh, hhelp, hlisting, hsymbols, path.property, hsrc, or_self, if_false]
      · cases h

/-- Where it is stuck, it has come to the end or stops. -/
theorem optionLoop_stuck {ws : List Bytes} {s : AsmArgs}
    (h : Stuck AsmItem.words AsmItem.apply ws s) :
    ws = [] ∨ (∃ w ∈ helpWords, ws.head? = some w ∧ optionLoop ws s = .help) ∨
      (∀ w ∈ helpWords, ws.head? ≠ some w) ∧ ∃ text, optionLoop ws s = .bad text := by
  cases ws with
  | nil => exact .inl rfl
  | cons a rest =>
    right
    by_cases hhelp : a ∈ helpWords
    · have hor : a = ascii "-h" ∨ a = ascii "--help" := by simpa [helpWords] using hhelp
      exact .inl ⟨a, hhelp, rfl, by rw [optionLoop.eq_def]; exact if_pos hor⟩
    · right
      have hor : ¬ (a = ascii "-h" ∨ a = ascii "--help") := by simpa [helpWords] using hhelp
      refine ⟨fun w hw heq => hhelp (Option.some.inj heq ▸ hw), ?_⟩
      -- Every other word that does not stop the loop begins an item that is applied.
      by_cases ho : a = ascii "-o"
      · cases rest with
        | nil => exact ⟨[], by simp only [optionLoop, if_neg hor, if_pos ho]⟩
        | cons out rest =>
          subst ho
          cases h (.output out) rest rfl
      by_cases hlisting : a = ascii "--listing"
      · subst hlisting
        cases h .listing rest rfl
      by_cases hsymbols : a = ascii "--symbols"
      · subst hsymbols
        cases h .symbols rest rfl
      rw [optionLoop_cons ho, if_neg hor, if_neg hlisting, if_neg hsymbols]
      by_cases hdash : a.head? = some (ch '-')
      · rw [if_pos hdash]
        exact ⟨_, rfl⟩
      · rw [if_neg hdash]
        have hnone := h (.source ⟨a, hdash⟩) rest rfl
        rw [AsmItem.apply] at hnone
        split at hnone
        · cases hnone
        · exact ⟨_, rfl⟩

/-- **What items set.** -/
theorem applyAll_asm : ∀ (items : List AsmItem) (s : AsmArgs),
    (s.srcPath.toList ++ sourcesOf items).length ≤ 1 ∧
      applyAll AsmItem.apply items s = some
        { srcPath := (s.srcPath.toList ++ sourcesOf items).head?
          outPath := (s.outPath.toList ++ outputsOf items).getLast?
          opt := ⟨s.opt.listing || decide (AsmItem.listing ∈ items),
            s.opt.dumpSymbols || decide (AsmItem.symbols ∈ items)⟩ } ∨
    1 < (s.srcPath.toList ++ sourcesOf items).length ∧
      applyAll AsmItem.apply items s = none := by
  intro items
  induction items with
  | nil =>
    rintro ⟨src, out, ⟨listing, symbols⟩⟩
    left
    cases src <;> cases out <;> simp [sourcesOf, outputsOf, applyAll]
  | cons i items ih =>
    intro s
    rw [applyAll_cons]
    cases i with
    | output path =>
      have hlast : (s.outPath.toList ++ outputsOf (.output path :: items)).getLast? =
          (path :: outputsOf items).getLast? :=
        List.getLast?_append_of_ne_nil _ (List.cons_ne_nil _ _)
      rw [hlast]
      simpa [AsmItem.apply, sourcesOf, outputsOf, AsmItem.source?, AsmItem.output?] using
        ih { s with outPath := some path }
    | listing =>
      simpa [AsmItem.apply, sourcesOf, outputsOf, AsmItem.source?, AsmItem.output?] using
        ih { s with opt := { s.opt with listing := true } }
    | symbols =>
      simpa [AsmItem.apply, sourcesOf, outputsOf, AsmItem.source?, AsmItem.output?] using
        ih { s with opt := { s.opt with dumpSymbols := true } }
    -- Only a source can be refused, if there is one already.
    | source path =>
      cases hsrc : s.srcPath with
      | none =>
        have hih := ih { s with srcPath := some path.val }
        simpa [AsmItem.apply, sourcesOf, outputsOf, AsmItem.source?, AsmItem.output?, hsrc]
          using hih
      | some src =>
        right
        simp [AsmItem.apply, sourcesOf, AsmItem.source?, hsrc]

/-! ## The command

What the words ask for is a function of the items, and words that are no items end in the usage or
in its error. -/

/-- What some items come to, up to the first word that is none of them. -/
theorem optionLoop_flatMap {items : List AsmItem} (h : (sourcesOf items).length ≤ 1)
    (rest : List Bytes) : ∃ out opt, optionLoop (items.flatMap AsmItem.words ++ rest) {} =
      optionLoop rest ⟨(sourcesOf items).head?, out, opt⟩ := by
  rcases applyAll_asm items {} with ⟨-, happly⟩ | ⟨hlt, -⟩
  · exact ⟨_, _, optionLoop_items.loop_items happly⟩
  · exact absurd h (Nat.not_le.mpr hlt)

theorem optionLoop_help {ws : List Bytes} {w : Bytes} (hw : w ∈ helpWords)
    (hhead : ws.head? = some w) (args : AsmArgs) : optionLoop ws args = .help := by
  obtain ⟨rest, rfl⟩ := List.head?_eq_some_iff.mp hhead
  have hor : w = ascii "-h" ∨ w = ascii "--help" := by simpa [helpWords] using hw
  rw [optionLoop.eq_def]
  exact if_pos hor

theorem assemblerRun_status (host : Host) (opt : AsmOptions) (src out : Bytes) :
    (assemblerRun host opt src out).status ≠ 2 := by
  unfold assemblerRun
  simp only
  split
  · exact (by decide : (0 : Nat) ≠ 2)
  · exact (by decide : (1 : Nat) ≠ 2)

/-- What items with one source ask for. -/
theorem assemblerMain_items (host : Host) (prog : Bytes) {items : List AsmItem} {src : Bytes}
    (hsrc : sourcesOf items = [src]) :
    assemblerMain host prog (items.flatMap AsmItem.words) =
      assemblerRun host ⟨decide (AsmItem.listing ∈ items), decide (AsmItem.symbols ∈ items)⟩ src
        ((outputsOf items).getLast?.getD (deriveOutputPath src)) := by
  rcases applyAll_asm items {} with ⟨-, happly⟩ | ⟨hlt, -⟩
  · have hloop : optionLoop (items.flatMap AsmItem.words ++ []) {} = _ :=
      optionLoop_items.loop_items happly
    rw [List.append_nil] at hloop
    rw [assemblerMain, hloop]
    simp only [optionLoop, hsrc]
    rfl
  · rw [hsrc] at hlt
    exact absurd hlt (Nat.lt_irrefl 1)

/-- The words of a command that is understood: items with one source, or a call for help behind
items. Nothing is asked of the words behind a call for help, because the loop does not get there. -/
def Understood (args : List Bytes) : Prop :=
  ∃ items rest, args = items.flatMap AsmItem.words ++ rest ∧ (sourcesOf items).length ≤ 1 ∧
    (rest = [] ∧ sourcesOf items ≠ [] ∨ ∃ w ∈ helpWords, rest.head? = some w)

/-- **The assembler's command line.** The command ends in a usage error exactly if its words are not
understood; and what items ask for does not depend on their order, but for the last of several
output files. -/
theorem assembler_command_line (host : Host) (prog : Bytes) :
    (∀ args, (assemblerMain host prog args).status = 2 ↔ ¬ Understood args) ∧
    ∀ items src, sourcesOf items = [src] →
      assemblerMain host prog (items.flatMap AsmItem.words) =
        assemblerRun host ⟨decide (AsmItem.listing ∈ items), decide (AsmItem.symbols ∈ items)⟩ src
          ((outputsOf items).getLast?.getD (deriveOutputPath src)) := by
  refine ⟨fun args => ⟨?_, ?_⟩, ?_⟩
  · rintro hstatus ⟨items, rest, rfl, hlen, hrest⟩
    obtain ⟨out, opt, hloop⟩ := optionLoop_flatMap hlen rest
    rw [assemblerMain, hloop] at hstatus
    rcases hrest with ⟨rfl, hsrc⟩ | ⟨w, hw, hhead⟩
    · obtain ⟨src, srcs, hcons⟩ := List.exists_cons_of_ne_nil hsrc
      rw [hcons] at hstatus
      exact assemblerRun_status _ _ _ _ hstatus
    · rw [optionLoop_help hw hhead] at hstatus
      cases hstatus
  · intro hnot
    -- The loop takes items as long as it can. Then the words are used up, or the next word stops
    -- it.
    obtain ⟨items, rest, s, rfl, happly, hstuck⟩ :=
      optionLoop_items.loop_split args.length args {} le_rfl
    rcases applyAll_asm items {} with ⟨hlen, hset⟩ | ⟨-, hnone⟩
    · rw [assemblerMain, optionLoop_items.loop_items happly]
      obtain rfl := Option.some.inj (hset.symm.trans happly)
      rcases optionLoop_stuck hstuck with rfl | ⟨w, hw, hhead, -⟩ | ⟨-, text, hbad⟩
      · -- There are items only, and none of them is a source.
        have hnil : sourcesOf items = [] := by
          by_contra hsrc
          exact hnot ⟨items, [], rfl, hlen, .inl ⟨rfl, hsrc⟩⟩
        simp only [optionLoop, hnil]
        rfl
      · exact absurd ⟨items, rest, rfl, hlen, .inr ⟨w, hw, hhead⟩⟩ hnot
      · rw [hbad]
    · rw [hnone] at happly
      cases happly
  · exact fun items src hsrc => assemblerMain_items host prog hsrc

end Proof
end EduCpu16
