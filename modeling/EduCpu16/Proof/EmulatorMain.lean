import EduCpu16.Emulator.CommandLine
import EduCpu16.Proof.AssemblerMain

/-!
# The emulator's command line

The texts `--addr` takes (`parseHexAddr_iff`), and the words of a command as items, as for the
assembler (`argumentLoop_items`, `applyAll_emu`).

Here an error anywhere, a second file or an unknown option say, ends in the usage text, and so does
asking for `--step` and `--trace` at once; there is no call for help. `Accepted` says when none of
that happens, and the command line theorem is in terms of it for every list of words.
-/

namespace EduCpu16
namespace Proof

open CLib CommandLine

/-! ## `parse_hex_addr`

`strtoul` takes more than hexadecimal digits: blanks before the number, a sign and `0x`. A negative
number is negated in 64 bits, and what comes out must be an address. `SpellsAddr` lists these parts;
a number that does not fit in 64 bits is `ULONG_MAX`, which is no address. -/

/-- A text that spells an address: blanks, a sign and hexadecimal digits of a 64-bit number; with a
minus sign, of one that comes to the address from below. -/
def SpellsAddr (text : Bytes) (a : Word) : Prop :=
  ∃ blanks sign mark ds, text = blanks ++ (sign ++ (mark ++ ds)) ∧
    (∀ c ∈ blanks, isspace c = true) ∧ sign ∈ signMarks ∧ (mark = [] ∨ mark ∈ hexMarks) ∧
    Digits 16 ds ∧ positional 16 ds ≤ ULONG_MAX ∧
    if sign = ascii "-" then (positional 16 ds + a.toNat) % 2 ^ 64 = 0
    else positional 16 ds = a.toNat

/-- What a signed value comes to in 64 bits. -/
theorem signedWord_eq_iff {sign : Bytes} {n : Nat} (hn : n ≤ ULONG_MAX) {a : Word} :
    signedWord sign n = a.setWidth 64 ↔
      if sign = ascii "-" then (n + a.toNat) % 2 ^ 64 = 0 else n = a.toNat := by
  have ha := a.isLt
  unfold ULONG_MAX at hn
  rw [signedWord]
  split
  · rw [← BitVec.toNat_inj, BitVec.toNat_neg, BitVec.toNat_ofNat, BitVec.toNat_setWidth]
    omega
  · rw [← BitVec.toNat_inj, BitVec.toNat_ofNat, BitVec.toNat_setWidth]
    omega

theorem parseHexAddr_eq_some {text : Bytes} {a : Word} : parseHexAddr text = some a ↔
    text ≠ [] ∧ strtoul text 16 = ⟨a.setWidth 64, [], false⟩ := by
  have ha := a.isLt
  constructor
  · intro h
    unfold parseHexAddr at h
    simp only at h
    split at h
    · cases h
    · rename_i hok
      push Not at hok
      obtain ⟨herange, hself, hrest, hmax⟩ := hok
      obtain rfl := Option.some.inj h
      rw [hrest] at hself
      refine ⟨hself.symm, ?_⟩
      cases hp : strtoul text 16 with
      | mk value rest erange =>
        rw [hp] at herange hrest hmax
        simp only at herange hrest hmax ⊢
        have hvalue : (value.setWidth 16).setWidth 64 = value := by
          apply BitVec.eq_of_toNat_eq
          rw [BitVec.toNat_setWidth, BitVec.toNat_setWidth]
          omega
        rw [hvalue, hrest, Bool.eq_false_iff.mpr herange]
  · rintro ⟨hne, hp⟩
    have hback : (a.setWidth 64).setWidth 16 = a := by
      apply BitVec.eq_of_toNat_eq
      rw [BitVec.toNat_setWidth, BitVec.toNat_setWidth]
      omega
    have hmax : ¬ 0xFFFF < (a.setWidth 64).toNat := by
      rw [BitVec.toNat_setWidth]
      omega
    simp only [parseHexAddr, hp, hback, hmax, hne.symm, ne_eq, not_true_eq_false, or_self,
      if_false, Bool.false_eq_true]

/-- **The addresses `--addr` takes.** One side is the call of `strtoul` with its end pointer and its
error code, the other the spelling; for a text the address is unique, so this is also what it is
read as. -/
theorem parseHexAddr_iff (text : Bytes) (a : Word) :
    parseHexAddr text = some a ↔ SpellsAddr text a := by
  rw [parseHexAddr_eq_some]
  constructor
  · rintro ⟨hne, hp⟩
    obtain ⟨blanks, sign, mark, ds, hsplit, hblanks, hsign, hmark, hds, hmax, hv⟩ :=
      (strtoul_iff hne).mp hp
    exact ⟨blanks, sign, mark, ds, hsplit, hblanks, hsign, hmark.imp_right And.right, hds, hmax,
      (signedWord_eq_iff hmax).mp hv.symm⟩
  · rintro ⟨blanks, sign, mark, ds, rfl, hblanks, hsign, hmark, hds, hmax, hv⟩
    have hne : blanks ++ (sign ++ (mark ++ ds)) ≠ [] := by
      intro hnil
      simp only [List.append_eq_nil_iff] at hnil
      exact hds.1 hnil.2.2.2
    refine ⟨hne, (strtoul_iff hne).mpr ?_⟩
    exact ⟨blanks, sign, mark, ds, rfl, hblanks, hsign, hmark.imp_right fun h => ⟨rfl, h⟩, hds,
      hmax, ((signedWord_eq_iff hmax).mpr hv).symm⟩

/-! ## Items

An `--addr` and its text are one item, and only with a text that is an address. So what stops the
loop is what is not an item, as for the assembler. -/

/-- A text that `--addr` takes. -/
structure AddrWord where
  text : Bytes
  addr : Word
  read : parseHexAddr text = some addr
  deriving DecidableEq

inductive EmuItem
  | dump
  | step
  | trace
  | addr (a : AddrWord)
  | file (path : PathWord)
  deriving DecidableEq

namespace EmuItem

def words : EmuItem → List Bytes
  | dump => [ascii "--dump"]
  | step => [ascii "--step"]
  | trace => [ascii "--trace"]
  | addr a => [ascii "--addr", a.text]
  | file path => [path.val]

/-- There is one file. -/
def apply (args : EmuArgs) : EmuItem → Option EmuArgs
  | dump => some { args with doDump := true }
  | step => some { args with doStep := true }
  | trace => some { args with doTrace := true }
  | addr a => some { args with startAddr := a.addr, hasAddr := true }
  | file path =>
      match args.binPath with
      | none => some { args with binPath := some path.val }
      | some _ => none

def file? : EmuItem → Option Bytes
  | file path => some path.val
  | _ => none

def addr? : EmuItem → Option Word
  | addr a => some a.addr
  | _ => none

end EmuItem

def filesOf (items : List EmuItem) : List Bytes := items.flatMap fun i => i.file?.toList

def addrsOf (items : List EmuItem) : List Word := items.flatMap fun i => i.addr?.toList

/-! ## The argument loop

As with the assembler, by items. An address is an item only if its text is one, which is
`parseHexAddr`'s decision. -/

/-- A turn that does not look at the next word. -/
theorem argumentLoop_cons {a : Bytes} (ha : a ≠ ascii "--addr") (rest : List Bytes)
    (args : EmuArgs) :
    argumentLoop (a :: rest) args =
      if a = ascii "--dump" then argumentLoop rest { args with doDump := true }
      else if a = ascii "--step" then argumentLoop rest { args with doStep := true }
      else if a = ascii "--trace" then argumentLoop rest { args with doTrace := true }
      else if a.head? = some (ch '-') then none
      else
        match args.binPath with
        | none => argumentLoop rest { args with binPath := some a }
        | some _ => none := by
  have hloop := argumentLoop.eq_def (a :: rest) args
  simp only [if_neg ha] at hloop
  exact hloop

/-- The turn that does. -/
theorem argumentLoop_addr (text : Bytes) (rest : List Bytes) (args : EmuArgs) :
    argumentLoop (ascii "--addr" :: text :: rest) args =
      (parseHexAddr text).bind fun addr =>
        argumentLoop rest { args with startAddr := addr, hasAddr := true } := by
  have hloop := argumentLoop.eq_def (ascii "--addr" :: text :: rest) args
  cases hread : parseHexAddr text with
  | none =>
    simp only [hread] at hloop
    exact hloop
  | some addr =>
    simp only [hread] at hloop
    exact hloop

theorem argumentLoop_items : ItemLoop EmuItem.words EmuItem.apply argumentLoop where
  nonempty i := by cases i <;> exact List.cons_ne_nil _ _
  item {i rest s s'} h := by
    cases i with
    | dump =>
      obtain rfl := Option.some.inj h
      exact argumentLoop_cons (by decide) rest s
    | step =>
      obtain rfl := Option.some.inj h
      exact argumentLoop_cons (by decide) rest s
    | trace =>
      obtain rfl := Option.some.inj h
      exact argumentLoop_cons (by decide) rest s
    | addr a =>
      obtain rfl := Option.some.inj h
      rw [EmuItem.words, List.cons_append, List.singleton_append, argumentLoop_addr, a.read]
      rfl
    | file path =>
      have hne : ∀ {flag : Bytes}, flag.head? = some (ch '-') → path.val ≠ flag :=
        PathWord.ne path.property
      have hdump : path.val ≠ ascii "--dump" := hne rfl
      have hstep : path.val ≠ ascii "--step" := hne rfl
      have htrace : path.val ≠ ascii "--trace" := hne rfl
      rw [EmuItem.apply] at h
      split at h
      · rename_i hbin
        obtain rfl := Option.some.inj h
        rw [EmuItem.words, List.singleton_append, argumentLoop_cons (hne rfl)]
        simp only [hdump, hstep, htrace, path.property, hbin, if_false]
      · cases h

/-- Where it is stuck before the end, the usage is printed. -/
theorem argumentLoop_stuck {ws : List Bytes} {s : EmuArgs}
    (h : Stuck EmuItem.words EmuItem.apply ws s) : ws = [] ∨ argumentLoop ws s = none := by
  cases ws with
  | nil => exact .inl rfl
  | cons a rest =>
    right
    by_cases haddr : a = ascii "--addr"
    · subst haddr
      cases rest with
      | nil => rfl
      | cons text rest =>
        cases hread : parseHexAddr text with
        | none =>
          rw [argumentLoop_addr, hread]
          rfl
        | some a => cases h (.addr ⟨text, a, hread⟩) rest rfl
    by_cases hdump : a = ascii "--dump"
    · subst hdump
      cases h .dump rest rfl
    by_cases hstep : a = ascii "--step"
    · subst hstep
      cases h .step rest rfl
    by_cases htrace : a = ascii "--trace"
    · subst htrace
      cases h .trace rest rfl
    rw [argumentLoop_cons haddr, if_neg hdump, if_neg hstep, if_neg htrace]
    by_cases hdash : a.head? = some (ch '-')
    · rw [if_pos hdash]
    · rw [if_neg hdash]
      have hnone := h (.file ⟨a, hdash⟩) rest rfl
      rw [EmuItem.apply] at hnone
      split at hnone
      · cases hnone
      · rfl

/-- What the arguments are after some items. -/
def setBy (s : EmuArgs) (items : List EmuItem) : EmuArgs where
  binPath := (s.binPath.toList ++ filesOf items).head?
  doDump := s.doDump || decide (EmuItem.dump ∈ items)
  doStep := s.doStep || decide (EmuItem.step ∈ items)
  doTrace := s.doTrace || decide (EmuItem.trace ∈ items)
  hasAddr := s.hasAddr || decide (addrsOf items ≠ [])
  startAddr := (addrsOf items).getLast?.getD s.startAddr

/-- **What items set.** -/
theorem applyAll_emu : ∀ (items : List EmuItem) (s : EmuArgs),
    applyAll EmuItem.apply items s =
      if (s.binPath.toList ++ filesOf items).length ≤ 1 then some (setBy s items) else none := by
  intro items
  induction items with
  | nil =>
    intro s
    rcases s with ⟨_ | path, _, _, _, _, _⟩
    · simp [filesOf, addrsOf, applyAll, setBy]
    · simp [filesOf, addrsOf, applyAll, setBy]
  | cons i items ih =>
    intro s
    rw [applyAll_cons]
    cases i with
    | dump =>
      simp [EmuItem.apply, ih, setBy, filesOf, addrsOf, EmuItem.file?, EmuItem.addr?]
    | step =>
      simp [EmuItem.apply, ih, setBy, filesOf, addrsOf, EmuItem.file?, EmuItem.addr?]
    | trace =>
      simp [EmuItem.apply, ih, setBy, filesOf, addrsOf, EmuItem.file?, EmuItem.addr?]
    | addr a =>
      have hcons : addrsOf (.addr a :: items) = a.addr :: addrsOf items := rfl
      simp [EmuItem.apply, ih, setBy, filesOf, EmuItem.file?, hcons, List.getLast?_cons]
    | file path =>
      cases hbin : s.binPath with
      | none =>
        simp [EmuItem.apply, ih, setBy, filesOf, addrsOf, EmuItem.file?, EmuItem.addr?, hbin]
      | some old =>
        simp [EmuItem.apply, filesOf, EmuItem.file?, hbin]

/-! ## The command

Whether the words are accepted is asked of the items; what happens to the file comes after that and
does not print the usage. -/

theorem readProgram_error {path : Bytes} {f : BinFile} {text : Bytes}
    (h : readProgram path f = .error text) : text.head? = some (ch 'e') := by
  unfold readProgram at h
  simp only at h
  split at h
  · rw [← Except.error.inj h]
    rfl
  split at h
  · rw [← Except.error.inj h]
    rfl
  split at h
  · rw [← Except.error.inj h]
    rfl
  split at h
  · rw [← Except.error.inj h]
    rfl
  split at h
  · rw [← Except.error.inj h]
    rfl
  split at h
  · rw [← Except.error.inj h]
    rfl
  split at h
  · cases h
  · cases h

theorem emulatorRun_status {fuel : Nat} {host : EmuHost} {args : EmuArgs} {mem : Word → Word}
    {p : EmuProcess} (h : emulatorRun fuel host args mem = some p) : p.status = 0 := by
  unfold emulatorRun at h
  split at h
  · cases h
  · simp only at h
    split at h
    · cases h
    · rw [← Option.some.inj h]

/-- What is printed instead of a run on a file is not the usage. -/
theorem emulatorOn_ne_usage (fuel : Nat) (host : EmuHost) (args : EmuArgs) (path prog : Bytes) :
    emulatorOn fuel host args path ≠ some ⟨1, [], printUsage prog⟩ := by
  intro h
  have husage : (printUsage prog).head? = some (ch 'U') := rfl
  have hne : some (ch 'e') ≠ some (ch 'U') := by decide
  unfold emulatorOn at h
  split at h
  · have htext := congrArg (fun p => (p.map EmuProcess.stderr).bind List.head?) h
    exact hne (htext.trans husage)
  · split at h
    · rename_i text hread
      have htext := congrArg (fun p => (p.map EmuProcess.stderr).bind List.head?) h
      exact hne ((readProgram_error hread).symm.trans (htext.trans husage))
    · cases emulatorRun_status h

/-- What items with one file ask for. -/
theorem emulatorMain_items (fuel : Nat) (host : EmuHost) (prog : Bytes) {items : List EmuItem}
    {path : Bytes} (hfile : filesOf items = [path])
    (hmode : ¬ (EmuItem.step ∈ items ∧ EmuItem.trace ∈ items)) :
    emulatorMain fuel host prog (items.flatMap EmuItem.words) =
      emulatorOn fuel host (setBy {} items) path := by
  have happly := applyAll_emu items {}
  have hone : (({} : EmuArgs).binPath.toList ++ filesOf items).length ≤ 1 := by
    rw [hfile]
    exact Nat.le_refl 1
  rw [if_pos hone] at happly
  have hloop : argumentLoop (items.flatMap EmuItem.words ++ []) {} = _ :=
    argumentLoop_items.loop_items happly
  have hpath : (setBy {} items).binPath = some path := by
    rw [setBy, hfile]
    rfl
  have hboth : ((setBy {} items).doStep && (setBy {} items).doTrace) = false := by
    rcases not_and_or.mp hmode with hno | hno
    · simp [setBy, hno]
    · simp [setBy, hno]
  rw [List.append_nil] at hloop
  simp only [emulatorMain, hloop, argumentLoop, hpath, hboth]
  rfl

/-- The words of a command that is run: items with one file, and not both ways to watch the run. -/
def Accepted (words : List Bytes) : Prop :=
  ∃ items path, words = items.flatMap EmuItem.words ∧ filesOf items = [path] ∧
    ¬ (EmuItem.step ∈ items ∧ EmuItem.trace ∈ items)

/-- **The emulator's command line.** The usage is printed exactly if the words are not accepted; and
what items ask for does not depend on their order, but for the last of several addresses. -/
theorem emulator_command_line (fuel : Nat) (host : EmuHost) (prog : Bytes) :
    (∀ words, emulatorMain fuel host prog words = some ⟨1, [], printUsage prog⟩ ↔
      ¬ Accepted words) ∧
    ∀ items path, filesOf items = [path] → ¬ (EmuItem.step ∈ items ∧ EmuItem.trace ∈ items) →
      emulatorMain fuel host prog (items.flatMap EmuItem.words) =
        emulatorOn fuel host (setBy {} items) path := by
  refine ⟨fun words => ⟨?_, ?_⟩, fun items path => emulatorMain_items fuel host prog⟩
  · rintro husage ⟨items, path, rfl, hfile, hmode⟩
    rw [emulatorMain_items fuel host prog hfile hmode] at husage
    exact emulatorOn_ne_usage _ _ _ _ _ husage
  · intro hnot
    -- The loop takes items as long as it can. Then the words are used up, or the next word stops
    -- it.
    obtain ⟨items, rest, s, rfl, happly, hstuck⟩ :=
      argumentLoop_items.loop_split words.length words {} le_rfl
    have hset := applyAll_emu items {}
    rw [happly] at hset
    split at hset
    · rename_i hlen
      obtain rfl := Option.some.inj hset
      rw [emulatorMain, argumentLoop_items.loop_items happly]
      rcases argumentLoop_stuck hstuck with rfl | hnone
      · cases hcase : filesOf items with
        | nil =>
          have hpath : (setBy {} items).binPath = none := by
            rw [setBy, hcase]
            rfl
          simp only [argumentLoop, hpath]
        | cons path paths =>
          have hone : filesOf items = [path] := by
            rw [hcase] at hlen
            rw [hcase, List.eq_nil_of_length_eq_zero (Nat.le_zero.mp (Nat.le_of_succ_le_succ hlen))]
          have hpath : (setBy {} items).binPath = some path := by
            rw [setBy, hone]
            rfl
          have hmode : EmuItem.step ∈ items ∧ EmuItem.trace ∈ items := by
            by_contra hmode
            exact hnot ⟨items, path, List.append_nil _, hone, hmode⟩
          have hboth : ((setBy {} items).doStep && (setBy {} items).doTrace) = true := by
            simp only [setBy, hmode, decide_true, Bool.or_true, Bool.and_self]
          simp only [argumentLoop, hpath, hboth, if_true]
      · rw [hnone]
    · cases hset

end Proof
end EduCpu16
