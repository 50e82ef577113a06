import EduCpu16.Proof.Assembly
import EduCpu16.Proof.Scan

/-!
# A source in another style

The ways of writing a source that leave the program alone (`Edit`): blank lines and comments, other
separators, another case, a label on its own line, more labels. A line that is rewritten is the same
statement (`EditLine.readsAs`), and the other edits add a statement or split one.

An edit is described by its position in the line, which is found by lexing up to it (`Scans`).
Inside a string a blank or a letter is text, and it is the position that keeps an edit out of there.
Which words may change their case is up to the statement: a mnemonic, a directive, a register, but
no name.
-/

namespace EduCpu16
namespace Proof

open CLib Source

/-! ## Edits -/

/-- A line with white space only, or with a comment behind it. -/
inductive BlankLine : Bytes → Prop
  | blank {ws : Bytes} (hws : ∀ b ∈ ws, isspace b = true) : BlankLine ws
  | comment {ws : Bytes} (hws : ∀ b ∈ ws, isspace b = true) (text : Bytes) :
      BlankLine (ws ++ ch ';' :: text)

/-- What behind the tokens `ts` may be written in any case: a mnemonic, the name of a directive or
a register where an instruction or a `.word` has an operand. -/
def AnyCase (ts : List Token) (t : Token) : Prop :=
  match (splitLabel ts).2 with
  | [] => t.kind = .ident ∨ t.kind = .directive
  | head :: _ =>
      (head.kind = .ident ∨ (head.kind = .directive ∧ readDirName head.text = some .word)) ∧
      t.kind = .ident ∧ (parseRegister t.text).isSome = true

/-- A line written in another way. -/
inductive EditLine : Bytes → Bytes → Prop
  | comment {src : Bytes} (hlex : (lexLine src 0).2 = none) (text : Bytes) :
      EditLine src (src ++ ch ';' :: text)
  | separators {u s s' q : Bytes} {ts : List Token} (hpos : Scans (u ++ (s ++ q)) ts (s ++ q))
      (hs : Separators s) (hs' : Separators s') (hne : s' ≠ []) :
      EditLine (u ++ (s ++ q)) (u ++ (s' ++ q))
  | letters {u s w w' q : Bytes} {ts : List Token} {kind : TokenKind}
      (hpos : Scans (u ++ (s ++ (w ++ q))) ts (s ++ (w ++ q))) (hs : Separators s)
      (hturn : turn (w ++ q) = .token kind w q) (hany : AnyCase ts ⟨kind, w⟩)
      (hcase : SameLetters w' w) : EditLine (u ++ (s ++ (w ++ q))) (u ++ (s ++ (w' ++ q)))

/-- The names a line defines, if it is accepted. -/
def lineNames (src : Bytes) : List Bytes :=
  match lexLine src 0 with
  | (tl, none) =>
      match parseLine tl with
      | (pl, none) => (definitions pl).map Prod.fst
      | (_, some _) => []
  | (_, some _) => []

/-- The names a source defines, in order. -/
def symbolNames (lines : List Bytes) : List Bytes := lines.flatMap lineNames

/-- One edit of a source: a line is added, rewritten or split. Sequences of edits are taken in the
theorem (`layout_and_case`). -/
inductive Edit : List Bytes → List Bytes → Prop
  | blank {pre post : List Bytes} {l : Bytes} (h : BlankLine l) :
      Edit (pre ++ post) (pre ++ l :: post)
  | line {pre post : List Bytes} {src src' : Bytes} (h : EditLine src src') :
      Edit (pre ++ src :: post) (pre ++ src' :: post)
  /-- A label with its colon goes to a line of its own. -/
  | label {pre post : List Bytes} {a b name : Bytes} (h : turn (a ++ b) = .token .label name b) :
      Edit (pre ++ (a ++ b) :: post) (pre ++ a :: b :: post)
  /-- A new label. -/
  | fresh {pre post : List Bytes} {l name : Bytes}
      (h : lexLine l 0 = (⟨[⟨.label, name⟩], 0⟩, none))
      (hfresh : name ∉ symbolNames (pre ++ post)) :
      Edit (pre ++ post) (pre ++ l :: post)

/-! ## Where a line stops

A semicolon stops a line where it would have stopped anyway, so a comment adds no token. -/

theorem turn_stop_comment {q : Bytes} (h : turn q = .stop) (text : Bytes) :
    turn (q ++ ch ';' :: text) = .stop := by
  obtain ⟨s, hs, hq, hidem⟩ := skipSeparators_split q
  rw [turn_stop_iff] at h
  rw [hq, List.append_assoc, turn_separators hs, turn_stop_iff]
  generalize skipSeparators q = r at h hidem
  cases r with
  | nil => exact .inr rfl
  | cons c cs =>
    rw [List.cons_append, skipSeparators_eq_self hidem rfl]
    exact h

/-- A blank line has no tokens. -/
theorem BlankLine.lexes {l : Bytes} (h : BlankLine l) : Lexes l [] := by
  have hsep : ∀ {ws : Bytes}, (∀ b ∈ ws, isspace b = true) → Separators ws :=
    fun hws c hc => ⟨isspace_separator c (hws c hc), .inl (hws c hc)⟩
  have hnil : turn [] = .stop := rfl
  cases h with
  | blank hws =>
    refine .stop ?_
    rw [← List.append_nil l, turn_separators (hsep hws), hnil]
  | comment hws text =>
    refine .stop ?_
    rw [turn_separators (hsep hws)]
    exact turn_stop_comment hnil text

/-! ## A line written in another way

For comments and separators the tokens stay the same. For letters one token changes its text, and
the statement that is read does not: `readStmt` looks at it through `tolower` or as a register. -/

theorem lexes_comment {src : Bytes} {ts : List Token} (h : Lexes src ts) (text : Bytes) :
    Lexes (src ++ ch ';' :: text) ts := by
  obtain ⟨q, hscan, hstop⟩ := h.scans
  obtain ⟨u, rfl, hlocal⟩ := hscan.local
  have hends : EndsLike (q ++ ch ';' :: text) q := by
    cases q with
    | nil => exact endsLike_of_wordEnd (wordEnd_semicolon text) []
    | cons c cs => exact endsLike_of_deref rfl
  rw [List.append_assoc, ← List.append_nil ts]
  exact (hlocal _ hends).lexes (.stop (turn_stop_comment hstop text))

theorem lexes_separators {s s' q : Bytes} {ts : List Token} (hs : Separators s)
    (hs' : Separators s') (h : Lexes (s ++ q) ts) : Lexes (s' ++ q) ts := by
  have hsame : turn (s' ++ q) = turn (s ++ q) := by
    rw [turn_separators hs, turn_separators hs']
  cases h with
  | stop hstop => exact .stop (hsame.trans hstop)
  | token hturn hrest => exact .token (hsame.trans hturn) hrest

theorem tolower_digit : ∀ c : Byte, isdigit c = true → tolower c = c := by decide

theorem isdigit_tolower : ∀ c : Byte, isdigit (tolower c) = isdigit c := by decide

theorem tolower_eq_r : ∀ c : Byte, tolower c = ch 'r' ↔ c = ch 'R' ∨ c = ch 'r' := by decide

/-- A register has its name in either case. -/
theorem parseRegister_case {w' w : Bytes} (h : SameLetters w' w) :
    parseRegister w' = parseRegister w := by
  have hlen := h.length
  match w', w, h, hlen with
  | [], [], _, _ => rfl
  | [_], [_], _, _ => rfl
  | [r', d'], [r, d], h, _ =>
    have hr : tolower r' = tolower r := (List.cons.inj h).1
    have hd : tolower d' = tolower d := (List.cons.inj (List.cons.inj h).2).1
    have hfirst : (r' = ch 'R' ∨ r' = ch 'r') ↔ (r = ch 'R' ∨ r = ch 'r') := by
      rw [← tolower_eq_r, hr, tolower_eq_r]
    have hdigit : isdigit d' = isdigit d := by
      rw [← isdigit_tolower d', hd, isdigit_tolower]
    by_cases hboth : (r = ch 'R' ∨ r = ch 'r') ∧ isdigit d = true
    · have hsame : d' = d := by
        rw [← tolower_digit d (hboth.2), ← hd, tolower_digit d' (hdigit.trans hboth.2)]
      rw [parseRegister, parseRegister, if_pos hboth, hsame,
        if_pos ⟨hfirst.mpr hboth.1, hboth.2⟩]
    · rw [parseRegister, parseRegister, if_neg hboth, if_neg]
      rintro ⟨hr', hd'⟩
      exact hboth ⟨hfirst.mp hr', hdigit.symm.trans hd'⟩
  | _ :: _ :: _ :: _, _ :: _ :: _ :: _, _, _ => rfl

theorem splitLabel_append {ts : List Token} {t : Token} (ht : ts ≠ [] ∨ t.kind ≠ .label)
    (us : List Token) : splitLabel (ts ++ t :: us) =
      ((splitLabel ts).1, (splitLabel ts).2 ++ t :: us) := by
  cases ts with
  | nil =>
    have hkind : t.kind ≠ .label := ht.resolve_left fun hne => hne rfl
    have hsplit : splitLabel (t :: us) = ([], t :: us) := by rw [splitLabel, if_neg hkind]
    exact hsplit
  | cons head rest =>
    rw [List.cons_append, splitLabel, splitLabel]
    split <;> rfl

theorem AnyCase.kind {ts : List Token} {t : Token} (h : AnyCase ts t) :
    t.kind = .ident ∨ t.kind = .directive := by
  unfold AnyCase at h
  split at h
  · exact h
  · exact .inl h.2.1

/-- A statement is read in any case. -/
theorem readStmt_case {ts us : List Token} {t : Token} (hany : AnyCase ts t) {w' : Bytes}
    (hcase : SameLetters w' t.text) :
    readStmt (ts ++ ⟨t.kind, w'⟩ :: us) = readStmt (ts ++ t :: us) := by
  obtain ⟨kind, w⟩ := t
  have hkind : kind = .ident ∨ kind = .directive := hany.kind
  have hlabel : kind ≠ .label := by
    rcases hkind with rfl | rfl <;> decide
  have hcmd : readCmd ((splitLabel ts).2 ++ ⟨kind, w'⟩ :: us) =
      readCmd ((splitLabel ts).2 ++ ⟨kind, w⟩ :: us) := by
    unfold AnyCase at hany
    split at hany
    · -- The head of the command.
      rename_i hnil
      have hlower : w'.map tolower = w.map tolower := hcase
      rw [hnil, List.nil_append, List.nil_append]
      rcases hkind with rfl | rfl
      · simp only [readCmd, hlower]
      · simp only [readCmd, readDirName, hlower]
    · rename_i head rest hcons
      obtain ⟨hhead, rfl, hreg⟩ := hany
      have harg : readArg ⟨.ident, w'⟩ = readArg ⟨.ident, w⟩ := by
        simp only [readArg, parseRegister_case hcase]
        obtain ⟨r, hr⟩ := Option.isSome_iff_exists.mp hreg
        rw [show parseRegister w = some r from hr]
        rfl
      have hlen : (rest ++ ⟨.ident, w'⟩ :: us).length =
          (rest ++ (⟨.ident, w⟩ : Token) :: us).length := by
        rw [List.length_append, List.length_append]
        rfl
      rw [hcons, List.cons_append, List.cons_append]
      rcases hhead with hhead | ⟨hhead, hword⟩
      · simp only [readCmd, hhead, hlen, List.mapM_append, List.mapM_cons, harg]
      · -- A `.word` takes the first argument.
        simp only [readCmd, hhead, hword, Option.bind_some]
        cases rest with
        | nil => simp only [List.nil_append, readDir, harg]
        | cons arg rest => rfl
  rw [readStmt, readStmt, splitLabel_append (.inr hlabel), splitLabel_append (.inr hlabel), hcmd]

/-- **A line written in another way is the same statement.** -/
theorem EditLine.readsAs {src src' : Bytes} (h : EditLine src src') {s : Stmt}
    (hread : ReadsAs src s) : ReadsAs src' s := by
  obtain ⟨us, hlex, hmax, hs⟩ := hread
  cases h with
  | comment _ text => exact ⟨us, lexes_comment hlex text, hmax, hs⟩
  | @separators u s s' q ts hpos hsep hsep' hne =>
    obtain ⟨vs, rfl, hrest⟩ := hpos.split hlex
    have hends : EndsLike (s' ++ q) (s ++ q) :=
      endsLike_of_wordEnd (wordEnd_separators hsep' hne q) _
    exact ⟨_, (hpos.replace hends).lexes (lexes_separators hsep hsep' hrest), hmax, hs⟩
  | @letters u s w w' q ts kind hpos hsep hturn hany hcase =>
    obtain ⟨vs, rfl, hrest⟩ := hpos.split hlex
    have hkind : kind = .ident ∨ kind = .directive := hany.kind
    -- The token itself, then the line behind it.
    have hw : ∀ {x : Bytes}, turn (x ++ q) = .token kind x q → tokenText x = x := by
      intro x hx
      exact tokenText_word ((turn_ident_iff hkind).mp hx).1
    have hturn' := turn_case hkind hcase hturn
    obtain ⟨us, rfl, hq⟩ : ∃ us, vs = ⟨kind, w⟩ :: us ∧ Lexes q us := by
      cases hrest with
      | stop hstop => cases ((turn_separators hsep _).trans hturn).symm.trans hstop
      | token ht hq =>
        cases ((turn_separators hsep _).trans hturn).symm.trans ht
        rw [hw hturn]
        exact ⟨_, rfl, hq⟩
    have hrest' : Lexes (s ++ (w' ++ q)) (⟨kind, w'⟩ :: us) := by
      have hlex' : Lexes (s ++ (w' ++ q)) (⟨kind, tokenText w'⟩ :: us) :=
        .token ((turn_separators hsep _).trans hturn') hq
      rwa [hw hturn'] at hlex'
    refine ⟨_, (hpos.replace ((hcase.append q).endsLike.append s)).lexes hrest', ?_, ?_⟩
    · rw [List.length_append, List.length_cons] at hmax ⊢
      exact hmax
    · exact (readStmt_case hany hcase).trans hs

/-! ## Lines that are added or split

A blank line is the empty statement, and so is what is left of a label when its command has gone to
the next line. -/

theorem BlankLine.readsAs {l : Bytes} (h : BlankLine l) : ReadsAs l {} :=
  ⟨[], h.lexes, Nat.zero_le _, rfl⟩

theorem readsAs_labelLine {l name : Bytes} (h : lexLine l 0 = (⟨[⟨.label, name⟩], 0⟩, none)) :
    ReadsAs l { label := name } := by
  obtain ⟨-, hlex, hmax⟩ := lexLine_iff.mp h
  exact ⟨_, hlex, hmax, rfl⟩

/-- A label on its own line is the same label, before the same command. -/
theorem readsAs_split {a b name : Bytes} (h : turn (a ++ b) = .token .label name b) {s : Stmt}
    (hread : ReadsAs (a ++ b) s) :
    ReadsAs a { label := s.label } ∧ ReadsAs b { cmd := s.cmd } := by
  obtain ⟨us, hlex, hmax, hs⟩ := hread
  obtain ⟨u, -, hu, hlocal⟩ := turn_local h
  obtain rfl := List.append_cancel_right hu
  have ha : turn a = .token .label name [] := by
    have hend := hlocal [] (endsLike_of_wordEnd wordEnd_nil b)
    rwa [List.append_nil] at hend
  cases hlex with
  | stop hstop => cases h.symm.trans hstop
  | @token _ _ _ _ vs hturn hrest =>
    cases h.symm.trans hturn
    obtain ⟨c, hc, rfl⟩ := Option.map_eq_some_iff.mp hs
    refine ⟨⟨_, .token ha (.stop rfl), show 1 ≤ maxTokensPerLine by decide, rfl⟩, vs, hrest, ?_, ?_⟩
    · rw [List.length_cons] at hmax
      omega
    · -- Behind a label there is no second one.
      have hsplit : splitLabel vs = ([], vs) := by
        cases vs with
        | nil => rfl
        | cons head rest =>
          rw [splitLabel, if_neg]
          intro hlabel
          have hcmd : readCmd (head :: rest) = some c := hc
          rw [readCmd, hlabel] at hcmd
          cases hcmd
      rw [readStmt, hsplit, show readCmd vs = some c from hc]
      rfl

/-! ## The names of a source

`Edit` speaks of the names of lines, as the parser records them; here they are those of the
statements. -/

/-- The names a statement defines. -/
def names (s : Stmt) : List Bytes := (s.defs 0).map Prod.fst

theorem names_eq (s : Stmt) (addr : Word) : (s.defs addr).map Prod.fst = names s := by
  obtain ⟨label, cmd⟩ := s
  by_cases hl : label = [] <;> cases cmd <;> simp [names, Stmt.defs, hl]

theorem lineNames_of_readsAs {src : Bytes} {s : Stmt} (h : ReadsAs src s) :
    lineNames src = names s := by
  obtain ⟨pl, ⟨tl, hlex, hparse⟩, hof⟩ := h.accepts 0
  rw [lineNames, hlex]
  simp only [hparse]
  rw [hof.definitions, names_eq]

theorem symbolNames_of_readsAs {lines : List Bytes} {ss : List Stmt}
    (h : List.Forall₂ ReadsAs lines ss) : symbolNames lines = ss.flatMap names :=
  Traverse.flatMap_eq_of_forall₂ (h.imp fun _ _ => lineNames_of_readsAs)

theorem symbols_names (ss : List Stmt) : (symbols ss).map Prod.fst = ss.flatMap names := by
  rw [symbols, List.map_flatMap]
  simp only [names_eq]
  rw [← List.flatMap_map Prod.snd names, placed_snd]

end Proof
end EduCpu16
