import EduCpu16.Proof.Pass2

/-!
# The two passes never drift apart

Pass 1 predicts where each line's words will be and pass 2 emits them. The prediction is the
location counter after the lines before, which is the operand of the last `.org` and the words
emitted since (`counter_since`); a label resolves to the prediction for its own line, and lines that
emit nothing do not move it.

The sizes come from two functions, `line_size` in pass 1 and the emitting code of pass 2, and
nothing in the code compares them. `passes_agree` does, for every line of every source that
assembles.
-/

namespace EduCpu16
namespace Proof

open CLib

/-! ## Symbols -/

/-- A symbol that a line defines is found at the value it defines. -/
theorem Assembles.lookup_def {opt : AsmOptions} {lines : List Bytes} (h : Assembles opt lines)
    {pl : ParsedLine} (hpl : pl ∈ (pass1 lines).parsed) {name : Bytes} {a : Word}
    (hdef : (name, a) ∈ definitions pl) (hlen : name.length ≤ symNameMax) :
    symtableLookup (pass1 lines).sym name = a.setWidth 32 := by
  rw [h.pass1Ok.sym]
  exact symtableLookup_insertAll h.pass1Ok.codes hlen (List.mem_flatMap.mpr ⟨pl, hpl, hdef⟩)

theorem label_mem_definitions {pl : ParsedLine} (hl : pl.label ≠ []) :
    (pl.label, pl.address) ∈ definitions pl := by
  simp [definitions, hl]

/-- A label operand that is found becomes its address. -/
theorem resolveOperand_of_lookup {sym : Symtable} {lineNo : Nat} {o : Operand} {a : Word}
    (hk : o.kind = .label) (hl : symtableLookup sym o.label = a.setWidth 32) :
    resolveOperand sym lineNo o = ({ o with kind := .imm, imm := a.setWidth 32 }, none) := by
  have hfound : a.setWidth 32 ≠ symNotFound := setWidth_ne_symNotFound a
  simp only [resolveOperand, hk, hl, ne_eq, not_true_eq_false, if_false, hfound]

/-! ## The last origin

`lastOrg` and `sinceOrg` look back from a line; both are defined on rows, so that the words since
are those that pass 2 has emitted. -/

/-- The operand of the last `.org` among some rows, 0 if there is none. -/
def lastOrg (pre : List (Bytes × ParsedLine)) : Nat :=
  ((pre.reverse.find? fun q => IsOrg q.2).map fun q => q.2.dir.value.imm.toNat).getD 0

/-- The rows after the last `.org`. -/
def sinceOrg (pre : List (Bytes × ParsedLine)) : List (Bytes × ParsedLine) :=
  (pre.reverse.takeWhile fun q => ¬ IsOrg q.2).reverse

/-- The location counter is the last origin plus the words since. -/
theorem counter_since (pre : List (Bytes × ParsedLine)) :
    Layout.counter 0 (pre.map fun q => itemOf q.2) =
      lastOrg pre + ((sinceOrg pre).map fun q => (itemOf q.2).size).sum := by
  induction pre using List.reverseRecOn with
  | nil => rfl
  | append_singleton pre r ih =>
    rw [List.map_append, Layout.counter_append, ih]
    by_cases horg : IsOrg r.2
    · simp [lastOrg, sinceOrg, horg, Layout.counter, itemOf, Layout.Item.next]
    · simp [lastOrg, sinceOrg, horg, Layout.counter, itemOf, Layout.Item.next, Layout.Item.size,
        Nat.add_assoc]

section Agreement

variable {opt : AsmOptions} {lines : List Bytes}

/-- Rows that emit nothing, with no `.org` among them, do not move the counter. -/
theorem Assembles.counter_silent (h : Assembles opt lines) {seg : List (Bytes × ParsedLine)}
    (hmem : ∀ q ∈ seg, q ∈ rows lines) (hseg : ∀ q ∈ seg, ¬ IsOrg q.2 ∧ emit opt lines q = [])
    (c : Nat) : Layout.counter c (seg.map fun q => itemOf q.2) = c := by
  rw [Layout.counter_of_no_org, List.map_map]
  · have hzero : ∀ q ∈ seg, (Layout.Item.size ∘ fun q => itemOf q.2) q = 0 := by
      intro q hq
      have hlen := h.emit_length (hmem q hq)
      rw [(hseg q hq).2, List.length_nil] at hlen
      rw [Function.comp_apply, itemOf_size, ← hlen]
    rw [List.map_congr_left hzero]
    simp
  · intro i hi
    obtain ⟨q, hq, rfl⟩ := List.mem_map.mp hi
    rw [itemOf, if_neg (hseg q hq).1]
    rfl

/-- The words since the last `.org` are those pass 2 emits. -/
theorem Assembles.counter_emit (h : Assembles opt lines) {pre post : List (Bytes × ParsedLine)}
    (hrows : rows lines = pre ++ post) : Layout.counter 0 (pre.map fun q => itemOf q.2) =
      lastOrg pre + ((sinceOrg pre).map fun q => (emit opt lines q).length).sum := by
  rw [counter_since]
  congr 2
  apply List.map_congr_left
  intro q hq
  have hmem : q ∈ pre := by
    rw [sinceOrg, List.mem_reverse] at hq
    exact List.mem_reverse.mp ((List.takeWhile_prefix _).subset hq)
  rw [itemOf_size, h.emit_length (by rw [hrows]; exact List.mem_append_left _ hmem)]

/-- The first word of a row that emits goes to the row's address. -/
theorem Assembles.emit_head (h : Assembles opt lines) {r : Bytes × ParsedLine}
    (hr : r ∈ rows lines) (hne : emit opt lines r ≠ []) :
    ∃ w rest, emit opt lines r = (r.2.address, w) :: rest := by
  have haddrs := h.emit_addrs hr
  cases hemit : emit opt lines r with
  | nil => exact absurd hemit hne
  | cons s rest =>
    have hlen := h.emit_length hr
    rw [hemit, List.length_cons] at hlen
    rw [hemit, ← hlen, wordsFrom_succ, List.map_cons, List.cons.injEq] at haddrs
    exact ⟨s.2, rest, by rw [← haddrs.1]⟩

/-- A label on a row stands for the address of the next row that emits, if no `.org` comes
between. -/
theorem Assembles.label_address (h : Assembles opt lines)
    {pre seg post : List (Bytes × ParsedLine)} {d r : Bytes × ParsedLine}
    (hrows : rows lines = pre ++ (seg ++ r :: post)) (hd : (seg ++ [r]).head? = some d)
    (hseg : ∀ q ∈ seg, ¬ IsOrg q.2 ∧ emit opt lines q = []) : d.2.address = r.2.address := by
  cases seg with
  | nil =>
    obtain rfl : r = d := by simpa using hd
    rfl
  | cons q seg =>
    obtain rfl : q = d := by simpa using hd
    have hmem : ∀ p ∈ q :: seg, p ∈ rows lines := by
      intro p hp
      rw [hrows]
      exact List.mem_append_right _ (List.mem_append_left _ hp)
    have hq := h.address (by rw [hrows]; rfl :
      rows lines = pre ++ q :: (seg ++ r :: post))
    have hr := h.address (by rw [hrows, ← List.append_assoc] :
      rows lines = (pre ++ q :: seg) ++ r :: post)
    -- The rows in between emit nothing, so the counter is where it was.
    rw [List.map_append, Layout.counter_append, h.counter_silent hmem hseg] at hr
    rw [hq, hr]

end Agreement

/-- **The two passes never drift apart.** Every line emits as many words as `line_size` says, at
consecutive addresses from the last `.org` plus the words emitted since; and a label resolves to
the address of the first word of the first line from its own on that emits any, provided no
`.org` comes between. -/
theorem passes_agree {opt : AsmOptions} {lines : List Bytes} (h : Assembles opt lines) :
    (∀ pre r post, rows lines = pre ++ r :: post →
      (emit opt lines r).map Prod.fst = wordsFrom r.2.address (lineSize r.2).toNat ∧
      r.2.address = BitVec.ofNat 16 (lastOrg pre +
        ((sinceOrg pre).map fun q => (emit opt lines q).length).sum)) ∧
    (∀ pre seg r post d, rows lines = pre ++ (seg ++ r :: post) →
      (seg ++ [r]).head? = some d → d.2.label ≠ [] → d.2.label.length ≤ symNameMax →
      (∀ q ∈ seg, ¬ IsOrg q.2 ∧ emit opt lines q = []) → emit opt lines r ≠ [] →
      ∃ a w rest, emit opt lines r = (a, w) :: rest ∧
        ∀ lineNo o, o.kind = .label → o.label = d.2.label →
          resolveOperand (pass1 lines).sym lineNo o =
            ({ o with kind := .imm, imm := a.setWidth 32 }, none)) := by
  refine ⟨?_, ?_⟩
  · intro pre r post hrows
    have hr := row_mem hrows
    exact ⟨h.emit_addrs hr, by rw [h.address hrows, h.counter_emit hrows]⟩
  · intro pre seg r post d hrows hd hlabel hlen hseg hemit
    have hmem : ∀ q ∈ seg ++ [r], q ∈ rows lines := by
      intro q hq
      rw [hrows, List.append_cons]
      exact List.mem_append_right _ (List.mem_append_left _ hq)
    have hdrow := hmem d (List.mem_of_mem_head? hd)
    obtain ⟨w, rest, hw⟩ := h.emit_head (hmem r (by simp)) hemit
    refine ⟨r.2.address, w, rest, hw, ?_⟩
    intro lineNo o hk ho
    have hlookup := h.lookup_def (rows_mem hdrow) (label_mem_definitions hlabel) hlen
    rw [h.label_address hrows hd hseg] at hlookup
    exact resolveOperand_of_lookup hk (ho ▸ hlookup)

/-- A label on a line of its own, a blank line, and the word that uses it. -/
theorem passes_agree_here :
    let lines := [ascii ".org 3", ascii "HERE:", ascii "", ascii ".word HERE"]
    ∀ lineNo o, o.kind = .label → o.label = ascii "HERE" →
      resolveOperand (pass1 lines).sym lineNo o =
        ({ o with kind := .imm, imm := 3 }, none) := by
  intro lines lineNo o hk ho
  have hok : Assembles {} lines := by decide +kernel
  let org : Bytes × ParsedLine := (ascii ".org 3",
    { kind := .directive, lineNo := 1, dir := { value := { kind := .imm, imm := 3 } } })
  let here : Bytes × ParsedLine := (ascii "HERE:",
    { kind := .label, lineNo := 2, address := 3, label := ascii "HERE" })
  let blank : Bytes × ParsedLine := (ascii "", { lineNo := 3, address := 3 })
  let word : Bytes × ParsedLine := (ascii ".word HERE",
    { kind := .directive, lineNo := 4, address := 3
      dir := { kind := .word, value := { kind := .label, label := ascii "HERE" } } })
  have hrows : rows lines = [org] ++ ([here, blank] ++ word :: []) := by decide +kernel
  have hemit : emit {} lines word = [(3, 3)] := by decide +kernel
  obtain ⟨a, w, rest, ha, hres⟩ := (passes_agree hok).2 [org] [here, blank] word [] here hrows rfl
    (by decide) (by decide) (by decide +kernel) (by rw [hemit]; decide)
  obtain rfl : 3 = a := by
    rw [hemit] at ha
    exact congrArg Prod.fst (List.cons.inj ha).1
  exact hres lineNo o hk ho

end Proof
end EduCpu16
