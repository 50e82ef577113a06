import EduCpu16.Lib.BitFields
import EduCpu16.Proof.Pass2

/-!
# The result summary

`origin` is the operand of the first `.org` of the source, wherever that is, and `n_words` a count
modulo `2 ^ 16`. They are the first address and the number of the words emitted exactly when the
`.org` the first word goes by has the same operand and the words are fewer than `2 ^ 16`
(`summary_iff`).

`assembler.h` documents the two as the first address emitted and the number of words. The condition
is in terms of the layout: its first origin, and the last one in front of its first word.
-/

namespace EduCpu16
namespace Proof

open CLib BitFields

/-! ## The origin

`OriginOf` is the invariant of pass 1 for the two variables, the origin and whether it is set. A
line that is no `.org` leaves both alone, whatever else it does. -/

section Place

variable (st : Pass1)

theorem define_origin (lineNo : Nat) (what name : Bytes) (addr : Word) :
    (st.define lineNo what name addr).origin = st.origin ∧
    (st.define lineNo what name addr).sawOrigin = st.sawOrigin := by
  unfold Pass1.define
  split
  split
  · exact ⟨rfl, rfl⟩
  · exact ⟨rfl, rfl⟩

theorem placeLabel_origin (pl : ParsedLine) : (placeLabel st pl).origin = st.origin ∧
    (placeLabel st pl).sawOrigin = st.sawOrigin := by
  unfold placeLabel
  split
  · exact define_origin st _ _ _ _
  · exact ⟨rfl, rfl⟩

end Place

/-- The origin and whether it is set, after some items. -/
structure OriginOf (is : List Layout.Item) (st : Pass1) : Prop where
  origin : st.origin = BitVec.ofNat 16 ((Layout.orgs is).headD 0)
  saw : st.sawOrigin = !(Layout.orgs is).isEmpty

theorem orgs_snoc_org {is : List Layout.Item} {pl : ParsedLine} (h : IsOrg pl) :
    Layout.orgs (is ++ [itemOf pl]) = Layout.orgs is ++ [pl.dir.value.imm.toNat] := by
  simp [Layout.orgs, itemOf, h]

theorem orgs_snoc_words {is : List Layout.Item} {pl : ParsedLine} (h : ¬ IsOrg pl) :
    Layout.orgs (is ++ [itemOf pl]) = Layout.orgs is := by
  simp [Layout.orgs, itemOf, h]

/-- A `.org` sets the origin if it is the first. -/
theorem OriginOf.org {is : List Layout.Item} {st : Pass1} (h : OriginOf is st) {pl : ParsedLine}
    (horg : IsOrg pl) (hin : OrgInRange pl) : OriginOf (is ++ [itemOf pl]) (placeBody st pl) := by
  obtain ⟨horigin, hsaw⟩ := h
  have hok : ¬ (pl.dir.value.imm.toInt < 0 ∨ 0xFFFF < pl.dir.value.imm.toInt) := by
    unfold OrgInRange at hin
    omega
  unfold placeBody
  rw [if_pos horg]
  simp only
  rw [if_neg hok]
  cases hos : Layout.orgs is with
  | nil =>
    rw [hos] at hsaw
    rw [if_neg (by rw [hsaw]; decide)]
    refine ⟨?_, ?_⟩
    · rw [orgs_snoc_org horg, hos]
      exact (BitVec.ofNat_toNat 16 pl.dir.value.imm).symm
    · rw [orgs_snoc_org horg, hos]
      rfl
  | cons v vs =>
    rw [hos] at horigin hsaw
    rw [if_pos (by rw [hsaw]; rfl)]
    refine ⟨?_, ?_⟩
    · rw [orgs_snoc_org horg, hos]
      exact horigin
    · rw [orgs_snoc_org horg, hos]
      exact hsaw

/-- Anything else leaves it alone. -/
theorem OriginOf.other {is : List Layout.Item} {st : Pass1} (h : OriginOf is st) {pl : ParsedLine}
    (horg : ¬ IsOrg pl) : OriginOf (is ++ [itemOf pl]) (placeBody st pl) := by
  obtain ⟨horigin, hsaw⟩ : (placeBody st pl).origin = st.origin ∧
      (placeBody st pl).sawOrigin = st.sawOrigin := by
    unfold placeBody
    rw [if_neg horg]
    split
    · exact define_origin st _ _ _ _
    · exact ⟨rfl, rfl⟩
  refine ⟨?_, ?_⟩
  · rw [horigin, h.origin, orgs_snoc_words horg]
  · rw [hsaw, h.saw, orgs_snoc_words horg]

/-- The origin after pass 1. -/
theorem pass1_originOf {lines : List Bytes} (h : (pass1 lines).nErrors = 0) :
    OriginOf (layoutOf lines) (pass1 lines) := by
  rw [← parsed_layout h]
  induction lines using List.reverseRecOn with
  | nil => exact ⟨rfl, rfl⟩
  | append_singleton lines src ih =>
    have horgs := (pass1Ok h).orgs
    rw [pass1_snoc] at h horgs ⊢
    have hzero : (pass1 lines).nErrors = 0 :=
      Nat.le_zero.mp (h ▸ pass1Line_nErrors_le (pass1 lines) src)
    rcases pass1Line_cases (pass1 lines) src with ⟨d, pl, heq⟩ | ⟨pl, -, heq⟩
    · simp [heq, Pass1.report] at h
    · rw [heq] at horgs ⊢
      rw [(place_spec _ _).1] at horgs ⊢
      rw [List.map_append, List.map_singleton, place_eq]
      have hbefore := ih hzero
      obtain ⟨horigin, hsaw⟩ := placeLabel_origin { pass1 lines with
        parsed := (pass1 lines).parsed ++ [{ pl with address := (pass1 lines).addr }] } pl
      have hlabel : OriginOf ((pass1 lines).parsed.map itemOf) (placeLabel { pass1 lines with
          parsed := (pass1 lines).parsed ++ [{ pl with address := (pass1 lines).addr }] } pl) :=
        ⟨horigin.trans hbefore.origin, hsaw.trans hbefore.saw⟩
      by_cases horg : IsOrg pl
      · exact hlabel.org horg (horgs _ (List.mem_append_right _ List.mem_cons_self) horg)
      · exact hlabel.other horg

/-- The operands of the `.org`s fit the counter. -/
theorem orgs_lt {lines : List Bytes} (h : (pass1 lines).nErrors = 0) :
    ∀ v ∈ Layout.orgs (layoutOf lines), v < 65536 := by
  intro v hv
  rw [← parsed_layout h] at hv
  obtain ⟨i, hi, hiv⟩ := List.mem_filterMap.mp hv
  obtain ⟨pl, hpl, rfl⟩ := List.mem_map.mp hi
  by_cases horg : IsOrg pl
  · have hin := (pass1Ok h).orgs pl hpl horg
    rw [itemOf, if_pos horg] at hiv
    obtain rfl := Option.some.inj hiv
    unfold OrgInRange at hin
    rw [BitVec.toInt_eq_toNat_cond] at hin
    have hlt := pl.dir.value.imm.isLt
    split at hin
    · omega
    · omega
  · rw [itemOf, if_neg horg] at hiv
    cases hiv

/-! ## The summary -/

/-- The origin is the first address emitted, and the words are counted. -/
structure Truthful (opt : AsmOptions) (lines : List Bytes) : Prop where
  origin : (emitted opt lines).head?.map Prod.fst = some (assembleLines opt lines).result.origin
  nWords : (assembleLines opt lines).result.nWords.toNat = (emitted opt lines).length

section Summary

variable {opt : AsmOptions} {lines : List Bytes} (h : Assembles opt lines)
include h

theorem emitted_length :
    (emitted opt lines).length = ((layoutOf lines).map Layout.Item.size).sum := by
  rw [← Layout.addrs_length 0, ← List.length_map (BitVec.ofNat 16), ← emitted_addrs h,
    List.length_map]

/-- The first word goes by the last `.org` before it. -/
theorem emitted_head? (hne : emitted opt lines ≠ []) : (emitted opt lines).head?.map Prod.fst =
    some (BitVec.ofNat 16 ((Layout.orgs (Layout.lead (layoutOf lines))).getLastD 0)) := by
  have haddrs := emitted_addrs h
  have hsome : Layout.addrs 0 (layoutOf lines) ≠ [] := by
    intro hnil
    rw [hnil, List.map_nil, List.map_eq_nil_iff] at haddrs
    exact hne haddrs
  rw [← List.head?_map, haddrs, List.head?_map, Layout.addrs_head? hsome,
    Layout.counter_of_no_words (Layout.lead_size _)]
  rfl

omit h in
theorem ofNat_eq_iff {a b : Nat} (ha : a < 65536) (hb : b < 65536) :
    BitVec.ofNat 16 a = BitVec.ofNat 16 b ↔ b = a := by
  rw [← BitVec.toNat_inj, toNat_ofNat_of_lt ha, toNat_ofNat_of_lt hb, eq_comm]

/-- **When the summary is right**, for a source that emits something. Of a source that emits nothing
there is no first address to compare the origin with. -/
theorem summary_iff (hne : emitted opt lines ≠ []) : Truthful opt lines ↔
    (Layout.orgs (layoutOf lines)).headD 0 =
      (Layout.orgs (Layout.lead (layoutOf lines))).getLastD 0 ∧
    ((layoutOf lines).map Layout.Item.size).sum < 65536 := by
  have hzero := (assembles_iff.mp h).1
  -- All addresses are below 65536, so equal words are equal numbers.
  have hlt := orgs_lt hzero
  have hfirst : (Layout.orgs (layoutOf lines)).headD 0 < 65536 := by
    cases hos : Layout.orgs (layoutOf lines) with
    | nil => decide
    | cons v vs => exact hlt v (by rw [hos]; exact List.mem_cons_self)
  have hlast : (Layout.orgs (Layout.lead (layoutOf lines))).getLastD 0 < 65536 := by
    rcases List.mem_cons.mp (List.getLastD_mem_cons (a := 0)) with hnone | hmem
    · rw [hnone]
      decide
    · refine hlt _ (List.Sublist.subset ?_ hmem)
      exact (List.takeWhile_sublist _).filterMap _
  have horigin : (assembleLines opt lines).result.origin =
      BitVec.ofNat 16 ((Layout.orgs (layoutOf lines)).headD 0) := (pass1_originOf hzero).origin
  have hhead := emitted_head? h hne
  have hwords := pass2_nWords opt lines
  rw [emitted_length h] at hwords
  constructor
  · rintro ⟨hsame, hcount⟩
    rw [hhead, horigin, Option.some.injEq, ofNat_eq_iff hlast hfirst] at hsame
    refine ⟨hsame, ?_⟩
    rw [emitted_length h, hwords, BitVec.toNat_ofNat] at hcount
    omega
  · rintro ⟨hsame, hcount⟩
    refine ⟨?_, ?_⟩
    · rw [hhead, horigin, Option.some.injEq, ofNat_eq_iff hlast hfirst]
      exact hsame
    · rw [hwords, emitted_length h, BitVec.toNat_ofNat]
      exact Nat.mod_eq_of_lt hcount

end Summary

/-- A `.org` that the whole source stands behind. -/
theorem summary_iff_org : Truthful {} [ascii ".org 0x10", ascii "HALT"] := by
  refine (summary_iff (by decide +kernel) ?_).mpr ?_
  · intro hnil
    have hlen : (emitted {} [ascii ".org 0x10", ascii "HALT"]).length = 1 := by decide +kernel
    rw [hnil] at hlen
    cases hlen
  · have hlayout : layoutOf [ascii ".org 0x10", ascii "HALT"] = [.org 0x10, .words 1] := by
      decide +kernel
    rw [hlayout]
    decide

/-- The first word goes to address 0 and the origin is that of the `.org` behind it. -/
theorem summary_wrong :
    let lines := [ascii "HALT", ascii ".org 0x10", ascii "HALT"]
    Assembles {} lines ∧ emitted {} lines = [(0, 0xF800), (0x10, 0xF800)] ∧
      (assembleLines {} lines).result.origin = 0x10 ∧ ¬ Truthful {} lines := by
  intro lines
  have hemitted : emitted {} lines = [(0, 0xF800), (0x10, 0xF800)] := by decide +kernel
  have horigin : (assembleLines {} lines).result.origin = 0x10 := by decide +kernel
  refine ⟨by decide +kernel, hemitted, horigin, ?_⟩
  rintro ⟨hsame, -⟩
  rw [hemitted, horigin] at hsame
  cases hsame

end Proof
end EduCpu16
