import EduCpu16.Lib.BitFields
import EduCpu16.Proof.Passes

/-!
# The image and the output file

The image holds at each address the last word emitted there. Two things can go wrong between the
source and the file. The length of the file comes from the final value of the address counter, so it
is right exactly when the source ends at its highest address (`bin_is_image_iff`). And nothing
checks that the words go to different addresses; they do exactly when the blocks of the layout are
apart and stay within the 16-bit counter (`no_overwrite_iff`).

Both conditions are read off the layout, that is off the `.org` operands and the sizes of the lines,
and can be evaluated for a source without running the passes. The first two sections are about bytes
and lengths; the third follows the counter, which is a `uint16_t` in the code and a number in the
layout, up to the first place where the two could differ.
-/

namespace EduCpu16
namespace Proof

open CLib

/-! ## The bytes of the file

Little endian, two bytes for each word from address 0 on. -/

theorem imageBytes_succ (image : Word → Word) (count : Nat) :
    imageBytes image (count + 1) = imageBytes image count ++
      [(image (BitVec.ofNat 16 count) &&& 0xFF).setWidth 8,
        ((image (BitVec.ofNat 16 count) >>> 8) &&& 0xFF).setWidth 8] := by
  simp [imageBytes, List.range_succ]

theorem imageBytes_length (image : Word → Word) (count : Nat) :
    (imageBytes image count).length = 2 * count := by
  induction count with
  | zero => rfl
  | succ count ih =>
    rw [imageBytes_succ, List.length_append, ih]
    rfl

/-- Masking the byte that the cast keeps anyway. -/
theorem setWidth_and_mask (v : Word) : (v &&& 0xFF).setWidth 8 = v.setWidth 8 := by
  apply BitVec.eq_of_toNat_eq
  have hmask := BitFields.toNat_and_mask (k := 8) v (m := 0xFF) rfl
  rw [BitVec.toNat_setWidth, BitVec.toNat_setWidth, hmask]
  omega

/-- The bytes `2 i` and `2 i + 1` are the low and the high byte of word `i`. -/
theorem imageBytes_get (image : Word → Word) {count i : Nat} (h : i < count) :
    (imageBytes image count)[2 * i]? = some ((image (BitVec.ofNat 16 i)).setWidth 8) ∧
    (imageBytes image count)[2 * i + 1]? =
      some ((image (BitVec.ofNat 16 i) >>> 8).setWidth 8) := by
  induction count with
  | zero => exact absurd h (Nat.not_lt_zero i)
  | succ count ih =>
    have hlen := imageBytes_length image count
    rw [imageBytes_succ]
    rcases Nat.lt_succ_iff_lt_or_eq.mp h with hlt | rfl
    · rw [List.getElem?_append_left (by omega), List.getElem?_append_left (by omega)]
      exact ih hlt
    · rw [List.getElem?_append_right (by omega), List.getElem?_append_right (by omega), hlen,
        Nat.sub_self, Nat.add_sub_cancel_left, setWidth_and_mask, setWidth_and_mask]
      exact ⟨rfl, rfl⟩

/-! ## The length of the file

The file ends where the location counter does and the image at its highest address. Both are
functions of the layout. -/

/-- The highest of some addresses. -/
def highestOf (as : List Nat) : Nat := as.foldr max 0

/-- The file is the whole memory image: it ends with the highest address stored to, and each address
up to there holds the last word stored to it, or zero. It is stated on the words as they were
stored, in order, and not on the array that the code keeps. -/
structure WholeImage (bin : Bytes) (stores : List (Word × Word)) : Prop where
  length : bin.length = 2 * (highestOf (stores.map (·.1.toNat)) + 1)
  bytes : ∀ a : Word, a.toNat ≤ highestOf (stores.map (·.1.toNat)) →
    bin[2 * a.toNat]? = some (((Stores.last? stores a).getD 0).setWidth 8) ∧
    bin[2 * a.toNat + 1]? = some (((Stores.last? stores a).getD 0 >>> 8).setWidth 8)

/-- The location counter ends, modulo `2 ^ 16`, just after the highest address the source puts a
word at; or at 0, when that address is 0. The second case is there because the code writes
`highest + 1` words with `highest` the counter less one, or 0 when the counter is 0, so that a
counter of 0 counts as one word. -/
def EndsAtTop (lines : List Bytes) : Prop :=
  let top := highestOf ((Layout.addrs 0 (layoutOf lines)).map (· % 65536))
  let stop := Layout.counter 0 (layoutOf lines) % 65536
  stop = top + 1 ∨ (stop = 0 ∧ top = 0)

instance (lines : List Bytes) : Decidable (EndsAtTop lines) :=
  inferInstanceAs (Decidable (_ ∨ _))

/-- The number of words written, from the final counter. -/
theorem highest_add_one (addr : Word) :
    (highest addr + 1).toNat = if addr = 0 then 1 else addr.toNat := by
  unfold highest
  split
  · rfl
  · rw [BitVec.sub_add_cancel]

section Image

variable {opt : AsmOptions} {lines : List Bytes}

theorem Assembles.final_addr (h : Assembles opt lines) :
    (pass1 lines).addr = BitVec.ofNat 16 (Layout.counter 0 (layoutOf lines)) := by
  rw [h.pass1Ok.addr, parsed_layout (assembles_iff.mp h).1]

/-- The highest address stored to, read off the layout. -/
theorem Assembles.top_eq (h : Assembles opt lines) :
    highestOf ((emitted opt lines).map (·.1.toNat)) =
      highestOf ((Layout.addrs 0 (layoutOf lines)).map (· % 65536)) := by
  have haddrs := congrArg (List.map BitVec.toNat) (emitted_addrs h)
  rw [List.map_map, List.map_map] at haddrs
  have hmod : BitVec.toNat ∘ BitVec.ofNat 16 = (· % 65536) := by
    funext n
    exact BitVec.toNat_ofNat n 16
  rw [hmod] at haddrs
  exact congrArg highestOf haddrs

end Image

/-- **The file is the whole image exactly when the source ends at its highest address.** The file
always has the right words as far as it goes; what can be wrong is where it stops, which is where
the last line has left the counter. -/
theorem bin_is_image_iff {opt : AsmOptions} {lines : List Bytes} (h : Assembles opt lines) :
    (∃ bin, (assembleLines opt lines).bin = some bin ∧ WholeImage bin (emitted opt lines)) ↔
      EndsAtTop lines := by
  have hstop : (pass1 lines).addr.toNat = Layout.counter 0 (layoutOf lines) % 65536 := by
    rw [h.final_addr, BitVec.toNat_ofNat]
  have hcount := highest_add_one (pass1 lines).addr
  have hzero : (pass1 lines).addr = 0 ↔ (pass1 lines).addr.toNat = 0 := BitVec.toNat_inj.symm
  have hends : EndsAtTop lines ↔ (highest (pass1 lines).addr + 1).toNat =
      highestOf ((emitted opt lines).map (·.1.toNat)) + 1 := by
    rw [EndsAtTop, h.top_eq, hcount, ← hstop]
    split
    · rename_i h0
      rw [hzero] at h0
      omega
    · rename_i h0
      rw [hzero] at h0
      omega
  rw [hends, bin_eq h]
  constructor
  · -- The length alone decides: the bytes there are agree in any case.
    rintro ⟨bin, hbin, hwhole⟩
    obtain rfl := Option.some.inj hbin
    have hlen := hwhole.length
    rw [imageBytes_length] at hlen
    omega
  · intro heq
    refine ⟨_, rfl, ?_, ?_⟩
    · rw [imageBytes_length, heq]
    · intro a ha
      have hget := imageBytes_get (Stores.write (fun _ => 0) (emitted opt lines))
        (show a.toNat < (highest (pass1 lines).addr + 1).toNat by omega)
      rwa [BitVec.ofNat_toNat, BitVec.setWidth_eq, Stores.write_apply] at hget

/-- Three blocks, the second of them below the first, and the last one on top. -/
theorem bin_is_image_iff_blocks :
    let lines := [ascii ".org 4", ascii "A: .word 7", ascii "HALT", ascii ".org 0",
      ascii "JMP A", ascii ".org 8", ascii ".ascii \"abc\"", ascii ".word A"]
    ∃ bin, (assembleLines {} lines).bin = some bin ∧ WholeImage bin (emitted {} lines) := by
  intro lines
  exact (bin_is_image_iff (by decide +kernel)).mpr (by decide +kernel)

/-- A last block below an earlier one: the file holds one word of two. -/
theorem bin_not_image :
    let lines := [ascii ".org 5", ascii ".word 1", ascii ".org 0", ascii ".word 2"]
    Assembles {} lines ∧ emitted {} lines ≠ [] ∧
    ¬ ∃ bin, (assembleLines {} lines).bin = some bin ∧ WholeImage bin (emitted {} lines) := by
  intro lines
  have hbin : (assembleLines {} lines).bin = some [2, 0] := by decide +kernel
  have htop : highestOf ((emitted {} lines).map (·.1.toNat)) = 5 := by decide +kernel
  refine ⟨by decide +kernel, by decide +kernel, ?_⟩
  rintro ⟨bin, hb, hwhole⟩
  obtain rfl : [2, 0] = bin := Option.some.inj (hbin.symm.trans hb)
  have hlen := hwhole.length
  rw [htop] at hlen
  exact absurd hlen (by decide)

/-! ## Overlap and wrapping

As long as the counter of the layout stays below `2 ^ 16` it is the one of the code, and then two
words meet exactly if two blocks do. -/

/-- Neither `addr += line_size(pl)` nor the cursor `a++` of `.ascii` wraps. A `.org` sets the
counter and adds nothing, so it is left out of the first part; the cursor is also advanced behind
the last word, which is why the address of every word must have a successor. -/
structure NeverWraps (opt : AsmOptions) (lines : List Bytes) : Prop where
  counter : ∀ r ∈ rows lines, ¬ IsOrg r.2 → r.2.address.toNat + (lineSize r.2).toNat < 65536
  cursor : ∀ r ∈ rows lines, r.2.kind = .directive → r.2.dir.kind = .ascii →
    ∀ s ∈ emit opt lines r, s.1.toNat + 1 < 65536

section Overlap

variable {opt : AsmOptions} {lines : List Bytes} (h : Assembles opt lines)
include h

/-- Where the location counter stays below `2 ^ 16`, it is the machine counter. -/
theorem Assembles.address_toNat {pre post : List (Bytes × ParsedLine)} {r : Bytes × ParsedLine}
    (hrows : rows lines = pre ++ r :: post)
    (hc : Layout.counter 0 (pre.map fun q => itemOf q.2) ≤ 65535) :
    r.2.address.toNat = Layout.counter 0 (pre.map fun q => itemOf q.2) := by
  rw [h.address hrows, BitVec.toNat_ofNat]
  omega

theorem Assembles.org_le {r : Bytes × ParsedLine} (hr : r ∈ rows lines) (horg : IsOrg r.2) :
    r.2.dir.value.imm.toNat ≤ 65535 := by
  obtain ⟨hlo, hhi⟩ := h.pass1Ok.orgs r.2 (rows_mem hr) horg
  have hnat := BitVec.toInt_eq_toNat_cond r.2.dir.value.imm
  have hlt := r.2.dir.value.imm.isLt
  split at hnat <;> omega

/-- The counter after a row, from the counter before it. -/
theorem Assembles.counter_step_le {pre post : List (Bytes × ParsedLine)}
    {r : Bytes × ParsedLine} (hw : NeverWraps opt lines) (hrows : rows lines = pre ++ r :: post)
    (hc : Layout.counter 0 (pre.map fun q => itemOf q.2) ≤ 65535) :
    Layout.counter 0 ((pre ++ [r]).map fun q => itemOf q.2) ≤ 65535 := by
  have hr := row_mem hrows
  rw [List.map_append, Layout.counter_append]
  show (itemOf r.2).next _ ≤ 65535
  by_cases horg : IsOrg r.2
  · rw [itemOf, if_pos horg]
    exact h.org_le hr horg
  · have hno := hw.counter r hr horg
    rw [h.address_toNat hrows hc] at hno
    rw [itemOf, if_neg horg]
    exact Nat.lt_succ_iff.mp hno

/-- **The counter wraps nowhere exactly when the location counter stays within it.** -/
theorem neverWraps_iff_within : NeverWraps opt lines ↔ Layout.Within 65535 0 (layoutOf lines) := by
  rw [← rows_layout h]
  constructor
  · intro hw js hjs
    obtain ⟨post, hpost⟩ := hjs
    obtain ⟨pre, rest, hrows, rfl, -⟩ := List.append_eq_map_iff.mp hpost
    clear hpost
    -- the prefix grows by one row at a time
    induction pre using List.reverseRecOn generalizing rest with
    | nil => exact Nat.zero_le _
    | append_singleton pre r ih =>
      rw [List.append_assoc, List.singleton_append] at hrows
      exact h.counter_step_le hw hrows (ih (r :: rest) hrows)
  · intro hwithin
    have hadd : ∀ r ∈ rows lines, ¬ IsOrg r.2 →
        r.2.address.toNat + (lineSize r.2).toNat < 65536 := by
      intro r hr horg
      obtain ⟨pre, post, hrows⟩ := List.append_of_mem hr
      have hpre := hwithin (pre.map fun q => itemOf q.2) (by rw [hrows]; simp)
      have hnext := hwithin ((pre ++ [r]).map fun q => itemOf q.2) (by rw [hrows]; simp)
      rw [List.map_append, Layout.counter_append] at hnext
      have hsum : (itemOf r.2).next (Layout.counter 0 (pre.map fun q => itemOf q.2)) ≤ 65535 :=
        hnext
      rw [itemOf, if_neg horg, Layout.Item.next] at hsum
      rw [h.address_toNat hrows hpre]
      exact Nat.lt_succ_of_le hsum
    refine ⟨hadd, ?_⟩
    intro r hr hk hd s hs
    have horg : ¬ IsOrg r.2 := by
      rintro ⟨-, ho⟩
      rw [hd] at ho
      cases ho
    have hsize := hadd r hr horg
    have hmem : s.1 ∈ wordsFrom r.2.address (lineSize r.2).toNat := by
      rw [← h.emit_addrs hr]
      exact List.mem_map_of_mem hs
    obtain ⟨k, hk', hsk⟩ := List.mem_map.mp hmem
    rw [List.mem_range] at hk'
    rw [← hsk, BitVec.toNat_add, BitVec.toNat_ofNat]
    omega

/-- Below `2 ^ 16`, different addresses of the layout are different addresses. -/
theorem emitted_nodup_iff (hwithin : Layout.Within 65535 0 (layoutOf lines)) :
    ((emitted opt lines).map Prod.fst).Nodup ↔ (Layout.addrs 0 (layoutOf lines)).Nodup := by
  rw [emitted_addrs h]
  refine ⟨List.Nodup.of_map _, fun hnd => (List.nodup_map_iff_inj_on hnd).mpr ?_⟩
  have hlt : ∀ a ∈ Layout.addrs 0 (layoutOf lines), a < 65536 := by
    intro a ha
    obtain ⟨b, hb, -, hab⟩ := Layout.mem_addrs ha
    have hend := Layout.within_iff_blocks.mp hwithin b hb
    omega
  intro a ha b hb hab
  have hnat := congrArg BitVec.toNat hab
  rw [BitVec.toNat_ofNat, BitVec.toNat_ofNat] at hnat
  have ha' := hlt a ha
  have hb' := hlt b hb
  omega

end Overlap

/-- **When nothing is overwritten.** The words of a source go to pairwise different addresses,
with no counter wrapping, exactly when no two blocks of its layout share an address and none
ends above `0xFFFF`. Whatever the layout, the image holds at each address the last word emitted
there. -/
theorem no_overwrite_iff {opt : AsmOptions} {lines : List Bytes} (h : Assembles opt lines) :
    (((emitted opt lines).map Prod.fst).Nodup ∧ NeverWraps opt lines ↔
      (Layout.blocks 0 0 (layoutOf lines)).Pairwise Layout.Apart ∧
      ∀ b ∈ Layout.blocks 0 0 (layoutOf lines), b.1 + b.2 ≤ 0xFFFF) ∧
    ∀ a, (pass2 opt lines (pass1 lines)).image a =
      (Stores.last? (emitted opt lines) a).getD 0 := by
  have hblocks : (∀ b ∈ Layout.blocks 0 0 (layoutOf lines), b.1 + b.2 ≤ 0xFFFF) ↔
      NeverWraps opt lines := by
    rw [neverWraps_iff_within h]
    exact Layout.within_iff_blocks.symm
  refine ⟨?_, fun a => by rw [pass2_image, Stores.write_apply]⟩
  rw [hblocks, ← Layout.addrs_nodup_iff]
  constructor
  · rintro ⟨hnd, hw⟩
    exact ⟨(emitted_nodup_iff h ((neverWraps_iff_within h).mp hw)).mp hnd, hw⟩
  · rintro ⟨hnd, hw⟩
    exact ⟨(emitted_nodup_iff h ((neverWraps_iff_within h).mp hw)).mpr hnd, hw⟩

/-- Two blocks that are apart. -/
theorem no_overwrite_iff_apart :
    let lines := [ascii ".org 5", ascii ".word 1", ascii ".org 0", ascii ".word 2"]
    ((emitted {} lines).map Prod.fst).Nodup ∧ NeverWraps {} lines := by
  intro lines
  have hblocks : Layout.blocks 0 0 (layoutOf lines) = [(0, 0), (5, 1), (0, 1)] := by
    decide +kernel
  apply (no_overwrite_iff (by decide +kernel)).1.mpr
  rw [hblocks]
  refine ⟨?_, by decide⟩
  simp [Layout.Apart]
  omega

/-- Two blocks at one address: both words go to address 0. -/
theorem overwrite_twice :
    let lines := [ascii ".org 0", ascii ".word 1", ascii ".org 0", ascii ".word 2"]
    Assembles {} lines ∧ ¬ ((emitted {} lines).map Prod.fst).Nodup := by
  decide +kernel

end Proof
end EduCpu16
