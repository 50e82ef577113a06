import EduCpu16.Proof.Image
import EduCpu16.Proof.Loader

/-!
# The program in memory

For a source whose origins never move back and whose counter never wraps, the file holds the whole
image, so that what the emulator starts with is the image pass 2 wrote (`loadProgram_bin`), and
every line's words are where pass 1 put the line.

This is where assembler and emulator meet: what is behind is about sources, what follows about a
memory. The two conditions are stronger than what `bin_is_image_iff` asks for, because here every
word has to stay where it was stored and the file must not have all 65536 words.
-/

namespace EduCpu16
namespace Proof

open CLib

/-- A word of the image, read back from the file. -/
theorem fileWord_imageBytes (image : Word → Word) {count i : Nat} (h : i < count) :
    fileWord (imageBytes image count) i = image (BitVec.ofNat 16 i) := by
  obtain ⟨hlo, hhi⟩ := imageBytes_get image h
  apply BitVec.eq_of_toNat_eq
  have hlt := (image (BitVec.ofNat 16 i)).isLt
  simp only [fileWord, List.getD, hlo, hhi, Option.getD_some, BitVec.toNat_ofNat,
    BitVec.toNat_setWidth, BitVec.toNat_ushiftRight, Nat.shiftRight_eq_div_pow]
  omega

section Installed

variable {opt : AsmOptions} {lines : List Bytes} (h : Assembles opt lines)
  (hforward : Layout.Forward 0 (layoutOf lines))
  (hwithin : Layout.Within 0xFFFF 0 (layoutOf lines))
include h hforward hwithin

/-- Every word is stored below the final counter. -/
theorem Assembles.addr_lt {s : Word × Word} (hs : s ∈ emitted opt lines) :
    s.1.toNat < (pass1 lines).addr.toNat := by
  have hmem : s.1 ∈ (Layout.addrs 0 (layoutOf lines)).map (BitVec.ofNat 16) := by
    rw [← emitted_addrs h]
    exact List.mem_map_of_mem hs
  obtain ⟨a, ha, hsa⟩ := List.mem_map.mp hmem
  have hlt := Layout.addrs_lt_counter hforward a ha
  have hend := hwithin (layoutOf lines) List.prefix_rfl
  rw [← hsa, h.final_addr, BitVec.toNat_ofNat, BitVec.toNat_ofNat]
  omega

/-- **What is loaded is the image.** -/
theorem Assembles.loadProgram_bin : ∃ bin, (assembleLines opt lines).bin = some bin ∧
    loadProgram bin = some (Stores.write (fun _ => 0) (emitted opt lines)) := by
  have hcount := highest_add_one (pass1 lines).addr
  have hlt := (highest (pass1 lines).addr + 1).isLt
  have hlen := imageBytes_length (Stores.write (fun _ => 0) (emitted opt lines))
    (highest (pass1 lines).addr + 1).toNat
  have hmem : memSize = 65536 := rfl
  refine ⟨_, bin_eq h, ?_⟩
  rw [loadProgram_of_lt (by omega) (by omega), hlen, Nat.mul_div_cancel_left _ (by decide)]
  congr 1
  funext a
  by_cases ha : a.toNat < (highest (pass1 lines).addr + 1).toNat
  · rw [if_pos ha, fileWord_imageBytes _ ha, BitVec.ofNat_toNat, BitVec.setWidth_eq]
  · -- nothing is stored above the end of the file
    have hno : a ∉ (emitted opt lines).map Prod.fst := by
      intro hin
      obtain ⟨s, hs, rfl⟩ := List.mem_map.mp hin
      have hslt := h.addr_lt hforward hwithin hs
      have hpos : (pass1 lines).addr ≠ 0 := by
        intro hz
        rw [hz] at hslt
        exact Nat.not_lt_zero _ hslt
      rw [if_neg hpos] at hcount
      omega
    rw [if_neg ha, Stores.write_apply, Stores.last?_eq_none.mpr hno]
    rfl

/-- **Every stored word stays where it was stored.** -/
theorem Assembles.image_at {s : Word × Word} (hs : s ∈ emitted opt lines) :
    Stores.write (fun _ => 0) (emitted opt lines) s.1 = s.2 := by
  have hsorted := (Layout.addrs_sorted hforward).1
  have hnd := (emitted_nodup_iff h hwithin).mpr (hsorted.imp Nat.ne_of_lt)
  rw [Stores.write_apply, Stores.last?_of_nodup hnd hs]
  rfl

end Installed

end Proof
end EduCpu16
