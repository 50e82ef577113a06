import EduCpu16.Emulator.Main
import EduCpu16.Lib.BitFields
import Mathlib.Data.List.GetD

/-!
# Loading a binary

`main` accepts up to `MEM_SIZE` words, but `mem_load` takes their number as a `uint16_t`, in which
`MEM_SIZE` itself is zero. A file of any smaller size is loaded as it should be
(`loadProgram_of_lt`), one of the full size not at all (`loadProgram_full`).

`Loaded` says what should be in memory, and `loadProgram_loaded_iff` for which of the accepted files
it is: the exception among the full-sized ones are those that hold nothing but zeroes, of which
nothing is missing in an empty memory.
-/

namespace EduCpu16
namespace Proof

open CLib BitFields

/-- The `i`-th little-endian word of a file. -/
def fileWord (file : Bytes) (i : Nat) : Word :=
  BitVec.ofNat 16 ((file.getD (2 * i) 0).toNat + 256 * (file.getD (2 * i + 1) 0).toNat)

/-- The file is in memory from address 0 on, and the rest of memory is zero. The words are those of
the file in the byte order the assembler writes them in. -/
def Loaded (file : Bytes) (mem : Word → Word) : Prop :=
  (∀ i < file.length / 2, mem (BitVec.ofNat 16 i) = fileWord file i) ∧
  ∀ a : Word, file.length / 2 ≤ a.toNat → mem a = 0

theorem freadWords_getD : ∀ {file : Bytes} {i : Nat}, i < file.length / 2 →
    (freadWords file).getD i 0 = fileWord file i
  | [], _, h => absurd h (Nat.not_lt_zero _)
  | [_], i, h => by
    rw [List.length_singleton] at h
    omega
  | lo :: hi :: rest, 0, _ => by
    apply BitVec.eq_of_toNat_eq
    show (lo.setWidth 16 ||| (hi.setWidth 16 <<< 8) : Word).toNat =
      (lo.toNat + 256 * hi.toNat) % 65536
    have hlo := lo.isLt
    have hhi := hi.isLt
    rw [toNat_littleEndian]
    omega
  | lo :: hi :: rest, i + 1, h => by
    have hlt : i < rest.length / 2 := by
      simp only [List.length_cons] at h
      omega
    have hshift : fileWord (lo :: hi :: rest) (i + 1) = fileWord rest i := by
      simp only [fileWord, show 2 * (i + 1) = 2 * i + 1 + 1 by omega, List.getD_cons_succ]
    rw [hshift, ← freadWords_getD hlt]
    rfl

/-- The loop of `mem_load` after its first `n` turns, from address 0. -/
theorem memLoad_loop (mem : Word → Word) (p : Nat → Word) {n : Nat} (hn : n ≤ 65536) (a : Word) :
    (List.range n).foldl (fun m i => Function.update m (0 + BitVec.ofNat 16 i) (p i)) mem a =
      if a.toNat < n then p a.toNat else mem a := by
  induction n with
  | zero => rfl
  | succ n ih =>
    have hzero : (0 : Word) + BitVec.ofNat 16 n = BitVec.ofNat 16 n := BitVec.zero_add _
    rw [List.range_succ, List.foldl_append, List.foldl_cons, List.foldl_nil, hzero]
    have hnat : (BitVec.ofNat 16 n).toNat = n := toNat_ofNat_of_lt (by omega)
    -- The counter stays below the type, so turn `n` writes address `n`.
    by_cases ha : a = BitVec.ofNat 16 n
    · rw [ha, Function.update_self, hnat, if_pos (Nat.lt_succ_self n)]
    · have hne : a.toNat ≠ n := fun h => ha (BitVec.eq_of_toNat_eq (h.trans hnat.symm))
      have hiff : a.toNat < n + 1 ↔ a.toNat < n := by omega
      rw [Function.update_of_ne ha, ih (by omega)]
      simp only [hiff]

/-- A file of fewer than `MEM_SIZE` words is loaded. -/
theorem loadProgram_of_lt {file : Bytes} (heven : file.length % 2 = 0)
    (hlt : file.length / 2 < memSize) :
    loadProgram file =
      some fun a => if a.toNat < file.length / 2 then fileWord file a.toNat else 0 := by
  have hmem : memSize = 65536 := rfl
  have hlen : (BitVec.ofNat 16 (file.length / 2)).toNat = file.length / 2 :=
    toNat_ofNat_of_lt (by omega)
  rw [loadProgram, if_neg (by omega)]
  simp only [if_neg (Nat.not_lt.mpr (Nat.le_of_lt hlt))]
  by_cases hpos : 0 < file.length / 2
  · rw [if_pos hpos, Option.some.injEq]
    funext a
    rw [memLoad, hlen, memLoad_loop _ _ (by omega)]
    by_cases ha : a.toNat < file.length / 2
    · rw [if_pos ha, if_pos ha, freadWords_getD ha]
    · rw [if_neg ha, if_neg ha]
  · have hz : file.length / 2 = 0 := Nat.eq_zero_of_not_pos hpos
    simp [hz]

/-- Of a file of `MEM_SIZE` words nothing is loaded. -/
theorem loadProgram_full {file : Bytes} (heven : file.length % 2 = 0)
    (hfull : file.length / 2 = memSize) : loadProgram file = some fun _ => 0 := by
  have hmem : memSize = 65536 := rfl
  rw [loadProgram, if_neg (by omega)]
  simp only [hfull, if_neg (Nat.lt_irrefl memSize), if_pos (show 0 < memSize by decide)]
  rfl

theorem fileWord_eq_zero {file : Bytes} {i : Nat} :
    fileWord file i = 0 ↔ file.getD (2 * i) 0 = 0 ∧ file.getD (2 * i + 1) 0 = 0 := by
  have hlo := (file.getD (2 * i) 0).isLt
  have hhi := (file.getD (2 * i + 1) 0).isLt
  constructor
  · intro h
    have hnat := congrArg BitVec.toNat h
    rw [fileWord, BitVec.toNat_ofNat, show (0 : Word).toNat = 0 from rfl] at hnat
    exact ⟨BitVec.eq_of_toNat_eq (by rw [show (0 : Byte).toNat = 0 from rfl]; omega),
      BitVec.eq_of_toNat_eq (by rw [show (0 : Byte).toNat = 0 from rfl]; omega)⟩
  · rintro ⟨h0, h1⟩
    rw [fileWord, h0, h1]
    rfl

/-- The words of a file are all zero when its bytes are. -/
theorem fileWords_zero_iff {file : Bytes} (heven : file.length % 2 = 0) :
    (∀ i < file.length / 2, fileWord file i = 0) ↔ ∀ b ∈ file, b = 0 := by
  constructor
  · intro h b hb
    obtain ⟨k, hk, rfl⟩ := List.mem_iff_getElem.mp hb
    obtain ⟨h0, h1⟩ := fileWord_eq_zero.mp (h (k / 2) (by omega))
    rcases Nat.mod_two_eq_zero_or_one k with hpar | hpar
    · rwa [show 2 * (k / 2) = k by omega, List.getD_eq_getElem _ _ hk] at h0
    · rwa [show 2 * (k / 2) + 1 = k by omega, List.getD_eq_getElem _ _ hk] at h1
  · intro h i hi
    refine fileWord_eq_zero.mpr ⟨?_, ?_⟩
    · rw [List.getD_eq_getElem _ _ (by omega)]
      exact h _ (List.getElem_mem _)
    · rw [List.getD_eq_getElem _ _ (by omega)]
      exact h _ (List.getElem_mem _)

/-- The files `main` accepts. -/
theorem loadProgram_isSome {file : Bytes} {mem : Word → Word} (h : loadProgram file = some mem) :
    file.length % 2 = 0 ∧ file.length / 2 ≤ memSize := by
  rw [loadProgram] at h
  split at h
  · cases h
  · rename_i heven
    simp only at h
    split at h
    · cases h
    · rename_i hsize
      exact ⟨of_not_not heven, Nat.not_lt.mp hsize⟩

theorem loaded_of_lt {file : Bytes} (hlt : file.length / 2 < memSize) :
    Loaded file fun a => if a.toNat < file.length / 2 then fileWord file a.toNat else 0 := by
  have hmem : memSize = 65536 := rfl
  constructor
  · intro i hi
    have hnat : (BitVec.ofNat 16 i).toNat = i := toNat_ofNat_of_lt (by omega)
    simp only [hnat, if_pos hi]
  · intro a ha
    exact if_neg (Nat.not_lt.mpr ha)

/-- **Loading is faithful up to one word below the limit.** A file that `main` accepts is in
memory after loading exactly when it has fewer than `MEM_SIZE` words, or holds nothing but
zeroes. -/
theorem loadProgram_loaded_iff {file : Bytes} {mem : Word → Word}
    (h : loadProgram file = some mem) :
    Loaded file mem ↔ file.length / 2 < 65536 ∨ ∀ b ∈ file, b = 0 := by
  obtain ⟨heven, hle⟩ := loadProgram_isSome h
  have hmem : memSize = 65536 := rfl
  rcases Nat.lt_or_eq_of_le hle with hlt | hfull
  · rw [loadProgram_of_lt heven hlt, Option.some.injEq] at h
    exact ⟨fun _ => .inl (by omega), fun _ => h ▸ loaded_of_lt hlt⟩
  · -- At the full size memory stays zero, which is right only for a file of zeroes.
    rw [loadProgram_full heven hfull, Option.some.injEq] at h
    subst h
    rw [← fileWords_zero_iff heven]
    constructor
    · intro hl
      exact .inr fun i hi => (hl.1 i hi).symm
    · rintro (hlt | hz)
      · omega
      · exact ⟨fun i hi => (hz i hi).symm, fun _ _ => rfl⟩

/-- Three words, one of them zero. -/
theorem loadProgram_loaded_iff_words :
    ∃ mem, loadProgram [0x34, 0x12, 0, 0, 0xCD, 0xAB] = some mem ∧
      Loaded [0x34, 0x12, 0, 0, 0xCD, 0xAB] mem ∧ mem 2 = 0xABCD := by
  have hmem := loadProgram_of_lt (show [0x34, 0x12, 0, 0, 0xCD, 0xAB].length % 2 = 0 by decide)
    (by decide)
  have hloaded := (loadProgram_loaded_iff hmem).mpr (.inl (by decide))
  exact ⟨_, hmem, hloaded, hloaded.1 2 (by decide)⟩

/-- A file of 65536 words, the first of them 1: accepted, and not loaded. -/
theorem loadProgram_full_not_loaded :
    ∃ mem, loadProgram (1 :: List.replicate 131071 0) = some mem ∧
      ¬ Loaded (1 :: List.replicate 131071 0) mem := by
  have hlen : (1 :: List.replicate 131071 (0 : Byte)).length = 131072 := by
    rw [List.length_cons, List.length_replicate]
  have hload : loadProgram (1 :: List.replicate 131071 0) = some fun _ => 0 :=
    loadProgram_full (by rw [hlen]) (by rw [hlen]; rfl)
  refine ⟨_, hload, ?_⟩
  intro hl
  have hword := hl.1 0 (by rw [hlen]; decide)
  have hone := (fileWord_eq_zero.mp hword.symm).1
  exact absurd hone (by decide)

end Proof
end EduCpu16
