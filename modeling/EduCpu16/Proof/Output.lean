import EduCpu16.Assembler.Output
import EduCpu16.Proof.Image

/-!
# What the return code says about the output file

The file is emptied by `fopen` before the first word is written and nothing restores it, and the
answer of `fclose`, which is the last chance to hear of a failed flush, is thrown away. So the
return code can be trusted when the file is not opened at all, and when every write succeeds and all
the bytes get to the file (`return_code_iff`).

How the calls turn out is a parameter, `OutputPath`: whether the file opens, which of the writes
fail, and how many bytes have reached it when `fclose` fails. The theorem quantifies over all of
them, and over what was at the path before.
-/

namespace EduCpu16
namespace Proof

open CLib

/-! ## The writing loop

One word at a time, the low byte first, and it stops at the first `fwrite` that fails. -/

/-- The words `w` to `w + n - 1`. -/
def bytesFrom (image : Word → Word) (n w : Nat) : Bytes :=
  (List.range' w n).flatMap (wordBytes image)

theorem bytesFrom_zero (image : Word → Word) (n : Nat) :
    bytesFrom image n 0 = imageBytes image n := by
  rw [bytesFrom, ← List.range_eq_range']
  rfl

theorem bytesFrom_succ (image : Word → Word) (n w : Nat) :
    bytesFrom image (n + 1) w = wordBytes image w ++ bytesFrom image n (w + 1) := by
  rw [bytesFrom, List.range'_succ, List.flatMap_cons]
  rfl

/-- A run of the loop without a failure hands over all the words. -/
theorem writeWords_ok (fwrite : Nat → Bool) (image : Word → Word) : ∀ n w : Nat,
    ((writeWords fwrite image n w).2 = true ↔ ∀ k < n, fwrite (w + k) = true) ∧
    ((writeWords fwrite image n w).2 = true →
      (writeWords fwrite image n w).1 = bytesFrom image n w)
  | 0, w => ⟨iff_of_true rfl fun k hk => absurd hk (Nat.not_lt_zero k), fun _ => rfl⟩
  | n + 1, w => by
    obtain ⟨hiff, hbytes⟩ := writeWords_ok fwrite image n (w + 1)
    have hall : (∀ k < n + 1, fwrite (w + k) = true) ↔
        fwrite w = true ∧ ∀ k < n, fwrite (w + 1 + k) = true := by
      constructor
      · intro h
        refine ⟨h 0 (Nat.succ_pos n), fun k hk => ?_⟩
        have hk' := h (k + 1) (Nat.succ_lt_succ hk)
        rwa [Nat.add_comm k 1, ← Nat.add_assoc] at hk'
      · rintro ⟨hw, hrest⟩ k hk
        cases k with
        | zero => exact hw
        | succ k =>
          have hk' := hrest k (Nat.lt_of_succ_lt_succ hk)
          rwa [Nat.add_assoc, Nat.add_comm 1 k] at hk'
    rw [writeWords, hall]
    cases hw : fwrite w with
    | true =>
      simp only [if_true, true_and]
      refine ⟨hiff, fun h => ?_⟩
      rw [hbytes h, bytesFrom_succ]
    | false => simp

/-! ## The sizes

Two numbers that the result compares: how many words the loop writes, which comes from the location
counter, and how many the image has, which comes from its highest address. -/

/-- The highest address the source puts a word at. -/
def topAddress (lines : List Bytes) : Nat :=
  highestOf ((Layout.addrs 0 (layoutOf lines)).map (· % 65536))

/-- The number of words the loop writes: the final location counter, and one if that is zero. -/
def writtenWords (lines : List Bytes) : Nat :=
  if Layout.counter 0 (layoutOf lines) % 65536 = 0 then 1
  else Layout.counter 0 (layoutOf lines) % 65536

theorem Assembles.count_eq {opt : AsmOptions} {lines : List Bytes} (h : Assembles opt lines) :
    (highest (pass1 lines).addr + 1).toNat = writtenWords lines := by
  have hstop : (pass1 lines).addr.toNat = Layout.counter 0 (layoutOf lines) % 65536 := by
    rw [h.final_addr, BitVec.toNat_ofNat]
  have hzero : (pass1 lines).addr = 0 ↔ Layout.counter 0 (layoutOf lines) % 65536 = 0 := by
    rw [← hstop]
    exact BitVec.toNat_inj.symm
  rw [highest_add_one, hstop, writtenWords]
  simp only [hzero]

/-- An initial part of the bytes is the whole image if it has the length for it. -/
theorem wholeImage_take_iff (stores : List (Word × Word)) (count k : Nat) :
    WholeImage ((imageBytes (Stores.write (fun _ => 0) stores) count).take k) stores ↔
      min k (2 * count) = 2 * (highestOf (stores.map (·.1.toNat)) + 1) := by
  have hlen : ((imageBytes (Stores.write (fun _ => 0) stores) count).take k).length =
      min k (2 * count) := by
    rw [List.length_take, imageBytes_length]
  constructor
  · intro h
    rw [← hlen]
    exact h.length
  · intro h
    refine ⟨by rw [hlen, h], ?_⟩
    intro a ha
    have hget := imageBytes_get (Stores.write (fun _ => 0) stores) (show a.toNat < count by omega)
    rw [List.getElem?_take_of_lt (by omega), List.getElem?_take_of_lt (by omega)]
    rwa [BitVec.ofNat_toNat, BitVec.setWidth_eq, Stores.write_apply] at hget

/-! ## The return code

By what the calls do: an assembly error, a file that does not open, a write that fails, and a run of
the loop to its end. In the last case it is left open how many bytes got to the file. -/

/-- After `ERR_OK` the file is the whole memory image, and after any error it is what it was. This
is what `assembler.h` promises of `assemble_file`, with the image as `WholeImage` has it. -/
def TellsTruth (path : OutputPath) (opt : AsmOptions) (lines : List Bytes) : Prop :=
  let out := assembleFile path opt lines
  if out.rc = .ok then ∃ file, out.file = some file ∧ WholeImage file (emitted opt lines)
  else out.file = path.before

/-- How many bytes are in the file after a run of the loop to its end. -/
def bytesInFile (path : OutputPath) (lines : List Bytes) : Nat :=
  if path.fclose then 2 * writtenWords lines else min path.reached (2 * writtenWords lines)

/-- The run of the loop to its end, and its bytes getting to the file as far as the image goes. The
second part is about numbers of bytes only: which bytes they are follows from the loop. -/
structure WritesImage (path : OutputPath) (lines : List Bytes) : Prop where
  fwrite : ∀ w < writtenWords lines, path.fwrite w = true
  bytes : bytesInFile path lines = 2 * (topAddress lines + 1)

section Truth

variable (path : OutputPath) {opt : AsmOptions} {lines : List Bytes}

theorem assembleFile_error (h : ¬ Assembles opt lines) :
    (assembleFile path opt lines).rc = .internal ∧
    (assembleFile path opt lines).file = path.before := by
  have hne : ¬ (pass2 opt lines (pass1 lines)).nErrors = 0 := h
  simp only [assembleFile, finalise, if_neg hne]
  exact ⟨trivial, trivial⟩

theorem assembleFile_closed (opt : AsmOptions) (lines : List Bytes) (h : path.fopen = false) :
    (assembleFile path opt lines).rc ≠ .ok ∧
    (assembleFile path opt lines).file = path.before := by
  have hio : AsmError.io ≠ .ok := by decide
  have hinternal : AsmError.internal ≠ .ok := by decide
  simp only [assembleFile, finalise, h]
  split
  · exact ⟨hio, rfl⟩
  · exact ⟨hinternal, rfl⟩

/-- An assembled source and an open file: the run of the loop decides. -/
theorem assembleFile_opened (h : Assembles opt lines) (hopen : path.fopen = true) :
    let image := Stores.write (fun _ => 0) (emitted opt lines)
    let run := writeWords path.fwrite image (writtenWords lines) 0
    (assembleFile path opt lines).rc = (if run.2 then .ok else .io) ∧
    (assembleFile path opt lines).file =
      some (if run.2 ∧ path.fclose then run.1 else run.1.take path.reached) := by
  have hzero : (pass2 opt lines (pass1 lines)).nErrors = 0 := h
  simp only [assembleFile, finalise, hzero, hopen, if_true, h.count_eq, pass2_image]
  exact ⟨trivial, trivial⟩

/-- A run of the loop that breaks leaves an error, and a file. -/
theorem assembleFile_broken (h : Assembles opt lines) (hopen : path.fopen = true)
    (hfail : ¬ ∀ w < writtenWords lines, path.fwrite w = true) :
    (assembleFile path opt lines).rc = .io ∧ (assembleFile path opt lines).file ≠ none := by
  obtain ⟨hrc, hfile⟩ := assembleFile_opened path h hopen
  have hrun := (writeWords_ok path.fwrite (Stores.write (fun _ => 0) (emitted opt lines))
    (writtenWords lines) 0).1
  simp only [Nat.zero_add] at hrun
  rw [hrc, hfile, if_neg (fun hok => hfail (hrun.mp hok))]
  exact ⟨rfl, Option.some_ne_none _⟩

/-- A run of the loop to its end leaves no error, and the bytes that get to the file. -/
theorem assembleFile_written (h : Assembles opt lines) (hopen : path.fopen = true)
    (hwrite : ∀ w < writtenWords lines, path.fwrite w = true) :
    (assembleFile path opt lines).rc = .ok ∧
    (assembleFile path opt lines).file =
      some ((imageBytes (Stores.write (fun _ => 0) (emitted opt lines)) (writtenWords lines)).take
        (bytesInFile path lines)) := by
  obtain ⟨hrc, hfile⟩ := assembleFile_opened path h hopen
  obtain ⟨hrun, hbytes⟩ := writeWords_ok path.fwrite
    (Stores.write (fun _ => 0) (emitted opt lines)) (writtenWords lines) 0
  simp only [Nat.zero_add] at hrun
  have hok := hrun.mpr hwrite
  have hlen := imageBytes_length (Stores.write (fun _ => 0) (emitted opt lines))
    (writtenWords lines)
  rw [hrc, hfile, hok, hbytes hok, bytesFrom_zero, bytesInFile]
  refine ⟨rfl, congrArg some ?_⟩
  cases path.fclose with
  | true =>
    simp only [and_self, if_true]
    exact (List.take_of_length_le (Nat.le_of_eq hlen)).symm
  | false =>
    simp only [Bool.false_eq_true, and_false, if_false, ← hlen]
    exact List.take_eq_take_min

/-- If `fclose` succeeds too, all of them do. -/
theorem assembleFile_bin (h : Assembles opt lines) (hopen : path.fopen = true)
    (hwrite : ∀ w < writtenWords lines, path.fwrite w = true) (hclose : path.fclose = true) :
    (assembleFile path opt lines).file = (assembleLines opt lines).bin := by
  have hlen := imageBytes_length (Stores.write (fun _ => 0) (emitted opt lines))
    (writtenWords lines)
  rw [(assembleFile_written path h hopen hwrite).2, bin_eq h, h.count_eq, bytesInFile,
    if_pos hclose, ← hlen, List.take_length]

/-- With no failing call this is `assembleLines`. -/
theorem assembleFile_ok (hopen : path.fopen = true) (hwrite : ∀ w, path.fwrite w = true)
    (hclose : path.fclose = true) :
    (assembleFile path opt lines).rc = (assembleLines opt lines).rc ∧
    (Assembles opt lines → (assembleFile path opt lines).file = (assembleLines opt lines).bin) := by
  by_cases h : Assembles opt lines
  · have hzero : (pass2 opt lines (pass1 lines)).nErrors = 0 := h
    refine ⟨?_, fun _ => assembleFile_bin path h hopen (fun w _ => hwrite w) hclose⟩
    rw [(assembleFile_written path h hopen fun w _ => hwrite w).1, assembleLines]
    simp only [hzero, if_true]
  · have hne : ¬ (pass2 opt lines (pass1 lines)).nErrors = 0 := h
    refine ⟨?_, fun h' => absurd h' h⟩
    rw [(assembleFile_error path h).1, assembleLines]
    simp only [if_neg hne]

end Truth

/-- **When the return code can be trusted**, whatever was at the output path: the source has
errors, or the file cannot be opened, or every `fwrite` succeeds and as many bytes are in the
file in the end as the memory image has. -/
theorem return_code_iff (path : OutputPath) (opt : AsmOptions) (lines : List Bytes) :
    (∀ before, TellsTruth { path with before := before } opt lines) ↔
      ¬ Assembles opt lines ∨ path.fopen = false ∨ WritesImage path lines := by
  by_cases h : Assembles opt lines
  case neg =>
    refine iff_of_true (fun before => ?_) (.inl h)
    obtain ⟨hrc, hfile⟩ := assembleFile_error { path with before := before } h
    rw [TellsTruth]
    simp only [hrc, reduceCtorEq, if_false, hfile]
  -- The file is not opened, so it is left as it was and the code says so.
  by_cases hopen : path.fopen = false
  · refine iff_of_true (fun before => ?_) (.inr (.inl hopen))
    obtain ⟨hrc, hfile⟩ := assembleFile_closed { path with before := before } opt lines hopen
    rw [TellsTruth]
    simp only [if_neg hrc, hfile]
  rw [or_iff_right (not_not.mpr h), or_iff_right hopen]
  rw [Bool.not_eq_false] at hopen
  by_cases hwrite : ∀ w < writtenWords lines, path.fwrite w = true
  · have hmin : min (bytesInFile path lines) (2 * writtenWords lines) =
        bytesInFile path lines := by
      apply Nat.min_eq_left
      unfold bytesInFile
      split
      · exact Nat.le_refl _
      · exact Nat.min_le_right _ _
    have htop := wholeImage_take_iff (emitted opt lines) (writtenWords lines)
      (bytesInFile path lines)
    rw [hmin, h.top_eq] at htop
    have htruth : ∀ before, TellsTruth { path with before := before } opt lines ↔
        bytesInFile path lines = 2 * (topAddress lines + 1) := by
      intro before
      obtain ⟨hrc, hfile⟩ := assembleFile_written { path with before := before } h hopen hwrite
      rw [TellsTruth]
      simp only [hrc, if_true, hfile, Option.some.injEq, exists_eq_left']
      exact htop
    constructor
    · -- A path without a file will do, since what was there before is gone after `fopen`.
      intro hall
      exact ⟨hwrite, (htruth none).mp (hall none)⟩
    · intro hw before
      exact (htruth before).mpr hw.bytes
  · -- No file before, and one afterwards.
    refine iff_of_false (fun htruth => ?_) fun hw => hwrite hw.fwrite
    obtain ⟨hrc, hfile⟩ := assembleFile_broken { path with before := none } h hopen hwrite
    have hnone := htruth none
    rw [TellsTruth] at hnone
    simp only [hrc, reduceCtorEq, if_false] at hnone
    exact hfile hnone

/-- A disk that is full after the file has been emptied: the error comes, and the file that was
there is gone. -/
theorem return_code_not_unchanged :
    ¬ ∀ (path : OutputPath) (opt : AsmOptions) (lines : List Bytes),
      TellsTruth path opt lines := by
  intro h
  have hfull := h ⟨some [1, 2], true, fun _ => false, true, 0⟩ {} [ascii "HALT"]
  have hrc : (assembleFile ⟨some [1, 2], true, fun _ => false, true, 0⟩ {}
    [ascii "HALT"]).rc = .io := by decide +kernel
  rw [TellsTruth] at hfull
  simp only [hrc, reduceCtorEq, if_false] at hfull
  revert hfull
  decide +kernel

end Proof
end EduCpu16
