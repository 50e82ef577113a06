import EduCpu16.Emulator.Dump
import Mathlib.Data.List.TakeWhile

/-!
# Dumping memory

`mem_dump` counts its rows in a `uint16_t` and stops when the counter is no longer below the end.
The counter keeps its residue modulo 8. If the end of the range is not above the last address of
that residue, the loop prints the range and ends (`dumpLoop_listing`); if it is, the counter wraps
below the end every time and there is no end (`dumpLoop_none`). Between them the two cover all
ranges, which gives the equivalence `memDump_iff`.

What should be printed is stated without the loop: the addresses of the range in order (`between`),
in rows of at most eight, each row with its words (`Listing`).
-/

namespace EduCpu16
namespace Proof

open CLib

/-! ## What a dump should print -/

/-- The addresses `start`, `start + 1`, ..., `stop - 1`. -/
def between (start stop : Word) : List Word :=
  (List.range (stop.toNat - start.toNat)).map fun i => start + BitVec.ofNat 16 i

/-- A row of addresses: the first as a label, then the words at all of them. -/
def rowText (mem : Word → Word) (row : List Word) : Bytes :=
  fmt04X (row.headD 0) ++ ascii ": " ++
    row.flatMap (fun addr => fmt04X (mem addr) ++ ascii " ") ++ ascii "\n"

/-- The text lists the range in rows of at most eight. -/
def Listing (mem : Word → Word) (start stop : Word) (out : Bytes) : Prop :=
  ∃ rows : List (List Word), rows.flatten = between start stop ∧
    (∀ row ∈ rows, row ≠ [] ∧ row.length ≤ 8) ∧ out = rows.flatMap (rowText mem)

/-- `mem_dump` ends, having printed the range. The fuel stands for the turns of the loop, and some
amount of it being enough is the loop's termination. -/
def Dumps (mem : Word → Word) (start stop : Word) : Prop :=
  ∃ fuel out, memDump mem start stop fuel = some out ∧ Listing mem start stop out

/-! ## A row

The inner loop has a bound of eight and the end of the range, and it stops at the first column that
is not below the end. -/

theorem takeWhile_congr {α : Type*} {p q : α → Bool} : ∀ {l : List α}, (∀ a ∈ l, p a = q a) →
    l.takeWhile p = l.takeWhile q
  | [], _ => rfl
  | a :: l, h => by
    obtain ⟨ha, hl⟩ := List.forall_mem_cons.mp h
    rw [List.takeWhile_cons, List.takeWhile_cons, ha, takeWhile_congr hl]

theorem takeWhile_range (n k : Nat) :
    (List.range n).takeWhile (fun i => i < k) = List.range (min n k) := by
  induction n with
  | zero => rw [Nat.zero_min]; rfl
  | succ n ih =>
    rw [List.range_succ, List.takeWhile_append, ih, List.length_range, List.length_range]
    by_cases hlt : n < k
    · have hlast : [n].takeWhile (fun i => i < k) = [n] := by simp [hlt]
      rw [if_pos (Nat.min_eq_left (Nat.le_of_lt hlt)), Nat.min_eq_left hlt, List.range_succ, hlast]
    · have hlast : [n].takeWhile (fun i => i < k) = [] := by simp [hlt]
      have hle : k ≤ n := Nat.le_of_not_lt hlt
      rw [hlast, Nat.min_eq_right hle, Nat.min_eq_right (Nat.le_succ_of_le hle)]
      split
      · rename_i heq
        rw [List.append_nil, heq]
      · rfl

section Row

variable {addr stop : Word}

theorem toNat_addr_add {n : Nat} (h : addr.toNat + n < 2 ^ 16) :
    (addr + BitVec.ofNat 16 n).toNat = addr.toNat + n := by
  rw [BitVec.toNat_add, BitVec.toNat_ofNat]
  omega

/-- The columns are those before the end, eight at most. -/
theorem dumpCols_eq (h : addr.toNat + 7 < 2 ^ 16) : dumpCols addr stop =
    (List.range (min 8 (stop.toNat - addr.toNat))).map (BitVec.ofNat 16) := by
  have hlt : (List.range 8).takeWhile (fun i => addr + BitVec.ofNat 16 i < stop) =
      (List.range 8).takeWhile fun i => i < stop.toNat - addr.toNat := by
    apply takeWhile_congr
    intro i hi
    have hi8 := List.mem_range.mp hi
    apply decide_eq_decide.mpr
    rw [BitVec.lt_def, toNat_addr_add (by omega)]
    omega
  rw [dumpCols, List.takeWhile_map, Function.comp_def, hlt, takeWhile_range]

/-- **A turn prints one row**, the first eight addresses or fewer. -/
theorem dumpRow_eq (h : addr.toNat + 7 < 2 ^ 16) (hlt : addr < stop) (mem : Word → Word) :
    ∃ row, dumpRow mem addr stop = rowText mem row ∧ row ≠ [] ∧ row.length ≤ 8 ∧
      row = (List.range (min 8 (stop.toNat - addr.toNat))).map (addr + BitVec.ofNat 16 ·) := by
  have hpos : 0 < min 8 (stop.toNat - addr.toNat) := by
    rw [BitVec.lt_def] at hlt
    omega
  refine ⟨_, ?_, ?_, ?_, rfl⟩
  · obtain ⟨n, hn⟩ := Nat.exists_eq_succ_of_ne_zero (Nat.ne_of_gt hpos)
    have hhead : addr + BitVec.ofNat 16 0 = addr := BitVec.add_zero addr
    rw [dumpRow, rowText, dumpCols_eq h, List.flatMap_map, List.flatMap_map]
    rw [hn, List.range_succ_eq_map, List.map_cons, List.headD_cons, hhead]
  · intro hnil
    have hlen := congrArg List.length hnil
    rw [List.length_map, List.length_range] at hlen
    exact Nat.ne_of_gt hpos hlen
  · rw [List.length_map, List.length_range]
    exact Nat.min_le_left _ _

end Row

/-! ## The loop

The first induction is on a bound for the rows that are left. In it no addition wraps, so the
counter can be treated as a number. The second is on the fuel: from an address that is below the end
the next one of the residue is, too, after it has wrapped. -/

theorem between_of_le {start stop : Word} (h : stop ≤ start) : between start stop = [] := by
  rw [BitVec.le_def] at h
  rw [between, Nat.sub_eq_zero_of_le h]
  rfl

/-- A range is its first eight addresses and the rest. -/
theorem between_eq {addr stop : Word} (h : addr.toNat + 8 < 2 ^ 16) : between addr stop =
    (List.range (min 8 (stop.toNat - addr.toNat))).map (addr + BitVec.ofNat 16 ·) ++
      between (addr + 8) stop := by
  have hnext : (addr + 8).toNat = addr.toNat + 8 := toNat_addr_add h
  rw [between, between, hnext]
  have hsplit : stop.toNat - addr.toNat =
      min 8 (stop.toNat - addr.toNat) + (stop.toNat - (addr.toNat + 8)) := by omega
  by_cases hle : stop.toNat ≤ addr.toNat + 8
  · have hrest : stop.toNat - (addr.toNat + 8) = 0 := Nat.sub_eq_zero_of_le hle
    rw [hrest, List.range_zero, List.map_nil, List.append_nil, Nat.min_eq_right (by omega)]
  · rw [Nat.min_eq_left (by omega)] at hsplit ⊢
    rw [hsplit, List.range_add, List.map_append, List.map_map]
    have hshift : ∀ i : Nat, addr + BitVec.ofNat 16 (8 + i) = addr + 8 + BitVec.ofNat 16 i := by
      intro i
      rw [BitVec.ofNat_add, ← BitVec.add_assoc]
      rfl
    simp only [Function.comp_def, hshift]

/-- **Below the last address of its residue, the loop ends and prints what is left.** -/
theorem dumpLoop_listing (mem : Word → Word) {stop : Word} : ∀ (n : Nat) (addr : Word)
    (out : Bytes), stop.toNat ≤ addr.toNat + 8 * n → stop.toNat ≤ 0xFFF8 + addr.toNat % 8 →
    ∃ text, dumpLoop mem stop (n + 1) addr out = some (out ++ text) ∧
      Listing mem addr stop text := by
  intro n
  induction n with
  | zero =>
    intro addr out hle _
    have hge : stop ≤ addr := hle
    refine ⟨[], ?_, [], (between_of_le hge).symm, fun _ h => absurd h List.not_mem_nil, rfl⟩
    rw [dumpLoop, if_neg (BitVec.not_lt.mpr hge), List.append_nil]
  | succ n ih =>
    intro addr out hle hres
    rw [dumpLoop]
    by_cases hlt : addr < stop
    · have hltN : addr.toNat < stop.toNat := hlt
      -- The next row has the same residue, and no address is beyond the last of it.
      have hroom : addr.toNat + 8 < 2 ^ 16 := by omega
      have hnext : (addr + 8).toNat = addr.toNat + 8 := toNat_addr_add hroom
      obtain ⟨row, hrow, hne, hlen, rfl⟩ := dumpRow_eq (by omega) hlt mem
      obtain ⟨text, hloop, rows, hflat, hrows, rfl⟩ :=
        ih (addr + 8) (out ++ dumpRow mem addr stop) (by omega) (by omega)
      refine ⟨_, ?_, _ :: rows, ?_, List.forall_mem_cons.mpr ⟨⟨hne, hlen⟩, hrows⟩, rfl⟩
      · rw [if_pos hlt, hloop, hrow, List.flatMap_cons, List.append_assoc]
      · rw [List.flatten_cons, hflat, between_eq hroom]
    · have hge : stop ≤ addr := BitVec.not_lt.mp hlt
      refine ⟨[], ?_, [], (between_of_le hge).symm, fun _ h => absurd h List.not_mem_nil, rfl⟩
      rw [if_neg hlt, List.append_nil]

/-- **Above it the counter wraps, and is below the end again.** -/
theorem dumpLoop_none (mem : Word → Word) {stop : Word} : ∀ (fuel : Nat) (addr : Word)
    (out : Bytes), 0xFFF8 + addr.toNat % 8 < stop.toNat →
    dumpLoop mem stop fuel addr out = none := by
  intro fuel
  induction fuel with
  | zero => exact fun _ _ _ => rfl
  | succ fuel ih =>
    intro addr out hres
    have haddr := addr.isLt
    have hlt : addr < stop := by
      rw [BitVec.lt_def]
      omega
    have hnext : (addr + 8).toNat = (addr.toNat + 8) % 2 ^ 16 := BitVec.toNat_add addr 8
    rw [dumpLoop, if_pos hlt]
    exact ih _ _ (by omega)

theorem dumps_iff (mem : Word → Word) (start stop : Word) : Dumps mem start stop ↔
    stop ≤ start ∨ stop.toNat ≤ 0xFFF8 + start.toNat % 8 := by
  constructor
  · rintro ⟨fuel, out, hrun, -⟩
    by_contra hnot
    obtain ⟨hlt, hres⟩ := not_or.mp hnot
    rw [memDump, if_neg hlt, dumpLoop_none mem fuel start [] (Nat.lt_of_not_le hres)] at hrun
    cases hrun
  · intro h
    by_cases hle : stop ≤ start
    · exact ⟨0, [], if_pos hle, [], (between_of_le hle).symm,
        fun _ h => absurd h List.not_mem_nil, rfl⟩
    · obtain ⟨out, hrun, hlist⟩ := dumpLoop_listing mem stop.toNat start [] (by omega)
        (h.resolve_left hle)
      refine ⟨stop.toNat + 1, out, ?_, hlist⟩
      rw [memDump, if_neg hle, hrun, List.nil_append]

/-- **When a dump ends and prints its range**: for any range, and for the range of `main`. That one
has 256 words from the address that was asked for, and is cut at 0xFFFF; it is the cut ranges that
can have their end above the last address of the residue. -/
theorem memDump_iff (mem : Word → Word) :
    (∀ start stop, Dumps mem start stop ↔
      stop ≤ start ∨ stop.toNat ≤ 0xFFF8 + start.toNat % 8) ∧
    ∀ option : Option Word, Dumps mem (dumpRange option).1 (dumpRange option).2 ↔
      ∀ addr ∈ option, addr.toNat ≤ 0xFEFF ∨ addr.toNat % 8 = 7 := by
  refine ⟨dumps_iff mem, fun option => ?_⟩
  rw [dumps_iff]
  cases option with
  | none =>
    apply iff_of_true (.inr (by decide))
    intro _ h
    cases h
  | some addr =>
    have haddr := addr.isLt
    simp only [Option.mem_some_iff, forall_eq', dumpRange, BitVec.le_def]
    split
    · rw [show (0xFFFF : Word).toNat = 0xFFFF from rfl]
      omega
    · rw [BitVec.toNat_ofNat]
      omega

/-- `--dump --addr FF00` does not come back. -/
theorem memDump_FF00 : dumpRange (some 0xFF00) = (0xFF00, 0xFFFF) ∧
    ¬ Dumps (fun _ => 0) 0xFF00 0xFFFF := by
  refine ⟨by decide, ?_⟩
  rintro ⟨fuel, out, hrun, -⟩
  rw [memDump, if_neg (by decide), dumpLoop_none _ fuel 0xFF00 [] (by decide)] at hrun
  cases hrun

end Proof
end EduCpu16
