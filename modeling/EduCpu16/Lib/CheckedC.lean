import EduCpu16.Lib.CString

/-!
# C code with its side conditions checked

A `Run` is a piece of C that comes to an end with a value or is stopped by a `Fault`: a string read
behind its NUL, an index outside an array, a copy that does not fit, a signed result outside its
type, or a loop that is still going when its fuel is used up. `Ends x Q` says that there is no
fault and that the value is in `Q`. Arrays are vectors; what a loop has written so far is a prefix
(`prefix_assign`). A loop ends if its turns keep an invariant and bring a measure down
(`loop_ends`).
-/

namespace CheckedC

open CLib

inductive Fault
  | read | index | truncated | overflow | fuel
  deriving DecidableEq, Repr

abbrev Run (α : Type) := Except Fault α

/-- No fault, and a value in `Q`. -/
def Ends {α : Type} (x : Run α) (Q : α → Prop) : Prop := ∃ a, x = .ok a ∧ Q a

section Ends

variable {α β : Type} {x : Run α} {f : α → Run β} {P Q : α → Prop} {R : β → Prop} {a : α}

theorem Ends.pure (h : Q a) : Ends (Pure.pure a) Q := ⟨a, rfl, h⟩

theorem Ends.bind (hx : Ends x P) (hf : ∀ a, P a → Ends (f a) R) : Ends (x >>= f) R := by
  obtain ⟨a, rfl, ha⟩ := hx
  exact hf a ha

theorem Ends.imp (h : Ends x P) (hPQ : ∀ a, P a → Q a) : Ends x Q := by
  obtain ⟨a, hx, ha⟩ := h
  exact ⟨a, hx, hPQ a ha⟩

end Ends

/-! ## Loops

A loop is a body with fuel. `loop_ends` is its rule: a measure that each turn lowers, and an
invariant that each turn keeps. -/

/-- A turn goes on with a state or leaves the loop. -/
inductive Next (σ ρ : Type)
  | again (s : σ)
  | leave (r : ρ)

def loop {σ ρ : Type} (body : σ → Run (Next σ ρ)) : Nat → σ → Run ρ
  | 0, _ => .error .fuel
  | fuel + 1, s => do
      match ← body s with
      | .again s => loop body fuel s
      | .leave r => return r

/-- What a turn is to do: stay in `I` and go down, or leave with `Q`. -/
def Turns {σ ρ : Type} (I : σ → Prop) (left : σ → Nat) (Q : ρ → Prop) (s : σ) : Next σ ρ → Prop
  | .again s' => I s' ∧ left s' < left s
  | .leave r => Q r

/-- **The rule of loops.** -/
theorem loop_ends {σ ρ : Type} {body : σ → Run (Next σ ρ)} {Q : ρ → Prop} (I : σ → Prop)
    (left : σ → Nat) (turn : ∀ s, I s → Ends (body s) (Turns I left Q s)) {fuel : Nat} {s : σ}
    (hs : I s) (hfuel : left s < fuel) : Ends (loop body fuel s) Q := by
  induction fuel generalizing s with
  | zero => exact absurd hfuel (Nat.not_lt_zero _)
  | succ fuel ih =>
    apply (turn s hs).bind
    intro next hnext
    cases next with
    | again s' => exact ih hnext.1 (Nat.lt_of_lt_of_le hnext.2 (Nat.le_of_lt_succ hfuel))
    | leave r => exact Ends.pure hnext

/-! ## Arrays

An access outside the array is a fault, as is one outside a string. -/

section Arrays

variable {α : Type} {n : Nat}

/-- `a[i]`. -/
def index (a : Vector α n) (i : Nat) : Run α := if h : i < n then .ok a[i] else .error .index

/-- `a[i] = v`. -/
def assign (a : Vector α n) (i : Nat) (v : α) : Run (Vector α n) :=
  if h : i < n then .ok (a.set i v) else .error .index

theorem index_of_lt {i : Nat} (h : i < n) (a : Vector α n) : index a i = .ok a[i] := dif_pos h

theorem assign_of_lt {i : Nat} (h : i < n) (a : Vector α n) (v : α) :
    assign a i v = .ok (a.set i v) := dif_pos h

/-- **One more cell.** -/
theorem prefix_assign {i : Nat} (h : i < n) (a : Vector α n) (v : α) :
    (a.set i v).toList.take (i + 1) = a.toList.take i ++ [v] := by
  have hlen : i < a.toList.length := by rw [Vector.length_toList]; exact h
  have htake : (a.toList.take i).length = i := List.length_take_of_le (Nat.le_of_lt hlen)
  rw [Vector.toList_set, List.set_eq_take_append_cons_drop, if_pos hlen]
  rw [List.take_append, htake, Nat.add_sub_cancel_left, List.take_of_length_le (by omega)]
  rfl

end Arrays

/-! ## Strings -/

/-- A string in memory, up to its NUL. -/
structure CStr where
  bytes : Bytes
  noNul : ∀ c ∈ bytes, c ≠ 0

/-- `s[i]`. The NUL can be read and nothing behind it. -/
def CStr.read (s : CStr) (i : Nat) : Run Byte :=
  if h : i < s.bytes.length then .ok s.bytes[i]
  else if i = s.bytes.length then .ok 0
  else .error .read

/-- The characters from `i` on. -/
def CStr.suffix (s : CStr) (i : Nat) : Bytes := s.bytes.drop i

theorem CStr.read_of_le (s : CStr) {i : Nat} (h : i ≤ s.bytes.length) :
    s.read i = .ok ((s.suffix i).headD 0) := by
  rw [read, suffix]
  by_cases hlt : i < s.bytes.length
  · rw [dif_pos hlt, List.drop_eq_getElem_cons hlt]
    rfl
  · have heq : i = s.bytes.length := Nat.le_antisymm h (Nat.not_lt.mp hlt)
    rw [dif_neg hlt, if_pos heq, List.drop_of_length_le (Nat.not_lt.mp hlt)]
    rfl

/-- Behind a character that is not the NUL there is one more to read. -/
theorem CStr.lt_of_head_ne {s : CStr} {i : Nat} (h : (s.suffix i).headD 0 ≠ 0) :
    i < s.bytes.length := by
  by_contra hge
  rw [suffix, List.drop_of_length_le (Nat.not_lt.mp hge)] at h
  exact h rfl

theorem CStr.suffix_succ (s : CStr) (i : Nat) : s.suffix (i + 1) = (s.suffix i).tail :=
  List.tail_drop.symm

/-- `strlen` of an array that holds a string. -/
def strlen {n : Nat} (a : Vector Byte n) : Run Nat :=
  if (0 : Byte) ∈ a.toList then .ok (cstr a.toList).length else .error .index

/-- `memcpy(dst, src, k)`. -/
def memcpy {m n : Nat} (dst : Vector Byte m) (src : Vector Byte n) (k : Nat) :
    Run (Vector Byte m) :=
  if h : k ≤ m ∧ k ≤ n then
    .ok ⟨(src.toList.take k ++ dst.toList.drop k).toArray, by
      rw [List.size_toArray, List.length_append, List.length_take, List.length_drop,
        Vector.length_toList, Vector.length_toList]
      omega⟩
  else .error .index

theorem strlen_of_mem {n : Nat} {a : Vector Byte n} (h : (0 : Byte) ∈ a.toList) :
    strlen a = .ok (cstr a.toList).length := if_pos h

theorem memcpy_of_le {m n k : Nat} (hm : k ≤ m) (hn : k ≤ n) (dst : Vector Byte m)
    (src : Vector Byte n) :
    Ends (memcpy dst src k) fun a => a.toList.take k = src.toList.take k := by
  have hlen : k ≤ src.toList.length := by rw [Vector.length_toList]; exact hn
  rw [memcpy, dif_pos ⟨hm, hn⟩]
  refine ⟨_, rfl, ?_⟩
  exact List.take_left' (List.length_take_of_le hlen)

/-- A string is held by an array that begins with it and a NUL. -/
theorem cstr_of_prefix {n k : Nat} {a : Vector Byte n} {s : Bytes}
    (h : a.toList.take k = s ++ [0]) : (0 : Byte) ∈ a.toList ∧ cstr a.toList = cstr s := by
  have hsplit : a.toList = s ++ 0 :: a.toList.drop k := by
    rw [← List.singleton_append, ← List.append_assoc, ← h, List.take_append_drop]
  constructor
  · rw [hsplit]
    exact List.mem_append_right s List.mem_cons_self
  · rw [hsplit, cstr_append_zero]

/-- The NUL behind the copy of a string. -/
theorem terminate_ends {m n : Nat} {a : Vector Byte m} {src : Vector Byte n}
    (hcopied : a.toList.take (cstr src.toList).length = src.toList.take (cstr src.toList).length)
    (hlt : (cstr src.toList).length < m) : Ends (assign a (cstr src.toList).length 0) fun a' =>
      (0 : Byte) ∈ a'.toList ∧ cstr a'.toList = cstr src.toList := by
  have hprefix := prefix_assign hlt a 0
  rw [hcopied, take_cstr] at hprefix
  obtain ⟨hmem, hcstr⟩ := cstr_of_prefix hprefix
  rw [cstr_of_not_mem (not_mem_cstr _)] at hcstr
  rw [assign_of_lt hlt]
  exact Ends.pure ⟨hmem, hcstr⟩

theorem cstr_length_lt {n : Nat} {a : Vector Byte n} (h : (0 : Byte) ∈ a.toList) :
    (cstr a.toList).length < n := by
  obtain ⟨rest, hrest⟩ := cstr_append_of_mem h
  have hlen := congrArg List.length hrest
  rw [Vector.length_toList, List.length_append, List.length_cons] at hlen
  omega

/-- The first `n` characters of `src` and a NUL, copied to an array of `size` characters; they are
to be the whole string. -/
def copyString (size : Nat) (src : Bytes) (n : Nat) : Run Bytes :=
  if size ≤ n then .error .index
  else if n < src.length then .error .truncated
  else .ok (src.take n)

/-- `snprintf(dst, size, "%s", src)`. -/
def snprintf (size : Nat) (src : Bytes) : Run Bytes :=
  copyString size src (min src.length (size - 1))

theorem copyString_of_lt {size : Nat} {src : Bytes} (h : src.length < size) :
    copyString size src src.length = .ok src := by
  rw [copyString, if_neg (Nat.not_le.mpr h), if_neg (Nat.lt_irrefl _), List.take_length]

theorem snprintf_of_lt {size : Nat} {src : Bytes} (h : src.length < size) :
    snprintf size src = .ok src := by
  rw [snprintf, Nat.min_eq_left (Nat.le_sub_one_of_lt h), copyString_of_lt h]

/-! ## Arithmetic

The overflow of a signed subtraction is a fault too. -/

/-- `a - b` of a signed type. -/
def sub {w : Nat} (a b : BitVec w) : Run (BitVec w) :=
  if a.ssubOverflow b then .error .overflow else .ok (a - b)

theorem sub_of_overflow {w : Nat} {a b : BitVec w} (h : a.ssubOverflow b = true) :
    sub a b = .error .overflow := if_pos h

theorem sub_of_not_overflow {w : Nat} {a b : BitVec w} (h : ¬ a.ssubOverflow b = true) :
    sub a b = .ok (a - b) := if_neg h

end CheckedC
