import EduCpu16.Lib.CString

/-!
# Reading a text by lines

`fgets` hands over the next line, newline included, or as much of it as the buffer holds. The
pieces of a text (`pieces`) are its lines exactly if the buffer holds every line (`pieces_spec`);
otherwise there are more of them.

A piece that ends in a newline or fills the buffer ends there whatever follows (`readLine_whole`).
Two things rest on this: a text put together from such pieces comes apart into them again
(`pieces_flatten`), and where a call fails, what was handed over until then has the same pieces as
far as it goes (`pieces_handedOver`).
-/

namespace CLib

def newline : Byte := 0x0A

/-- Up to `n` bytes, or to the newline: what is read and what is left. -/
def readLine : Nat → Bytes → Bytes × Bytes
  | 0, s => ([], s)
  | _, [] => ([], [])
  | n + 1, c :: s =>
      if c = newline then ([c], s)
      else
        let (line, rest) := readLine n s
        (c :: line, rest)

/-- `fgets(buf, size, stream)`: the string in the buffer and what is left of the stream, `none` at
its end. -/
def fgets (size : Nat) (stream : Bytes) : Option (Bytes × Bytes) :=
  if stream = [] then none else some (readLine (size - 1) stream)

/-- The lines of a text, each with the newline that ends it. -/
def textLines : Bytes → List Bytes
  | [] => []
  | c :: s =>
      if c = newline then [c] :: textLines s
      else
        match textLines s with
        | [] => [[c]]
        | line :: lines => (c :: line) :: lines

/-- What repeated reading of up to `n` bytes delivers. -/
def pieces (n : Nat) : Nat → Bytes → List Bytes
  | 0, _ => []
  | fuel + 1, s =>
      if s = [] then [] else (readLine n s).1 :: pieces n fuel (readLine n s).2

/-- What repeated reading hands over if call `i` succeeds exactly if `ok i`. A call that fails hands
over nothing of its line, and no call is made after it. -/
def handedOver (n : Nat) (ok : Nat → Bool) : Nat → Nat → Bytes → Bytes
  | 0, _, _ => []
  | fuel + 1, i, s =>
      if s = [] then []
      else if ok i then (readLine n s).1 ++ handedOver n ok fuel (i + 1) (readLine n s).2
      else []

theorem textLines_eq_nil_iff {s : Bytes} : textLines s = [] ↔ s = [] := by
  cases s with
  | nil => exact iff_of_true rfl rfl
  | cons c s =>
    refine iff_of_false (fun h => ?_) (List.cons_ne_nil c s)
    rw [textLines] at h
    split at h
    · cases h
    · split at h
      · cases h
      · cases h

theorem textLines_flatten : ∀ s : Bytes, (textLines s).flatten = s
  | [] => rfl
  | c :: s => by
    have hs := textLines_flatten s
    rw [textLines]
    split
    · rw [List.flatten_cons, hs, List.singleton_append]
    · split
      · rename_i hnil
        rw [hnil] at hs
        rw [← hs]
        rfl
      · rename_i line lines hcons
        rw [hcons] at hs
        rw [← hs]
        rfl

/-- What holds of a character alone and is kept by a character in front that is not a newline holds
of every line. -/
theorem textLines_forall {P : Bytes → Prop} (hone : ∀ c, P [c])
    (hcons : ∀ c line, c ≠ newline → P line → P (c :: line)) :
    ∀ {s : Bytes}, ∀ line ∈ textLines s, P line
  | [], _, h => absurd h List.not_mem_nil
  | c :: s, line, h => by
    rw [textLines] at h
    split at h
    · rcases List.mem_cons.mp h with rfl | h
      · exact hone c
      · exact textLines_forall hone hcons line h
    · rename_i hc
      split at h
      · rw [List.mem_singleton.mp h]
        exact hone c
      · rename_i l ls hs
        have hrest : ∀ l' ∈ l :: ls, P l' := fun l' hl' =>
          textLines_forall hone hcons l' (hs ▸ hl')
        rcases List.mem_cons.mp h with rfl | h
        · exact hcons c l hc (hrest l List.mem_cons_self)
        · exact hrest line (List.mem_cons_of_mem l h)

theorem textLines_ne_nil {s : Bytes} : ∀ line ∈ textLines s, line ≠ [] :=
  textLines_forall (fun _ => List.cons_ne_nil _ _) fun _ _ _ _ => List.cons_ne_nil _ _

theorem textLines_line {line : Bytes} (h : newline ∉ line) :
    textLines (line ++ [newline]) = [line ++ [newline]] := by
  induction line with
  | nil => rfl
  | cons c line ih =>
    rw [List.mem_cons, not_or] at h
    rw [List.cons_append, textLines, if_neg (Ne.symm h.1), ih h.2]

theorem readLine_length : ∀ (n : Nat) (s : Bytes),
    (readLine n s).1.length ≤ n ∧ (readLine n s).1.length + (readLine n s).2.length = s.length
  | 0, s => ⟨Nat.le_refl _, Nat.zero_add _⟩
  | n + 1, [] => ⟨Nat.zero_le _, rfl⟩
  | n + 1, c :: s => by
    obtain ⟨hle, hsum⟩ := readLine_length n s
    rw [readLine]
    split
    · exact ⟨Nat.succ_le_succ (Nat.zero_le n), Nat.add_comm _ _⟩
    · refine ⟨Nat.succ_le_succ hle, ?_⟩
      show (readLine n s).1.length + 1 + (readLine n s).2.length = s.length + 1
      omega

/-- **One read**: a whole line, or the first `n` bytes of one. -/
theorem textLines_readLine : ∀ (n : Nat) (s : Bytes), s ≠ [] →
    (0 < n ∧ textLines s = (readLine n s).1 :: textLines (readLine n s).2) ∨
    (readLine n s).1.length = n ∧ ∃ line lines, textLines (readLine n s).2 = line :: lines ∧
      textLines s = ((readLine n s).1 ++ line) :: lines
  | 0, s, hs => by
    cases hcase : textLines s with
    | nil => exact absurd (textLines_eq_nil_iff.mp hcase) hs
    | cons line lines => exact .inr ⟨rfl, line, lines, hcase, rfl⟩
  | n + 1, c :: s, _ => by
    by_cases hc : c = newline
    · left
      rw [textLines, readLine, if_pos hc, if_pos hc]
      exact ⟨Nat.succ_pos n, rfl⟩
    · rw [textLines, readLine, if_neg hc, if_neg hc]
      by_cases hs : s = []
      · subst hs
        left
        cases n with
        | zero => exact ⟨Nat.succ_pos _, rfl⟩
        | succ n => exact ⟨Nat.succ_pos _, rfl⟩
      · rcases textLines_readLine n s hs with ⟨-, heq⟩ | ⟨hlen, line, lines, hrest, heq⟩
        · left
          rw [heq]
          exact ⟨Nat.succ_pos n, rfl⟩
        · right
          rw [heq]
          exact ⟨congrArg (· + 1) hlen, line, lines, hrest, rfl⟩

/-- **When the pieces are the lines.** Where a line does not fit, there are more pieces. -/
theorem pieces_spec {n : Nat} (hn : 0 < n) : ∀ (fuel : Nat) (s : Bytes), s.length ≤ fuel →
    (textLines s).length ≤ (pieces n fuel s).length ∧
    ((∀ line ∈ textLines s, line.length ≤ n) → pieces n fuel s = textLines s) ∧
    (¬ (∀ line ∈ textLines s, line.length ≤ n) →
      (textLines s).length < (pieces n fuel s).length) := by
  intro fuel
  induction fuel with
  | zero =>
    intro s hs
    obtain rfl := List.length_eq_zero_iff.mp (Nat.le_zero.mp hs)
    refine ⟨Nat.le_refl _, fun _ => rfl, fun h => absurd (fun line hline => ?_) h⟩
    exact absurd hline List.not_mem_nil
  | succ fuel ih =>
    intro s hs
    by_cases hnil : s = []
    · subst hnil
      refine ⟨Nat.zero_le _, fun _ => rfl, fun h => absurd (fun line hline => ?_) h⟩
      exact absurd hline List.not_mem_nil
    obtain ⟨hle, hsum⟩ := readLine_length n s
    have hpieces : pieces n (fuel + 1) s =
        (readLine n s).1 :: pieces n fuel (readLine n s).2 := if_neg hnil
    rw [hpieces]
    rcases textLines_readLine n s hnil with ⟨-, heq⟩ | ⟨hlen, line, lines, hrest, heq⟩
    · have hpos : (readLine n s).1 ≠ [] :=
        textLines_ne_nil (s := s) _ (heq ▸ List.mem_cons_self)
      have := List.length_pos_iff.mpr hpos
      obtain ⟨hcount, hsame, hmore⟩ := ih (readLine n s).2 (by omega)
      rw [heq, List.forall_mem_cons]
      refine ⟨Nat.succ_le_succ hcount, fun h => congrArg _ (hsame h.2), fun h => ?_⟩
      exact Nat.succ_lt_succ (hmore fun hall => h ⟨hle, hall⟩)
    · -- The line goes on behind the piece, so it does not fit.
      obtain ⟨hcount, -, -⟩ := ih (readLine n s).2 (by omega)
      have hline : line ≠ [] := textLines_ne_nil _ (hrest ▸ List.mem_cons_self)
      have := List.length_pos_iff.mpr hline
      have hlong : ¬ ((readLine n s).1 ++ line).length ≤ n := by
        rw [List.length_append]
        omega
      rw [heq]
      rw [hrest, List.length_cons] at hcount
      refine ⟨?_, fun h => absurd (h _ List.mem_cons_self) hlong, fun _ => ?_⟩
      · rw [List.length_cons, List.length_cons]
        omega
      · rw [List.length_cons, List.length_cons]
        omega

/-- A newline ends its piece. -/
theorem readLine_newline : ∀ (n : Nat) (s : Bytes), newline ∉ (readLine n s).1.dropLast
  | 0, _ => List.not_mem_nil
  | _ + 1, [] => List.not_mem_nil
  | n + 1, c :: s => by
    rw [readLine]
    split
    · exact List.not_mem_nil
    · rename_i hc
      have ih := readLine_newline n s
      simp only
      cases hline : (readLine n s).1 with
      | nil => exact List.not_mem_nil
      | cons b line =>
        rw [hline] at ih
        rw [List.dropLast_cons_cons, List.mem_cons, not_or]
        exact ⟨Ne.symm hc, ih⟩

theorem pieces_spelled (n : Nat) : ∀ (fuel : Nat) (s : Bytes),
    ∀ piece ∈ pieces n fuel s, newline ∉ piece.dropLast ∧ piece.length ≤ n
  | 0, _ => fun _ hmem => absurd hmem List.not_mem_nil
  | fuel + 1, s => by
    rw [pieces]
    split
    · exact fun _ hmem => absurd hmem List.not_mem_nil
    · exact List.forall_mem_cons.mpr
        ⟨⟨readLine_newline n s, (readLine_length n s).1⟩, pieces_spelled n fuel _⟩

/-! ## Pieces that end where they end -/

/-- A piece that reading stops at the end of, whatever follows: a line with its newline, or `n`
bytes of one. -/
structure Whole (n : Nat) (piece : Bytes) : Prop where
  inner : newline ∉ piece.dropLast
  le : piece.length ≤ n
  ends : piece.length = n ∨ piece.getLast? = some newline

theorem readLine_whole {n : Nat} {piece : Bytes} (h : Whole n piece) (t : Bytes) :
    readLine n (piece ++ t) = (piece, t) := by
  induction piece generalizing n with
  | nil =>
    obtain rfl : 0 = n := h.ends.resolve_right fun hlast => by cases hlast
    rw [List.nil_append, readLine]
  | cons c piece ih =>
    obtain ⟨m, rfl⟩ := Nat.exists_eq_add_one.mpr (Nat.lt_of_lt_of_le (Nat.succ_pos _) h.le)
    rw [List.cons_append, readLine]
    by_cases hc : c = newline
    · -- A newline can only be the last byte.
      subst hc
      cases piece with
      | nil => rw [if_pos rfl, List.nil_append]
      | cons d piece => exact absurd List.mem_cons_self h.inner
    · have hne : piece ≠ [] ∨ m = 0 := by
        rcases h.ends with hlen | hlast
        · cases piece with
          | nil => exact .inr (Nat.succ.inj hlen).symm
          | cons d piece => exact .inl (List.cons_ne_nil d piece)
        · left
          rintro rfl
          exact hc (Option.some.inj hlast)
      rw [if_neg hc]
      have hrest : readLine m (piece ++ t) = (piece, t) := by
        cases piece with
        | nil =>
          obtain rfl := hne.resolve_left fun hnil => hnil rfl
          rw [List.nil_append, readLine]
        | cons d piece =>
          refine ih ⟨fun hmem => h.inner (List.mem_cons_of_mem c hmem),
            Nat.le_of_succ_le_succ h.le, ?_⟩
          exact h.ends.imp Nat.succ.inj fun hlast => by rwa [List.getLast?_cons_cons] at hlast
      rw [hrest]

/-- What is read is whole, or all there was. -/
theorem whole_or_last : ∀ (n : Nat) (s : Bytes), (readLine n s).2 = [] ∨ Whole n (readLine n s).1
  | 0, _ => .inr ⟨List.not_mem_nil, Nat.le_refl 0, .inl rfl⟩
  | _ + 1, [] => .inl rfl
  | n + 1, c :: s => by
    rw [readLine]
    split
    · rename_i hc
      subst hc
      exact .inr ⟨List.not_mem_nil, Nat.succ_le_succ (Nat.zero_le n), .inr rfl⟩
    · rename_i hc
      rcases whole_or_last n s with hnil | ⟨hinner, hle, hends⟩
      · exact .inl hnil
      · right
        simp only
        cases hline : (readLine n s).1 with
        | nil =>
          rw [hline] at hends
          refine ⟨List.not_mem_nil, Nat.succ_le_succ (Nat.zero_le n), .inl ?_⟩
          exact congrArg (· + 1) (hends.resolve_right fun hlast => by cases hlast)
        | cons d line =>
          rw [hline] at hinner hle hends
          refine ⟨?_, Nat.succ_le_succ hle, ?_⟩
          · rw [List.dropLast_cons_cons, List.mem_cons, not_or]
            exact ⟨Ne.symm hc, hinner⟩
          · exact hends.imp (congrArg (· + 1)) fun hlast => by rwa [List.getLast?_cons_cons]

theorem readLine_append : ∀ (n : Nat) (s : Bytes), (readLine n s).1 ++ (readLine n s).2 = s
  | 0, _ => rfl
  | _ + 1, [] => rfl
  | n + 1, c :: s => by
    rw [readLine]
    split
    · rfl
    · exact congrArg (c :: ·) (readLine_append n s)

theorem readLine_ne_nil {n : Nat} (hn : 0 < n) {s : Bytes} (hs : s ≠ []) :
    (readLine n s).1 ≠ [] := by
  obtain ⟨m, rfl⟩ := Nat.exists_eq_add_one.mpr hn
  obtain ⟨c, s, rfl⟩ := List.exists_cons_of_ne_nil hs
  rw [readLine]
  split
  · exact List.cons_ne_nil _ _
  · exact List.cons_ne_nil _ _

/-- **A text comes apart into the pieces it was put together from.** -/
theorem pieces_flatten {n : Nat} (hn : 0 < n) : ∀ {fuel : Nat} {ps : List Bytes},
    (∀ p ∈ ps, Whole n p) → ps.flatten.length ≤ fuel → pieces n fuel ps.flatten = ps
  | fuel, [], _, _ => by
    cases fuel with
    | zero => rfl
    | succ fuel => rfl
  | fuel, p :: ps, hall, hfuel => by
    obtain ⟨hp, hps⟩ := List.forall_mem_cons.mp hall
    have hne : p ≠ [] := by
      rintro rfl
      rcases hp.ends with hlen | hlast
      · exact absurd hlen (Nat.ne_of_lt hn)
      · cases hlast
    have hpos := List.length_pos_iff.mpr hne
    rw [List.flatten_cons, List.length_append] at hfuel
    obtain ⟨fuel, rfl⟩ := Nat.exists_eq_add_one.mpr (show 0 < fuel by omega)
    rw [List.flatten_cons, pieces, if_neg (List.append_ne_nil_of_left_ne_nil hne _),
      readLine_whole hp, pieces_flatten hn hps (by omega)]

/-- Fuel that is enough is as good as any other. -/
theorem pieces_fuel {n : Nat} (hn : 0 < n) : ∀ {fuel fuel' : Nat} {s : Bytes}, s.length ≤ fuel →
    s.length ≤ fuel' → pieces n fuel s = pieces n fuel' s
  | 0, fuel', s, h, _ => by
    obtain rfl := List.length_eq_zero_iff.mp (Nat.le_zero.mp h)
    cases fuel' with
    | zero => rfl
    | succ fuel' => rfl
  | fuel + 1, 0, s, _, h' => by
    obtain rfl := List.length_eq_zero_iff.mp (Nat.le_zero.mp h')
    rfl
  | fuel + 1, fuel' + 1, s, h, h' => by
    rw [pieces, pieces]
    split
    · rfl
    · rename_i hs
      have hpos := List.length_pos_iff.mpr (readLine_ne_nil hn hs)
      have hsum := (readLine_length n s).2
      have hrest : pieces n fuel (readLine n s).2 = pieces n fuel' (readLine n s).2 :=
        pieces_fuel hn (by omega) (by omega)
      rw [hrest]

/-- If no call fails, all of the text is handed over. -/
theorem handedOver_all {n : Nat} (hn : 0 < n) {ok : Nat → Bool} (hok : ∀ i, ok i = true) :
    ∀ {fuel : Nat} (i : Nat) {s : Bytes}, s.length ≤ fuel → handedOver n ok fuel i s = s
  | 0, _, s, hfuel => (List.length_eq_zero_iff.mp (Nat.le_zero.mp hfuel)).symm
  | fuel + 1, i, s, hfuel => by
    rw [handedOver]
    split
    · rename_i hnil
      exact hnil.symm
    · rename_i hne
      have hpos := List.length_pos_iff.mpr (readLine_ne_nil hn hne)
      have hsum := (readLine_length n s).2
      rw [if_pos (hok i), handedOver_all hn hok (i + 1) (by omega), readLine_append]

theorem handedOver_length {n : Nat} (ok : Nat → Bool) : ∀ (fuel i : Nat) (s : Bytes),
    (handedOver n ok fuel i s).length ≤ s.length
  | 0, _, _ => Nat.zero_le _
  | fuel + 1, i, s => by
    rw [handedOver]
    split
    · exact Nat.zero_le _
    · split
      · have hrest := handedOver_length (n := n) ok fuel (i + 1) (readLine n s).2
        have hsum := (readLine_length n s).2
        rw [List.length_append]
        omega
      · exact Nat.zero_le _

/-- **Up to the call that fails**, the pieces are what they would have been. -/
theorem pieces_handedOver {n : Nat} (hn : 0 < n) (ok : Nat → Bool) : ∀ (fuel i : Nat) (s : Bytes),
    ∃ k, pieces n fuel (handedOver n ok fuel i s) = (pieces n fuel s).take k
  | 0, _, _ => ⟨0, rfl⟩
  | fuel + 1, i, s => by
    by_cases hs : s = []
    · subst hs
      exact ⟨0, rfl⟩
    by_cases hok : ok i = true
    · have hhanded : handedOver n ok (fuel + 1) i s =
          (readLine n s).1 ++ handedOver n ok fuel (i + 1) (readLine n s).2 := by
        rw [handedOver, if_neg hs, if_pos hok]
      have hpieces : pieces n (fuel + 1) s =
          (readLine n s).1 :: pieces n fuel (readLine n s).2 := if_neg hs
      have hne := readLine_ne_nil hn hs
      rcases whole_or_last n s with hlast | hwhole
      · -- The last piece is all that is left.
        have hnil : handedOver n ok fuel (i + 1) [] = [] := by
          cases fuel with
          | zero => rfl
          | succ fuel => rfl
        have hline := readLine_append n s
        rw [hlast, List.append_nil] at hline
        rw [hhanded, hlast, hnil, List.append_nil, hline]
        exact ⟨_, List.take_length.symm⟩
      · obtain ⟨k, hk⟩ := pieces_handedOver hn ok fuel (i + 1) (readLine n s).2
        refine ⟨k + 1, ?_⟩
        rw [hhanded, hpieces, pieces, if_neg (List.append_ne_nil_of_left_ne_nil hne _),
          readLine_whole hwhole, List.take_succ_cons, hk]
    · refine ⟨0, ?_⟩
      rw [handedOver, if_neg hs, if_neg hok]
      rfl

end CLib
