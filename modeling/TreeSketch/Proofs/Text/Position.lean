import Mathlib.Data.List.DropRight
import TreeSketch.Text.Position

/-!
# Where a text has its pieces

Offsets count bytes, and `HasAt` says what a text has at an offset: the offset is the size of what stands before
the piece, so it never falls inside a character. A part of a piece is found at an offset of its own
(`HasAt.left`, `HasAt.right`).

`ofOffset_byteSize` says what the position of such an offset is, by counting: the line is the number of line
feeds before it, and the column the number of bytes since the last of them. The table of line starts is strictly
increasing and starts with 0 (`pairwise_starts`), so the bisection finds the last start that is not beyond the
offset (`bisect_eq`). `exists_position_eq` is what this makes of any offset, between characters or not.
-/

namespace TreeSketch

namespace Text

/-! ## Pieces at offsets -/

/-- The text has the piece at the offset. -/
def HasAt (text : List Char) (offset : Nat) (piece : List Char) : Prop :=
  ∃ before after : List Char, text = before ++ piece ++ after ∧ byteSize before = offset

namespace HasAt

variable {text piece more : List Char} {offset : Nat}

/-- A text is found at its own start. -/
theorem self (text : List Char) : HasAt text 0 text :=
  ⟨[], [], by simp, rfl⟩

theorem left (h : HasAt text offset (piece ++ more)) : HasAt text offset piece := by
  obtain ⟨before, after, rfl, rfl⟩ := h
  exact ⟨before, more ++ after, by simp, rfl⟩

theorem right (h : HasAt text offset (piece ++ more)) :
    HasAt text (offset + byteSize piece) more := by
  obtain ⟨before, after, rfl, rfl⟩ := h
  exact ⟨before ++ piece, after, by simp, byteSize_append before piece⟩

theorem left_of_isPrefix (h : HasAt text offset more) (hpiece : piece <+: more) :
    HasAt text offset piece := by
  obtain ⟨rest, rfl⟩ := hpiece
  exact h.left

theorem head {c : Char} (h : HasAt text offset (c :: more)) : HasAt text offset [c] :=
  left (show HasAt text offset ([c] ++ more) from h)

theorem tail {c : Char} (h : HasAt text offset (c :: more)) :
    HasAt text (offset + c.utf8Size) more :=
  right (show HasAt text offset ([c] ++ more) from h)

/-- A piece ends where the text does or before. -/
theorem add_byteSize_le (h : HasAt text offset piece) :
    offset + byteSize piece ≤ byteSize text := by
  obtain ⟨before, after, rfl, rfl⟩ := h
  rw [byteSize_append, byteSize_append]
  exact Nat.le_add_right _ _

end HasAt

/-! ## Line starts -/

/-- What stands behind the last line feed of a text. -/
def lastLine (cs : List Char) : List Char :=
  cs.rtakeWhile (· ≠ '\n')

namespace LineIndex

theorem startsAfter_append (offset : Nat) (cs ds : List Char) :
    startsAfter offset (cs ++ ds) =
      startsAfter offset cs ++ startsAfter (offset + byteSize cs) ds := by
  induction cs generalizing offset with
  | nil => rfl
  | cons c cs ih =>
    rw [List.cons_append, startsAfter, startsAfter, ih, byteSize_cons, Nat.add_assoc]
    split <;> rfl

/-- A line starts behind the character that ends the one before it. -/
theorem bounds_of_mem_startsAfter {offset start : Nat} {cs : List Char}
    (h : start ∈ startsAfter offset cs) : offset < start ∧ start ≤ offset + byteSize cs := by
  induction cs generalizing offset with
  | nil => cases h
  | cons c cs ih =>
    have hpos := c.utf8Size_pos
    have hrest (hmem : start ∈ startsAfter (offset + c.utf8Size) cs) :
        offset < start ∧ start ≤ offset + byteSize (c :: cs) := by
      obtain ⟨hlow, hhigh⟩ := ih hmem
      rw [byteSize_cons]
      omega
    rw [startsAfter] at h
    split at h
    · rcases List.mem_cons.mp h with rfl | h
      · rw [byteSize_cons]
        omega
      · exact hrest h
    · exact hrest h

theorem length_startsAfter (offset : Nat) (cs : List Char) :
    (startsAfter offset cs).length = cs.count '\n' := by
  induction cs generalizing offset with
  | nil => rfl
  | cons c cs ih =>
    rw [startsAfter]
    split
    · rename_i h
      rw [List.length_cons, ih, h, List.count_cons_self]
    · rename_i h
      rw [ih, List.count_cons_of_ne h]

theorem pairwise_startsAfter (offset : Nat) (cs : List Char) :
    (startsAfter offset cs).Pairwise (· < ·) := by
  induction cs generalizing offset with
  | nil => exact List.Pairwise.nil
  | cons c cs ih =>
    rw [startsAfter]
    split
    · exact List.pairwise_cons.mpr ⟨fun start hstart => (bounds_of_mem_startsAfter hstart).1, ih _⟩
    · exact ih _

/-- The line starts of a text are strictly increasing. -/
theorem pairwise_starts (cs : List Char) : (0 :: startsAfter 0 cs).Pairwise (· < ·) :=
  List.pairwise_cons.mpr
    ⟨fun _ hstart => (bounds_of_mem_startsAfter hstart).1, pairwise_startsAfter 0 cs⟩

/-- From the last line start on, a text has its last line. -/
theorem getLast_starts (cs : List Char) :
    (0 :: startsAfter 0 cs).getLast (List.cons_ne_nil _ _) + byteSize (lastLine cs) =
      byteSize cs := by
  induction cs using List.reverseRecOn with
  | nil => rfl
  | append_singleton cs c ih =>
    rw [lastLine]
    by_cases hc : c = '\n'
    · have hlast : startsAfter 0 (cs ++ [c]) = startsAfter 0 cs ++ [byteSize cs + c.utf8Size] := by
        rw [startsAfter_append, startsAfter, if_pos hc, startsAfter, Nat.zero_add]
      simp only [hlast, ← List.cons_append, List.getLast_append_singleton]
      rw [List.rtakeWhile_concat_neg _ _ _ (by simp [hc]), byteSize_append]
      rfl
    · have hsame : startsAfter 0 (cs ++ [c]) = startsAfter 0 cs := by
        rw [startsAfter_append, startsAfter, if_neg hc, startsAfter, List.append_nil]
      simp only [hsame]
      rw [List.rtakeWhile_concat_pos _ _ _ (by simp [hc]), byteSize_append, byteSize_append,
        ← Nat.add_assoc]
      exact congrArg (· + byteSize [c]) ih

/-! ## Bisection -/

/-- Bisection finds the line that the line starts before an offset end with. -/
theorem bisect_eq {starts : Array Nat} {offset low high line : Nat} (hlow : low ≤ line)
    (hhigh : line < high) (hle : ∀ i ≤ line, starts.getD i 0 ≤ offset)
    (hlt : ∀ i, line < i → i < high → offset < starts.getD i 0) :
    bisect starts offset low high = line := by
  fun_induction bisect starts offset low high with
  | case1 low high hwide middle hmiddle ih =>
    refine ih ?_ hhigh hlt
    by_contra hbelow
    have := hlt middle (by omega) (by omega)
    omega
  | case2 low high hwide middle hmiddle ih =>
    have habove : line < middle := by
      by_contra hle'
      exact hmiddle (hle middle (by omega))
    exact ih hlow habove fun i hi himiddle => hlt i hi (by omega)
  | case3 low high hnarrow => omega

/-- In an increasing list the numbers up to a bound come first. -/
theorem le_iff_lt_countP {numbers : List Nat} (h : numbers.Pairwise (· < ·)) (bound : Nat) {i : Nat}
    (hi : i < numbers.length) : numbers[i] ≤ bound ↔ i < numbers.countP (· ≤ bound) := by
  induction numbers generalizing i with
  | nil => exact absurd hi (Nat.not_lt_zero i)
  | cons number numbers ih =>
    obtain ⟨hfirst, hrest⟩ := List.pairwise_cons.mp h
    by_cases hle : number ≤ bound
    · rw [List.countP_cons_of_pos (by simpa using hle)]
      cases i with
      | zero => simpa using hle
      | succ i =>
        rw [List.getElem_cons_succ, ih hrest (Nat.lt_of_succ_lt_succ hi), Nat.succ_lt_succ_iff]
    · have hnone : numbers.countP (· ≤ bound) = 0 := by
        rw [List.countP_eq_zero]
        intro other hother
        have := hfirst other hother
        simp only [decide_eq_true_eq]
        omega
      rw [List.countP_cons_of_neg (by simpa using hle), hnone]
      have hlarge : number ≤ (number :: numbers)[i] := by
        cases i with
        | zero => exact Nat.le_refl _
        | succ i => exact Nat.le_of_lt (hfirst _ (List.getElem_mem _))
      omega

/-- The position of an offset is counted from the last line that starts up to there. The line that starts with the
text is not counted. -/
theorem exists_position_eq (cs : List Char) (offset : Nat) :
    ∃ start, (0 :: startsAfter 0 cs)[(startsAfter 0 cs).countP (· ≤ offset)]? = some start ∧ start ≤ offset ∧
      (ofText cs).position offset = ⟨(startsAfter 0 cs).countP (· ≤ offset), offset - start⟩ := by
  have hsorted := pairwise_starts cs
  have hcount : (0 :: startsAfter 0 cs).countP (· ≤ offset) = (startsAfter 0 cs).countP (· ≤ offset) + 1 :=
    List.countP_cons_of_pos (by simp)
  have hlength : (startsAfter 0 cs).countP (· ≤ offset) < (0 :: startsAfter 0 cs).length := by
    rw [List.length_cons]
    exact Nat.lt_succ_of_le List.countP_le_length
  have hget (i : Nat) (hi : i < (0 :: startsAfter 0 cs).length) :
      (ofText cs).starts.getD i 0 = (0 :: startsAfter 0 cs)[i] := by
    rw [ofText, Array.getD_eq_getD_getElem?, List.getElem?_toArray, List.getElem?_eq_getElem hi, Option.getD_some]
  have hline : bisect (ofText cs).starts offset 0 (ofText cs).starts.size =
      (startsAfter 0 cs).countP (· ≤ offset) := by
    apply bisect_eq (Nat.zero_le _) hlength
    · intro i hi
      rw [hget i (by omega), le_iff_lt_countP hsorted offset, hcount]
      omega
    · intro i hi hsize
      rw [hget i hsize, ← Nat.not_le, le_iff_lt_countP hsorted offset, hcount]
      omega
  refine ⟨_, List.getElem?_eq_getElem hlength, ?_, ?_⟩
  · rw [le_iff_lt_countP hsorted offset, hcount]
    exact Nat.lt_succ_self _
  · rw [position]
    simp only [hline, hget _ hlength]

end LineIndex

/-! ## Positions -/

namespace Position

open LineIndex

/-- The position of an offset between two parts of a text is counted in the first part. -/
theorem ofOffset_byteSize (before after : List Char) :
    ofOffset (before ++ after) (byteSize before) =
      ⟨before.count '\n', byteSize (lastLine before)⟩ := by
  obtain ⟨start, hstart, -, hposition⟩ := exists_position_eq (before ++ after) (byteSize before)
  have hsplit : startsAfter 0 (before ++ after) =
      startsAfter 0 before ++ startsAfter (byteSize before) after := by
    rw [startsAfter_append, Nat.zero_add]
  have hbefore : (startsAfter 0 before).countP (· ≤ byteSize before) = before.count '\n' := by
    rw [← length_startsAfter 0, List.countP_eq_length]
    intro start hstart
    have := (bounds_of_mem_startsAfter hstart).2
    simp only [decide_eq_true_eq]
    omega
  have hafter : (startsAfter (byteSize before) after).countP (· ≤ byteSize before) = 0 := by
    rw [List.countP_eq_zero]
    intro start hstart
    have := (bounds_of_mem_startsAfter hstart).1
    simp only [decide_eq_true_eq]
    omega
  have hline : (startsAfter 0 (before ++ after)).countP (· ≤ byteSize before) = before.count '\n' := by
    rw [hsplit, List.countP_append, hbefore, hafter, Nat.add_zero]
  have hlast : (0 :: startsAfter 0 before).getLast (List.cons_ne_nil _ _) = start := by
    rw [hline, hsplit, ← length_startsAfter 0, ← List.cons_append,
      List.getElem?_append_left (by rw [List.length_cons]; exact Nat.lt_succ_self _)] at hstart
    rw [← Option.some.injEq, ← hstart, ← List.getLast?_eq_some_getLast, List.getLast?_eq_getElem?]
    rfl
  have hsize := getLast_starts before
  rw [hlast] at hsize
  rw [ofOffset, hposition, hline]
  congr 1
  omega

end Position

end Text

end TreeSketch
