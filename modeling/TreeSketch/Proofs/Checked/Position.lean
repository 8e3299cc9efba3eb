import TreeSketch.Error
import TreeSketch.Proofs.Checked.Access

/-!
# Positions by search in a table

The position of an offset, found by a search in the table of line starts: an offset that is not in the
table belongs to the line before the place where it would have to be put in. `position_ofText` says that
this is the position that `LineIndex.position` finds. The table starts with 0, so no offset would have to
be put in front.
-/

namespace TreeSketch.Checked

variable {ε : Type}

/-- Where an increasing list of numbers has a number, or else where it would have to be put in. -/
def search (numbers : List Nat) (number : Nat) : Except Nat Nat :=
  match numbers.findIdx? (· = number) with
  | some i => .ok i
  | none => .error (numbers.countP (· < number))

/-- The line of an offset, when lines start at the given offsets. -/
def line (starts : List Nat) (offset : Nat) : Checked ε Nat :=
  match search starts offset with
  | .ok line => .ok line
  | .error next => minus next 1

/-- The line and column of an offset. -/
def position (index : Text.LineIndex) (offset : Nat) : Checked ε Text.Position := do
  let line ← line index.starts.toList offset
  let start ← element index.starts.toList line
  let column ← minus offset start
  return ⟨line, column⟩

/-- The offset with its line and column. -/
def place (index : Text.LineIndex) (offset : Nat) : Checked ε Place := do
  let position ← position index offset
  return ⟨offset, position⟩

/-- The search ends behind the last number up to a bound. -/
theorem search_eq {numbers : List Nat} (h : numbers.Pairwise (· < ·)) (number : Nat) :
    search numbers number = .ok (numbers.countP (· ≤ number) - 1) ∨
      search numbers number = .error (numbers.countP (· ≤ number)) := by
  rw [search]
  cases hfind : numbers.findIdx? (· = number) with
  | some i =>
    refine Or.inl (congrArg Except.ok ?_)
    obtain ⟨hi, hnumber, -⟩ := List.findIdx?_eq_some_iff_getElem.mp hfind
    have hnumber : numbers[i] = number := by simpa using hnumber
    have hlow := (Text.LineIndex.le_iff_lt_countP h number hi).mp (Nat.le_of_eq hnumber)
    -- The next number is larger, so the list has no more than these.
    have hhigh : numbers.countP (· ≤ number) ≤ i + 1 := by
      by_contra hmore
      have hnext : i + 1 < numbers.length :=
        Nat.lt_of_lt_of_le (Nat.lt_of_not_le hmore) List.countP_le_length
      have hle := (Text.LineIndex.le_iff_lt_countP h number hnext).mpr (Nat.lt_of_not_le hmore)
      have hlt := List.pairwise_iff_getElem.mp h i (i + 1) hi hnext (Nat.lt_succ_self i)
      omega
    omega
  | none =>
    refine Or.inr (congrArg Except.error (List.countP_congr fun other hother => ?_))
    have hne : other ≠ number := by simpa using List.findIdx?_eq_none_iff.mp hfind other hother
    simp only [decide_eq_true_eq]
    omega

/-- The line of an offset is found if a line starts at or before it. -/
theorem line_eq {starts : List Nat} (h : starts.Pairwise (· < ·)) {offset : Nat}
    (hpos : 0 < starts.countP (· ≤ offset)) :
    (line starts offset : Checked ε Nat) = .ok (starts.countP (· ≤ offset) - 1) := by
  rw [line]
  rcases search_eq h offset with hsearch | hsearch
  · rw [hsearch]
  · rw [hsearch]
    exact minus_of_le hpos

/-- The position of an offset in a text is found, and it is the one that bisection finds. -/
theorem position_ofText (text : List Char) (offset : Nat) :
    (position (Text.LineIndex.ofText text) offset : Checked ε _) =
      .ok ((Text.LineIndex.ofText text).position offset) := by
  obtain ⟨start, hstart, hle, hposition⟩ := Text.LineIndex.exists_position_eq text offset
  have hcount : (0 :: Text.LineIndex.startsAfter 0 text).countP (· ≤ offset) =
      (Text.LineIndex.startsAfter 0 text).countP (· ≤ offset) + 1 :=
    List.countP_cons_of_pos (by simp)
  have hline : (line (0 :: Text.LineIndex.startsAfter 0 text) offset : Checked ε Nat) =
      .ok ((Text.LineIndex.startsAfter 0 text).countP (· ≤ offset)) := by
    rw [line_eq (Text.LineIndex.pairwise_starts text) (by rw [hcount]; exact Nat.succ_pos _), hcount,
      Nat.add_sub_cancel]
  rw [hposition, position, Text.LineIndex.ofText, hline, ok_bind, element_of_getElem? hstart, ok_bind,
    minus_of_le hle]
  rfl

theorem place_ofText (text : List Char) (offset : Nat) :
    (place (Text.LineIndex.ofText text) offset : Checked ε Place) =
      .ok ⟨offset, (Text.LineIndex.ofText text).position offset⟩ := by
  rw [place, position_ofText]
  rfl

end TreeSketch.Checked
