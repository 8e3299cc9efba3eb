/-!
# Numbers as text

The text of a number consists of digits, of which the number is the value. So where no digit comes behind it,
the number is known from a text that starts with it (`toString_append_inj`).
-/

namespace TreeSketch.Text

/-- No digit stands at the start of the text. -/
def Stops (text : List Char) : Prop :=
  ∀ c ∈ text.head?, c.isDigit = false

theorem isDigit_of_mem_toString {n : Nat} {c : Char} (h : c ∈ (toString n).toList) : c.isDigit = true := by
  rw [Nat.toString_eq_repr, Nat.repr, String.toList_ofList] at h
  exact Nat.isDigit_of_mem_toDigits (Nat.succ_pos 9) (Nat.le_refl 10) h

/-- A number is the value of its digits. -/
theorem ofDigitChars_toString (n : Nat) : Nat.ofDigitChars 10 (toString n).toList 0 = n := by
  rw [Nat.toString_eq_repr, Nat.repr, String.toList_ofList, Nat.ofDigitChars_ten_toDigits]

/-- The digits of a number end where no digit follows. -/
theorem takeWhile_toString_append (n : Nat) {rest : List Char} (hrest : Stops rest) :
    ((toString n).toList ++ rest).takeWhile Char.isDigit = (toString n).toList := by
  rw [List.takeWhile_append_of_pos fun c hc => isDigit_of_mem_toString hc]
  cases rest with
  | nil => rw [List.takeWhile_nil, List.append_nil]
  | cons c rest => rw [List.takeWhile_cons_of_neg (by simp [hrest c rfl]), List.append_nil]

/-- Texts that start with numbers, behind which no digit comes, start with the same number if they are equal. -/
theorem toString_append_inj {n k : Nat} {rest more : List Char} (hrest : Stops rest) (hmore : Stops more)
    (h : (toString n).toList ++ rest = (toString k).toList ++ more) : n = k ∧ rest = more := by
  have hdigits := congrArg (List.takeWhile Char.isDigit) h
  rw [takeWhile_toString_append n hrest, takeWhile_toString_append k hmore] at hdigits
  rw [hdigits] at h
  refine ⟨?_, List.append_cancel_left h⟩
  rw [← ofDigitChars_toString n, hdigits, ofDigitChars_toString k]

end TreeSketch.Text
