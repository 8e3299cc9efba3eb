import TreeSketch.Proofs.Text.Lines
import TreeSketch.Proofs.Text.Position

/-!
# Carriage returns before line feeds

A text whose lines end in line feeds can be written with a carriage return before each of them. Its lines are the same
then (`bareLines_withReturns`), and so is the position of every character that is not one of the line ends
(`ofOffset_withReturns`): a carriage return ends its line, so nothing behind it on the line is moved.
-/

namespace TreeSketch.Text

/-- The text with a carriage return before every line feed. -/
def withReturns (cs : List Char) : List Char :=
  cs.flatMap fun c => if c = '\n' then ['\r', '\n'] else [c]

theorem withReturns_append (cs ds : List Char) :
    withReturns (cs ++ ds) = withReturns cs ++ withReturns ds :=
  List.flatMap_append

theorem withReturns_lineFeed (cs : List Char) :
    withReturns ('\n' :: cs) = '\r' :: '\n' :: withReturns cs := rfl

theorem withReturns_cons {c : Char} (h : c ≠ '\n') (cs : List Char) :
    withReturns (c :: cs) = c :: withReturns cs := by
  rw [withReturns, List.flatMap_cons, if_neg h]
  rfl

/-- A text without line feeds stays as it is. -/
theorem withReturns_of_not_mem {cs : List Char} (h : '\n' ∉ cs) : withReturns cs = cs := by
  induction cs with
  | nil => rfl
  | cons c cs ih =>
    rw [List.mem_cons, not_or] at h
    rw [withReturns_cons (Ne.symm h.1), ih h.2]

theorem allBlank_withReturns (cs : List Char) : allBlank (withReturns cs) = allBlank cs := by
  induction cs with
  | nil => rfl
  | cons c cs ih =>
    rw [allBlank] at ih
    by_cases hc : c = '\n'
    · subst hc
      rw [withReturns_lineFeed, allBlank, List.all_cons, List.all_cons, ih]
      rfl
    · rw [withReturns_cons hc, allBlank, List.all_cons, ih]
      rfl

/-! ## Lines -/

/-- Only a carriage return at the end is left out. -/
theorem dropReturn_cons {c : Char} (h : c ≠ '\r') (line : List Char) :
    dropReturn (c :: line) = c :: dropReturn line := by
  cases line with
  | nil => exact if_neg (by simpa using h)
  | cons d line =>
    rw [dropReturn, dropReturn, List.getLast?_cons_cons, List.dropLast_cons_cons]
    split <;> rfl

/-- The pieces of the text, but for the last one, end in the carriage returns. -/
theorem pieces_withReturns {cs : List Char} (h : '\r' ∉ cs) :
    (pieces (withReturns cs)).map dropReturn = pieces cs ∧
      (pieces (withReturns cs)).getLast? = (pieces cs).getLast? := by
  induction cs with
  | nil => exact ⟨rfl, rfl⟩
  | cons c cs ih =>
    rw [List.mem_cons, not_or] at h
    obtain ⟨hpieces, hlast⟩ := ih h.2
    by_cases hc : c = '\n'
    · subst hc
      have hreturn : pieces ('\r' :: '\n' :: withReturns cs) = ['\r'] :: pieces (withReturns cs) := rfl
      have hfeed : pieces ('\n' :: cs) = [] :: pieces cs := rfl
      rw [withReturns_lineFeed, hreturn, hfeed, List.map_cons, hpieces,
        List.getLast?_cons_of_ne_nil (pieces_ne_nil _), List.getLast?_cons_of_ne_nil (pieces_ne_nil _),
        hlast]
      exact ⟨rfl, rfl⟩
    · rw [withReturns_cons hc, pieces, pieces, if_neg hc, if_neg hc, ← hpieces]
      cases hsplit : pieces (withReturns cs) with
      | nil => exact absurd hsplit (pieces_ne_nil _)
      | cons piece rest =>
        rw [hsplit, ← hpieces, hsplit] at hlast
        simp only [List.map_cons, dropReturn_cons (Ne.symm h.1), true_and]
        cases rest with
        | nil =>
          -- The last piece ends in no carriage return, so it stays as it is.
          have hsame : piece = dropReturn piece := Option.some.inj hlast
          rw [List.map_nil, ← hsame]
        | cons next rest => exact hlast

/-- The lines of the text are the same, whether carriage returns stand at their ends or not. -/
theorem bareLines_withReturns {cs : List Char} (h : '\r' ∉ cs) :
    bareLines (withReturns cs) = bareLines cs := by
  obtain ⟨hpieces, hlast⟩ := pieces_withReturns h
  have hkept : ∀ lines : List (List Char), (∀ line ∈ lines, line ∈ pieces cs) →
      lines.map dropReturn = lines := by
    intro lines hlines
    have hsame : ∀ line ∈ lines, dropReturn line = id line := by
      intro line hline
      apply dropReturn_eq_self
      intro hreturn
      exact h (subset_of_mem_pieces (hlines line hline) (List.mem_of_getLast? hreturn))
    rw [List.map_congr_left hsame, List.map_id]
  rw [bareLines, bareLines, rawLines, rawLines, hlast]
  split
  · rw [List.map_dropLast, hpieces, hkept _ fun line hline => List.dropLast_subset _ hline]
  · rw [hpieces, hkept _ fun _ hline => hline]

/-! ## Positions -/

theorem count_lineFeed_withReturns (cs : List Char) :
    (withReturns cs).count '\n' = cs.count '\n' := by
  induction cs with
  | nil => rfl
  | cons c cs ih =>
    by_cases hc : c = '\n'
    · subst hc
      rw [withReturns_lineFeed, List.count_cons_of_ne (by decide), List.count_cons_self,
        List.count_cons_self, ih]
    · rw [withReturns_cons hc, List.count_cons_of_ne hc, List.count_cons_of_ne hc, ih]

/-- Behind the last line feed nothing has changed. -/
theorem lastLine_withReturns (cs : List Char) : lastLine (withReturns cs) = lastLine cs := by
  induction cs using List.reverseRecOn with
  | nil => rfl
  | append_singleton cs c ih =>
    rw [withReturns_append]
    by_cases hc : c = '\n'
    · subst hc
      have hfeed : withReturns ['\n'] = ['\r'] ++ ['\n'] := rfl
      rw [hfeed, ← List.append_assoc, lastLine, lastLine, List.rtakeWhile_concat_neg _ _ _ (by simp),
        List.rtakeWhile_concat_neg _ _ _ (by simp)]
    · have hsame : withReturns [c] = [c] := withReturns_cons hc []
      rw [hsame, lastLine, lastLine,
        List.rtakeWhile_concat_pos _ _ _ (by simp [hc]),
        List.rtakeWhile_concat_pos _ _ _ (by simp [hc])]
      exact congrArg (· ++ [c]) ih

/-- What stands behind a part of the text has the position that it had. -/
theorem ofOffset_withReturns (before after : List Char) :
    Position.ofOffset (withReturns (before ++ after)) (byteSize (withReturns before)) =
      Position.ofOffset (before ++ after) (byteSize before) := by
  rw [withReturns_append, Position.ofOffset_byteSize, Position.ofOffset_byteSize,
    count_lineFeed_withReturns, lastLine_withReturns]

end TreeSketch.Text
