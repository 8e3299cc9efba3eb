import TreeSketch.Text.Lines

/-!
# Texts made of lines

`terminate` ends each of several lines with a line feed, and `rawLines_terminate` says that the lines are
found again, whatever they hold besides line feeds.
-/

namespace TreeSketch.Text

/-- Ends each line with a line feed. -/
def terminate (lines : List (List Char)) : List Char :=
  lines.flatMap (· ++ ['\n'])

@[simp] theorem terminate_nil : terminate [] = [] := rfl

@[simp] theorem terminate_cons (line : List Char) (rest : List (List Char)) :
    terminate (line :: rest) = line ++ '\n' :: terminate rest := by
  simp [terminate]

@[simp] theorem terminate_append (lines more : List (List Char)) :
    terminate (lines ++ more) = terminate lines ++ terminate more :=
  List.flatMap_append

/-- A line feed ends a piece, whatever pieces come before it. -/
theorem pieces_append_cons_lineFeed (cs rest : List Char) :
    pieces (cs ++ '\n' :: rest) = pieces cs ++ pieces rest := by
  induction cs with
  | nil =>
    show pieces ('\n' :: rest) = [] :: pieces rest
    rw [pieces, if_pos rfl]
  | cons c cs ih =>
    rw [List.cons_append, pieces, ih, pieces]
    split
    · rfl
    · cases hp : pieces cs with
      | nil => exact absurd hp (pieces_ne_nil cs)
      | cons first more => rfl

theorem length_pieces (cs : List Char) : (pieces cs).length = cs.count '\n' + 1 := by
  induction cs with
  | nil => rfl
  | cons c cs ih =>
    rw [pieces]
    split
    · rename_i h
      rw [List.length_cons, ih, h, List.count_cons_self]
    · rename_i h
      rw [List.count_cons_of_ne h, ← ih]
      cases hp : pieces cs with
      | nil => exact absurd hp (pieces_ne_nil cs)
      | cons first more => rfl

/-- A text without line feeds is one piece. -/
theorem pieces_of_not_mem {cs : List Char} (h : '\n' ∉ cs) : pieces cs = [cs] := by
  induction cs with
  | nil => rfl
  | cons c cs ih =>
    rw [List.mem_cons, not_or] at h
    rw [pieces, if_neg (Ne.symm h.1), ih h.2]

/-- A line feed ends the first piece. -/
theorem pieces_append_lineFeed {line : List Char} (h : '\n' ∉ line) (rest : List Char) :
    pieces (line ++ '\n' :: rest) = line :: pieces rest := by
  rw [pieces_append_cons_lineFeed, pieces_of_not_mem h, List.singleton_append]

theorem pieces_terminate {lines : List (List Char)} (h : ∀ line ∈ lines, '\n' ∉ line) :
    pieces (terminate lines) = lines ++ [[]] := by
  induction lines with
  | nil => rfl
  | cons line rest ih =>
    rw [List.forall_mem_cons] at h
    rw [terminate_cons, pieces_append_lineFeed h.1, ih h.2, List.cons_append]

/-- Lines that are all ended are joined, with one more line feed at the end. -/
theorem terminate_eq_joinLines {lines : List (List Char)} (hne : lines ≠ []) :
    terminate lines = joinLines lines ++ ['\n'] := by
  induction lines with
  | nil => exact absurd rfl hne
  | cons line rest ih =>
    cases rest with
    | nil => rw [terminate_cons, terminate_nil, joinLines]
    | cons next rest =>
      have hjoin : joinLines (line :: next :: rest) = line ++ '\n' :: joinLines (next :: rest) := rfl
      rw [terminate_cons, ih (List.cons_ne_nil next rest), hjoin, List.append_assoc,
        List.cons_append]

/-- Lines that are ended and put together are found again. -/
theorem rawLines_terminate {lines : List (List Char)} (h : ∀ line ∈ lines, '\n' ∉ line) :
    rawLines (terminate lines) = lines := by
  rw [rawLines, pieces_terminate h, if_pos List.getLast?_concat, List.dropLast_concat]

/-- A text without line feeds is one line, if it is not empty. -/
theorem rawLines_of_not_mem {cs : List Char} (h : '\n' ∉ cs) (hne : cs ≠ []) :
    rawLines cs = [cs] := by
  rw [rawLines, pieces_of_not_mem h, if_neg (by simpa using hne)]

theorem pieces_joinLines {lines : List (List Char)} (h : ∀ line ∈ lines, '\n' ∉ line)
    (hne : lines ≠ []) : pieces (joinLines lines) = lines := by
  induction lines with
  | nil => exact absurd rfl hne
  | cons line rest ih =>
    rw [List.forall_mem_cons] at h
    cases rest with
    | nil => exact pieces_of_not_mem h.1
    | cons next rest =>
      rw [joinLines, pieces_append_lineFeed h.1, ih h.2 (List.cons_ne_nil _ _)]
      exact List.cons_ne_nil _ _

/-- Lines between which line feeds are put are found again, if none of them is empty. -/
theorem rawLines_joinLines {lines : List (List Char)} (h : ∀ line ∈ lines, '\n' ∉ line)
    (hne : ∀ line ∈ lines, line ≠ []) : rawLines (joinLines lines) = lines := by
  by_cases hnil : lines = []
  · rw [hnil]
    rfl
  · rw [rawLines, pieces_joinLines h hnil, if_neg]
    exact fun hlast => hne [] (List.mem_of_getLast? hlast) rfl

/-- No piece of a text holds a line feed. -/
theorem lineFeed_not_mem_pieces {cs piece : List Char} (h : piece ∈ pieces cs) : '\n' ∉ piece := by
  induction cs generalizing piece with
  | nil =>
    obtain rfl : piece = [] := by simpa [pieces] using h
    exact List.not_mem_nil
  | cons c cs ih =>
    rw [pieces] at h
    split at h
    · rcases List.mem_cons.mp h with rfl | h
      · exact List.not_mem_nil
      · exact ih h
    · rename_i hc
      cases hp : pieces cs with
      | nil => exact absurd hp (pieces_ne_nil cs)
      | cons first rest =>
        rw [hp] at h ih
        rcases List.mem_cons.mp h with rfl | h
        · have hfirst := ih List.mem_cons_self
          simpa [List.mem_cons, not_or] using ⟨Ne.symm hc, hfirst⟩
        · exact ih (List.mem_cons_of_mem first h)

/-- A carriage return is all that a line leaves out of its raw form. -/
theorem exists_dropReturn_append (raw : List Char) :
    ∃ ending, dropReturn raw ++ ending = raw ∧ (ending = [] ∨ ending = ['\r']) := by
  rw [dropReturn]
  split
  · rename_i hlast
    obtain ⟨line, rfl⟩ := List.getLast?_eq_some_iff.mp hlast
    exact ⟨['\r'], by rw [List.dropLast_concat], Or.inr rfl⟩
  · exact ⟨[], List.append_nil raw, Or.inl rfl⟩

theorem dropReturn_isPrefix (raw : List Char) : dropReturn raw <+: raw := by
  obtain ⟨ending, hending, -⟩ := exists_dropReturn_append raw
  exact ⟨ending, hending⟩

/-- No line of a text holds a line feed. -/
theorem lineFeed_not_mem_bareLines {cs line : List Char} (h : line ∈ bareLines cs) :
    '\n' ∉ line := by
  rw [bareLines, List.mem_map] at h
  obtain ⟨raw, hraw, rfl⟩ := h
  have hpiece : raw ∈ pieces cs := by
    rw [rawLines] at hraw
    split at hraw
    · exact List.dropLast_subset _ hraw
    · exact hraw
  exact fun hmem => lineFeed_not_mem_pieces hpiece ((dropReturn_isPrefix raw).subset hmem)

theorem lineFeed_not_mem_textLines {cs line : List Char} (h : line ∈ textLines cs) :
    '\n' ∉ line := by
  rcases List.mem_append.mp h with hline | hline
  · obtain ⟨raw, hraw, rfl⟩ := List.mem_map.mp hline
    intro hmem
    exact lineFeed_not_mem_pieces (List.dropLast_subset _ hraw) ((dropReturn_isPrefix raw).subset hmem)
  · split at hline
    · cases hline
    · rw [List.mem_singleton] at hline
      subst hline
      cases hlast : (pieces cs).getLast? with
      | none => exact List.not_mem_nil
      | some last => exact lineFeed_not_mem_pieces (List.mem_of_getLast? hlast)

/-- A line that does not end in a carriage return is left alone. -/
theorem dropReturn_eq_self {line : List Char} (h : line.getLast? ≠ some '\r') :
    dropReturn line = line :=
  if_neg h

/-- The lines of a text are the raw ones, if none of these ends in a carriage return. -/
theorem bareLines_eq_of_rawLines {cs : List Char} {lines : List (List Char)}
    (hraw : rawLines cs = lines) (h : ∀ line ∈ lines, line.getLast? ≠ some '\r') :
    bareLines cs = lines := by
  rw [bareLines, hraw]
  exact (List.map_congr_left fun line hline => dropReturn_eq_self (h line hline)).trans
    (List.map_id lines)

/-- The characters of a piece are characters of the text. -/
theorem subset_of_mem_pieces {cs piece : List Char} (h : piece ∈ pieces cs) : piece ⊆ cs := by
  induction cs generalizing piece with
  | nil =>
    obtain rfl : piece = [] := by simpa [pieces] using h
    exact List.Subset.refl []
  | cons c cs ih =>
    rw [pieces] at h
    split at h
    · rcases List.mem_cons.mp h with rfl | h
      · exact List.nil_subset _
      · exact List.subset_cons_of_subset c (ih h)
    · cases hp : pieces cs with
      | nil => exact absurd hp (pieces_ne_nil cs)
      | cons first rest =>
        rw [hp] at h ih
        rcases List.mem_cons.mp h with rfl | h
        · exact List.cons_subset_cons c (ih List.mem_cons_self)
        · exact List.subset_cons_of_subset c (ih (List.mem_cons_of_mem first h))

theorem subset_of_mem_rawLines {cs line : List Char} (h : line ∈ rawLines cs) : line ⊆ cs := by
  rw [rawLines] at h
  split at h
  · exact subset_of_mem_pieces (List.dropLast_subset _ h)
  · exact subset_of_mem_pieces h

end TreeSketch.Text
