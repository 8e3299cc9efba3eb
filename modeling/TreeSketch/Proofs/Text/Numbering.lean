import TreeSketch.Proofs.Text.Lines
import TreeSketch.Proofs.Text.Position

/-!
# Lines by number

`lines` lists the lines of a text, each with its number and the offset where it starts. Both are counted up from
line to line; `standsIn_of_mem_lines` says that they are what one counts in the text: the number of line feeds
before the line, and the bytes before it.
-/

namespace TreeSketch.Text

/-- A line of a text, without the carriage return at its end. -/
structure Line where
  /-- The number of the line, from one. -/
  number : Nat
  /-- The offset where the line starts. -/
  start : Nat
  content : List Char
deriving Repr, DecidableEq

namespace Line

/-- The offset where the content ends. -/
def stop (line : Line) : Nat :=
  line.start + byteSize line.content

/-- The line is in the text where it says. It starts at the start of the text or behind a line feed, and goes on
to the end of the text or the next line feed, or to a carriage return before these. -/
def StandsIn (text : List Char) (line : Line) : Prop :=
  ∃ before ending after : List Char, text = before ++ (line.content ++ (ending ++ after)) ∧
    line.number = before.count '\n' + 1 ∧ line.start = byteSize before ∧
    (before = [] ∨ before.getLast? = some '\n') ∧ '\n' ∉ line.content ∧
    (ending = [] ∨ ending = ['\r']) ∧ (after = [] ∨ after.head? = some '\n')

end Line

/-- The lines of which the first has this number and starts at this offset. -/
def linesFrom (number start : Nat) : List (List Char) → List Line
  | [] => []
  | raw :: rest => ⟨number, start, dropReturn raw⟩ :: linesFrom (number + 1) (start + byteSize raw + 1) rest

/-- The lines of a text in order. -/
def lines (text : List Char) : List Line :=
  linesFrom 1 0 (rawLines text)

theorem map_content_linesFrom (number start : Nat) (raws : List (List Char)) :
    (linesFrom number start raws).map (·.content) = raws.map dropReturn := by
  induction raws generalizing number start with
  | nil => rfl
  | cons raw rest ih => rw [linesFrom, List.map_cons, List.map_cons, ih]

theorem map_content_lines (text : List Char) : (lines text).map (·.content) = bareLines text :=
  map_content_linesFrom 1 0 (rawLines text)

theorem linesFrom_append (number start : Nat) (raws more : List (List Char)) :
    ∃ next offset, linesFrom number start (raws ++ more) =
      linesFrom number start raws ++ linesFrom next offset more := by
  induction raws generalizing number start with
  | nil => exact ⟨number, start, rfl⟩
  | cons raw rest ih =>
    obtain ⟨next, offset, heq⟩ := ih (number + 1) (start + byteSize raw + 1)
    exact ⟨next, offset, by rw [List.cons_append, linesFrom, linesFrom, heq, List.cons_append]⟩

theorem stop_le_of_dropReturn (number start : Nat) (raw : List Char) :
    Line.stop ⟨number, start, dropReturn raw⟩ ≤ start + byteSize raw := by
  obtain ⟨ending, hending, -⟩ := exists_dropReturn_append raw
  have hsize := congrArg byteSize hending
  rw [byteSize_append] at hsize
  show start + byteSize (dropReturn raw) ≤ start + byteSize raw
  omega

theorem le_start_of_mem_linesFrom {number start : Nat} {raws : List (List Char)} {line : Line}
    (h : line ∈ linesFrom number start raws) : start ≤ line.start := by
  induction raws generalizing number start with
  | nil => cases h
  | cons raw rest ih =>
    rcases List.mem_cons.mp h with rfl | h
    · exact Nat.le_refl start
    · have hrest := ih h
      omega

/-- Each line ends before the next one starts. -/
theorem pairwise_linesFrom (number start : Nat) (raws : List (List Char)) :
    (linesFrom number start raws).Pairwise fun line next => line.stop ≤ next.start := by
  induction raws generalizing number start with
  | nil => exact List.Pairwise.nil
  | cons raw rest ih =>
    refine List.pairwise_cons.mpr ⟨fun next hnext => ?_, ih _ _⟩
    have hstop := stop_le_of_dropReturn number start raw
    have hstart := le_start_of_mem_linesFrom hnext
    omega

/-- The lines that are put behind a text which ends in a line feed stand where they are counted up to. -/
theorem standsIn_of_mem_linesFrom {before : List Char} {raws : List (List Char)} {line : Line}
    (hbefore : before = [] ∨ before.getLast? = some '\n') (hraws : ∀ raw ∈ raws, '\n' ∉ raw)
    (h : line ∈ linesFrom (before.count '\n' + 1) (byteSize before) raws) :
    line.StandsIn (before ++ joinLines raws) := by
  induction raws generalizing before with
  | nil => cases h
  | cons raw rest ih =>
    obtain ⟨hraw, hrest⟩ := List.forall_mem_cons.mp hraws
    -- Behind the line there is nothing, or a line feed and the other lines.
    obtain ⟨after, hjoin, hafter⟩ : ∃ after, joinLines (raw :: rest) = raw ++ after ∧
        (after = [] ∨ after.head? = some '\n') := by
      cases rest with
      | nil => exact ⟨[], (List.append_nil raw).symm, Or.inl rfl⟩
      | cons next rest => exact ⟨_, rfl, Or.inr rfl⟩
    rcases List.mem_cons.mp h with rfl | h
    · obtain ⟨ending, hending, hkind⟩ := exists_dropReturn_append raw
      refine ⟨before, ending, after, ?_, rfl, rfl, hbefore, ?_, hkind, hafter⟩
      · rw [hjoin, ← List.append_assoc (dropReturn raw), hending]
      · rw [← hending, List.mem_append, not_or] at hraw
        exact hraw.1
    · cases rest with
      | nil => cases h
      | cons next rest =>
        have hcount : (before ++ raw ++ ['\n']).count '\n' = before.count '\n' + 1 := by
          rw [List.count_append, List.count_append, List.count_eq_zero.mpr hraw]
          rfl
        have hsize : byteSize (before ++ raw ++ ['\n']) = byteSize before + byteSize raw + 1 := by
          rw [byteSize_append, byteSize_append]
          rfl
        have hline : line ∈ linesFrom ((before ++ raw ++ ['\n']).count '\n' + 1)
            (byteSize (before ++ raw ++ ['\n'])) (next :: rest) := by
          rw [hcount, hsize]
          exact h
        have hstands := ih (Or.inr List.getLast?_concat) hrest hline
        have htext : before ++ raw ++ ['\n'] ++ joinLines (next :: rest) =
            before ++ joinLines (raw :: next :: rest) := by
          rw [List.append_assoc, List.append_assoc]
          rfl
        rwa [htext] at hstands

/-- The numbers and offsets of the lines of a text are counted in the text. -/
theorem standsIn_of_mem_lines {text : List Char} {line : Line} (h : line ∈ lines text) :
    line.StandsIn text := by
  have hpieces : line ∈ linesFrom 1 0 (pieces text) := by
    rw [lines, rawLines] at h
    split at h
    · rename_i hlast
      obtain ⟨next, offset, heq⟩ := linesFrom_append 1 0 (pieces text).dropLast [[]]
      rw [List.dropLast_append_getLast? _ hlast] at heq
      rw [heq]
      exact List.mem_append_left _ h
    · exact h
  have hstands : line.StandsIn ([] ++ joinLines (pieces text)) :=
    standsIn_of_mem_linesFrom (Or.inl rfl) (fun piece hpiece => lineFeed_not_mem_pieces hpiece)
      hpieces
  rwa [List.nil_append, joinLines_pieces] at hstands

/-- Each line of a text ends before the next one starts. -/
theorem pairwise_lines (text : List Char) :
    (lines text).Pairwise fun line next => line.stop ≤ next.start :=
  pairwise_linesFrom 1 0 (rawLines text)

namespace Line.StandsIn

variable {text : List Char} {line : Line}

theorem hasAt (h : line.StandsIn text) : HasAt text line.start line.content := by
  obtain ⟨before, ending, after, htext, -, hstart, -⟩ := h
  exact ⟨before, ending ++ after, by rw [htext, List.append_assoc], hstart.symm⟩

end Line.StandsIn

end TreeSketch.Text
