import TreeSketch.Proofs.Diagram.Comments

/-!
# Number signs behind a connector

A connector with nothing behind it holds no entry. A blank, a number sign and more text behind it are what would
follow the connector of an entry: a comment, if a blank or the end follows the number signs, and a name otherwise. So
the trees stay the same exactly in the first case (`parseAll_append_number_iff`). In the second there is one more
entry, so a line without an entry may get one from what is put behind it (`not_forall_parseAll_append_number`).
-/

namespace TreeSketch.Diagram

/-! ## Comments -/

/-- A number sign and a text are a comment if the text goes on with number signs up to a blank or to the end. -/
theorem Row.isComment_iff {text : List Char} :
    isComment ('#' :: text) = true ↔
      ∃ signs rest, text = List.replicate signs '#' ++ rest ∧
        ∀ c ∈ rest.head?, Text.isBlank c = true := by
  constructor
  · intro h
    have hsigns : text.takeWhile (· = '#') =
        List.replicate (text.takeWhile (· = '#')).length '#' :=
      List.eq_replicate_of_mem fun c hc => by simpa using List.mem_takeWhile_imp hc
    have hsplit : text.takeWhile (· = '#') ++ text.dropWhile (· = '#') = text :=
      List.takeWhile_append_dropWhile
    rw [hsigns] at hsplit
    refine ⟨_, _, hsplit.symm, fun c hc => ?_⟩
    rw [isComment] at h
    cases hdrop : text.dropWhile (· = '#') with
    | nil =>
      rw [hdrop] at hc
      cases hc
    | cons d rest =>
      rw [hdrop] at h hc
      obtain rfl : d = c := by simpa using hc
      exact h
  · rintro ⟨signs, rest, rfl, hrest⟩
    exact isComment_of_signs signs hrest

/-- A text with a number sign at its start holds a name, if it is no comment. -/
theorem Row.name_number_eq_nil_iff {text : List Char} :
    Text.dropEndWhile (· = '/') (content ('#' :: text)) = [] ↔ isComment ('#' :: text) = true := by
  constructor
  · intro hname
    by_contra hcomment
    have hcut : '#' ∈ cutComment ('#' :: text) := by
      have hsolid : Text.isBlank '#' = false := rfl
      rw [cutComment, hsolid, Bool.false_and, if_neg Bool.false_ne_true]
      exact List.mem_cons_self
    have hmem : '#' ∈ Text.dropEndWhile (· = '/') (content ('#' :: text)) := by
      rw [content, if_neg hcomment]
      exact Text.mem_dropEndWhile (Text.mem_dropEndWhile hcut rfl) (by decide)
    rw [hname] at hmem
    cases hmem
  · intro h
    rw [content, if_pos h]
    rfl

/-! ## Connectors with nothing behind them -/

/-- The line holds columns and a connector, with padding or without, and nothing else. -/
def IsBareConnector (line : List Char) : Prop :=
  ∃ (columns : List Char) (corner stroke : Char) (strokes : Nat) (padding : List Char),
    (∀ c ∈ columns, isColumn c = true) ∧ isCorner corner = true ∧ isStroke stroke = true ∧
      (∀ c ∈ padding, isPadding c = true) ∧
      line = columns ++ corner :: stroke :: (List.replicate strokes stroke ++ padding)

namespace IsBareConnector

variable {line : List Char}

theorem restOf_eq (h : IsBareConnector line) : Margin.restOf line = [] := by
  obtain ⟨columns, corner, stroke, strokes, padding, hcolumns, hcorner, hstroke, hpadding, rfl⟩ := h
  have hsplit := Margin.splitConnector?_of_columns hcolumns hcorner hstroke strokes hpadding
    (Or.inr rfl) Margin.flush_nil
  rw [List.append_nil] at hsplit
  rw [Margin.restOf, hsplit]

/-- A blank behind the connector is padding. -/
theorem restOf_append_number (h : IsBareConnector line) (text : List Char) :
    Margin.restOf (line ++ ' ' :: '#' :: text) = '#' :: text := by
  obtain ⟨columns, corner, stroke, strokes, padding, hcolumns, hcorner, hstroke, hpadding, rfl⟩ := h
  have hpadded : ∀ c ∈ padding ++ [' '], isPadding c = true :=
    List.forall_mem_append.mpr ⟨hpadding, List.forall_mem_singleton.mpr rfl⟩
  have hflush : Margin.Flush ('#' :: text) := by
    rintro _ ⟨⟩
    rfl
  have hsplit := Margin.splitConnector?_of_columns hcolumns hcorner hstroke strokes hpadded
    (Or.inl (by simp)) hflush
  have hline : columns ++ corner :: stroke :: (List.replicate strokes stroke ++ padding) ++
      ' ' :: '#' :: text = columns ++ corner :: stroke :: (List.replicate strokes stroke ++
        (padding ++ [' '] ++ '#' :: text)) := by
    simp
  rw [hline, Margin.restOf, hsplit]

/-- A connector with nothing behind it tells nothing. -/
theorem tells_ofLine (h : IsBareConnector line) : (Row.ofLine line).tells = false := by
  have hrest := h.restOf_eq
  obtain ⟨columns, corner, stroke, strokes, padding, -, -, hstroke, -, rfl⟩ := h
  have hsolid : Row.isReportChar stroke = false ∧ isColumn stroke = false := by
    simp only [isStroke, Bool.or_eq_true, decide_eq_true_eq] at hstroke
    rcases hstroke with rfl | rfl <;> decide
  rw [Row.ofLine_of_mem (c := stroke) (by simp) hsolid.1 hsolid.2, hrest]
  rfl

/-- Behind the connector, a number sign and a text hold an entry if they are no comment. -/
theorem ofLine_append_number (h : IsBareConnector line) (text : List Char) :
    (Row.ofLine (line ++ ' ' :: '#' :: text)).hasName = !Row.isComment ('#' :: text) ∧
      (Row.ofLine (line ++ ' ' :: '#' :: text)).tells = !Row.isComment ('#' :: text) := by
  rw [Row.ofLine_of_mem (c := '#') (by simp) (by decide) (by decide), h.restOf_append_number]
  cases hcomment : Row.isComment ('#' :: text) with
  | true => simp [Row.hasName, Row.tells, Row.name_number_eq_nil_iff.mpr hcomment]
  | false =>
    have hname := mt Row.name_number_eq_nil_iff.mp (Bool.eq_false_iff.mp hcomment)
    simp [Row.hasName, Row.tells, hname]

end IsBareConnector

/-! ## Trees -/

/-- The trees of a diagram have as many entries as it has rows with one. -/
theorem countP_hasName_of_parseAll {source : String} {trees : List Node}
    (h : parseAll source = .ok trees) :
    (rows source.toList).countP Row.hasName = (trees.flatMap Node.walk).length := by
  obtain ⟨blocks, forests, hblocks, hforests, rfl⟩ := exists_blocks_of_parseAll h
  rw [List.countP_eq_length_filter, ← (forall₂_readBlocks hblocks).length_eq]
  exact (Block.forall₂_forests hforests).length_eq

/-- A blank, a number sign and a text behind a connector with nothing else behind it leave the trees as they are exactly
if they are a comment: if the text goes on with number signs, if any, up to a blank or to the end. -/
theorem parseAll_append_number_iff {source other : String} {trees : List Node}
    {before after : List (List Char)} {line text : List Char}
    (hsource : Text.bareLines source.toList = before ++ line :: after)
    (hother : Text.bareLines other.toList = before ++ (line ++ ' ' :: '#' :: text) :: after)
    (hline : IsBareConnector line) (h : parseAll source = .ok trees) :
    parseAll other = .ok trees ↔
      ∃ signs rest, text = List.replicate signs '#' ++ rest ∧
        ∀ c ∈ rest.head?, Text.isBlank c = true := by
  obtain ⟨hname, htells⟩ := hline.ofLine_append_number text
  rw [← Row.isComment_iff]
  constructor
  · -- An entry more would be an entry more in the trees.
    intro hparse
    by_contra hcomment
    rw [Bool.not_eq_true] at hcomment
    have hlone : (Row.ofLine line).hasName = false := Row.hasName_eq_false hline.tells_ofLine
    have hcount := (countP_hasName_of_parseAll h).trans (countP_hasName_of_parseAll hparse).symm
    rw [rows, rows, hsource, hother, List.map_append, List.map_append, List.map_cons, List.map_cons,
      List.countP_append, List.countP_append, List.countP_cons, List.countP_cons, hname, hlone,
      hcomment] at hcount
    simp only [Bool.not_false, Bool.false_eq_true, if_true, if_false] at hcount
    omega
  · intro hcomment
    refine parseAll_of_tells ?_ h
    rw [rows, rows, hsource, hother, List.map_append, List.map_append, List.map_cons, List.map_cons,
      List.filter_append, List.filter_append, List.filter_cons, List.filter_cons, hline.tells_ofLine,
      htells, hcomment]
    rfl

/-- Behind a connector, a note leaves the trees as they are, and a name that starts with a number sign does not. -/
theorem parseAll_append_number_iff_two :
    let line := "├──".toList
    IsBareConnector line ∧
      Text.bareLines "a\n├──\n".toList = ["a".toList] ++ line :: [] ∧
      Text.bareLines "a\n├── # b\n".toList = ["a".toList] ++ (line ++ ' ' :: '#' :: [' ', 'b']) :: [] ∧
      Text.bareLines "a\n├── #b\n".toList = ["a".toList] ++ (line ++ ' ' :: '#' :: ['b']) :: [] ∧
      parseAll "a\n├──\n" = .ok [.file "a"] ∧ parseAll "a\n├── # b\n" = .ok [.file "a"] ∧
      parseAll "a\n├── #b\n" ≠ .ok [.file "a"] := by
  intro line
  have hline : IsBareConnector line :=
    ⟨[], '├', '─', 1, [], List.forall_mem_nil _, rfl, rfl, List.forall_mem_nil _, by decide⟩
  have hsource : Text.bareLines "a\n├──\n".toList = ["a".toList] ++ line :: [] := by
    decide +kernel
  have hnote : Text.bareLines "a\n├── # b\n".toList =
      ["a".toList] ++ (line ++ ' ' :: '#' :: [' ', 'b']) :: [] := by
    decide +kernel
  have hname : Text.bareLines "a\n├── #b\n".toList =
      ["a".toList] ++ (line ++ ' ' :: '#' :: ['b']) :: [] := by
    decide +kernel
  have hparse : parseAll "a\n├──\n" = .ok [.file "a"] := by decide +kernel
  refine ⟨hline, hsource, hnote, hname, hparse, ?_, ?_⟩
  · apply (parseAll_append_number_iff hsource hnote hline hparse).mpr
    exact Row.isComment_iff.mp (by decide)
  · apply mt (parseAll_append_number_iff hsource hname hline hparse).mp
    rw [← Row.isComment_iff]
    decide

/-- A blank, a number sign and a text can make an entry of a line that holds none: behind a connector they may be a
name. -/
theorem not_forall_parseAll_append_number :
    (¬ ∀ (source other : String) (trees : List Node) (before after : List (List Char))
        (line text : List Char), (IsDecoration line ∨ IsBareConnector line) → '\n' ∉ text →
        Text.bareLines source.toList = before ++ line :: after →
        Text.bareLines other.toList = before ++ (line ++ ' ' :: '#' :: text) :: after →
        parseAll source = .ok trees → parseAll other = .ok trees) ∧
      parseAll "a\n├──\n" = .ok [.file "a"] ∧
      parseAll "a\n├── #note\n" = .ok [.directory "a" [.file "#note"]] := by
  have hline : IsBareConnector "├──".toList :=
    ⟨[], '├', '─', 1, [], List.forall_mem_nil _, rfl, rfl, List.forall_mem_nil _, by decide⟩
  have hsource : Text.bareLines "a\n├──\n".toList = ["a".toList] ++ "├──".toList :: [] := by
    decide +kernel
  have hother : Text.bareLines "a\n├── #note\n".toList =
      ["a".toList] ++ ("├──".toList ++ ' ' :: '#' :: "note".toList) :: [] := by
    decide +kernel
  have hparse : parseAll "a\n├──\n" = .ok [.file "a"] := by decide +kernel
  have hentry : parseAll "a\n├── #note\n" = .ok [.directory "a" [.file "#note"]] := by
    decide +kernel
  refine ⟨fun hall => ?_, hparse, hentry⟩
  have hsame := hall _ _ _ _ _ _ _ (Or.inr hline) (by decide) hsource hother hparse
  rw [hentry] at hsame
  cases hsame

end TreeSketch.Diagram
