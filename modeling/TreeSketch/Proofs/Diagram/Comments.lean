import TreeSketch.Proofs.Diagram.Isolation

/-!
# Comments and decorations

Lines that only carry a comment or a decoration, and comments at the ends of lines, make no difference to the trees of
a diagram (`parseAll_of_dressed`). Two facts carry this:

* the trees depend on the rows with an entry and on those that separate blocks, in their order, and on nothing else
  (`parseAll_of_telling`). A row without an entry only changes the numbers of the lines below it;
* a comment behind an entry leaves its row as it is (`Row.ofLine_append_comment`), since it is cut off before the name
  is read, and nothing in front of it is read in another way because of it.

A line that holds only a bullet is the exception: the blank before a comment makes a margin of it.
-/

namespace TreeSketch.Diagram

/-! ## Rows that tell nothing -/

/-- The row holds an entry or separates blocks. -/
def Row.tells : Row → Bool
  | .blank => true
  | .entry _ name _ => name ≠ []

theorem Row.hasName_eq_false {row : Row} (h : row.tells = false) : row.hasName = false := by
  cases row with
  | blank => rfl
  | entry margin name slashes => exact h

/-- The entry without the number of its line. -/
def Entry.unnumbered : Entry → Entry :=
  Entry.renumber fun _ => 0

/-- Up to the numbers of lines, the blocks of rows are those of the rows that tell something. -/
theorem unnumbered_splitBlocks (rows : List Row) (line other : Nat) :
    (splitBlocks line rows).1.map Entry.unnumbered =
        (splitBlocks other (rows.filter Row.tells)).1.map Entry.unnumbered ∧
      (splitBlocks line rows).2.map (List.map Entry.unnumbered) =
        (splitBlocks other (rows.filter Row.tells)).2.map (List.map Entry.unnumbered) := by
  induction rows generalizing line other with
  | nil => exact ⟨rfl, rfl⟩
  | cons row rows ih =>
    cases row with
    | blank =>
      obtain ⟨hblock, hblocks⟩ := ih (line + 1) (other + 1)
      rw [List.filter_cons_of_pos rfl, splitBlocks_blank, splitBlocks_blank]
      refine ⟨rfl, ?_⟩
      rw [map_consBlock, map_consBlock, hblock, hblocks]
    | entry margin name slashes =>
      by_cases hname : name = []
      · rw [List.filter_cons_of_neg (by simp [Row.tells, hname]), splitBlocks_nameless hname]
        exact ih (line + 1) other
      · obtain ⟨hblock, hblocks⟩ := ih (line + 1) (other + 1)
        rw [List.filter_cons_of_pos (by simp [Row.tells, hname]), splitBlocks_named hname,
          splitBlocks_named hname, List.map_cons, List.map_cons, hblock]
        exact ⟨rfl, hblocks⟩

/-- Rows that tell the same make blocks that differ only in the numbers of their lines. -/
theorem unnumbered_blocksOf {rows others : List Row}
    (h : rows.filter Row.tells = others.filter Row.tells) :
    (blocksOf rows).map (List.map Entry.unnumbered) =
      (blocksOf others).map (List.map Entry.unnumbered) := by
  obtain ⟨hblock, hblocks⟩ := unnumbered_splitBlocks rows 1 1
  obtain ⟨hother, hothers⟩ := unnumbered_splitBlocks others 1 1
  show (consBlock _ _).map _ = (consBlock _ _).map _
  rw [map_consBlock, map_consBlock, hblock, hblocks, hother, hothers, h]

/-- The trees of a diagram are read off the rows that tell something. -/
theorem parseAll_of_tells {source other : String} {trees : List Node}
    (hrows : (rows source.toList).filter Row.tells = (rows other.toList).filter Row.tells)
    (h : parseAll source = .ok trees) : parseAll other = .ok trees := by
  obtain ⟨hne, hforest⟩ := forest_of_parseAll h nofun
  have hblocks := unnumbered_blocksOf hrows
  rw [blocksOf_rows, blocksOf_rows] at hblocks
  have hother : sourceBlocks other.toList ≠ [] := by
    intro hnil
    rw [hnil, List.map_nil, List.map_eq_nil_iff] at hblocks
    exact hne hblocks
  -- Without the numbers of lines there is no difference left.
  have hforests : (forest (sourceBlocks other.toList)).mapError (ParseError.renumber fun _ => 0) =
      .ok trees := by
    rw [← forest_renumber]
    show forest ((sourceBlocks other.toList).map (List.map Entry.unnumbered)) = .ok trees
    rw [← hblocks]
    show forest ((sourceBlocks source.toList).map (List.map (Entry.renumber fun _ => 0))) = .ok trees
    rw [forest_renumber, hforest]
    rfl
  rw [parseAll_of_ne_nil hother]
  exact mapError_eq_ok_iff.mp hforests

/-! ## Comments behind an entry -/

/-- The line holds a bullet behind blanks, and nothing else. -/
def IsLoneBullet (line : List Char) : Prop :=
  ∃ blanks bullet, (∀ c ∈ blanks, Text.isBlank c = true) ∧ isBullet bullet = true ∧
    line = blanks ++ [bullet]

/-- A line that ends in another character than a bullet does not hold only a bullet. -/
theorem not_isLoneBullet {line : List Char} {c : Char} (hlast : line.getLast? = some c)
    (hc : isBullet c = false) : ¬ IsLoneBullet line := by
  rintro ⟨blanks, bullet, -, hbullet, rfl⟩
  rw [List.getLast?_concat, Option.some.injEq] at hlast
  rw [hlast, hc] at hbullet
  cases hbullet

namespace Margin

theorem splitConnector?_number (text : List Char) : splitConnector? ('#' :: text) = none := by
  rw [splitConnector?, afterConnector?_of_not_isCorner rfl]
  rfl

theorem splitBullet?_number {blanks : List Char} (h : ∀ c ∈ blanks, Text.isBlank c = true)
    (text : List Char) : splitBullet? (blanks ++ '#' :: text) = none := by
  rw [splitBullet?_eq_none_iff]
  intro bullet blank rest hdrop
  rw [List.dropWhile_append_of_pos h, List.dropWhile_cons_of_neg (by decide)] at hdrop
  obtain ⟨rfl, -⟩ := List.cons.inj hdrop
  rfl

/-- Where text follows the margin of a line, a comment behind it does not move the margin. -/
theorem restOf_append_comment {line : List Char} (hrest : restOf line ≠ [])
    (hlone : ¬ IsLoneBullet line) (text : List Char) :
    restOf (line ++ ' ' :: '#' :: text) = restOf line ++ ' ' :: '#' :: text := by
  have hspace : ∀ c ∈ [' '], Text.isBlank c = true := List.forall_mem_singleton.mpr rfl
  have hconnector : splitConnector? (' ' :: '#' :: text) = none := by
    have hpassed := passed_of_isBlank hspace ('#' :: text)
    rwa [splitConnector?_number, Option.map_none] at hpassed
  apply restOf_append hrest (detached_cons rfl rfl _) hconnector (splitBullet?_number hspace text)
  intro bullet hstart hbullet
  have hline : line = line.takeWhile Text.isBlank ++ [bullet] := by
    rw [← hstart, List.takeWhile_append_dropWhile]
  exact absurd ⟨_, bullet, fun c hc => List.mem_takeWhile_imp hc, hbullet, hline⟩ hlone

end Margin

namespace Row

/-- A comment behind an entry leaves its row as it is, unless the line holds only a bullet. -/
theorem ofLine_append_comment {line : List Char} (hentry : (ofLine line).hasName = true)
    (hbullet : ¬ IsLoneBullet line) (text : List Char) :
    ofLine (line ++ ' ' :: '#' :: text) = ofLine line := by
  match hrow : ofLine line with
  | .blank =>
    rw [hrow] at hentry
    cases hentry
  | .entry margin name slashes =>
    have hname : name ≠ [] := by
      rw [hrow] at hentry
      simpa [hasName] using hentry
    obtain ⟨hmargin, hdrop, hslashes, -, -⟩ := ofLine_eq_entry hrow hname
    have hcontent : content (Margin.restOf line) ≠ [] := by
      intro hnil
      rw [hnil] at hdrop
      exact hname hdrop.symm
    have hrest : Margin.restOf line ≠ [] := by
      intro hnil
      rw [hnil] at hcontent
      exact hcontent rfl
    have happend := Margin.restOf_append_comment hrest hbullet text
    -- The line and the comment behind it are the margin and what follows it.
    have hline : line ++ ' ' :: '#' :: text =
        margin ++ (Margin.restOf line ++ ' ' :: '#' :: text) := by
      rw [← List.append_assoc, hmargin, Margin.ofLine_append_restOf]
    have hahead : Margin.ofLine (line ++ ' ' :: '#' :: text) = margin := by
      rw [hline] at happend ⊢
      exact Margin.ofLine_append happend
    rw [ofLine_of_mem (c := '#') (by simp) (by decide) (by decide), hahead, happend,
      content_append_comment hcontent, hdrop, hslashes]

end Row

/-! ## Lines that tell nothing -/

/-- What can stand before a comment on a line of its own: indentation, a bullet with blanks, or columns with a
connector and padding. -/
inductive IsCommentMargin : List Char → Prop
  | blanks {blanks : List Char} (hblanks : ∀ c ∈ blanks, Text.isBlank c = true) :
    IsCommentMargin blanks
  | bullet {blanks padding : List Char} {bullet : Char}
    (hblanks : ∀ c ∈ blanks, Text.isBlank c = true) (hbullet : isBullet bullet = true)
    (hpadding : ∀ c ∈ padding, Text.isBlank c = true) (hne : padding ≠ []) :
    IsCommentMargin (blanks ++ bullet :: padding)
  | connector {columns padding : List Char} {corner stroke : Char} (strokes : Nat)
    (hcolumns : ∀ c ∈ columns, isColumn c = true) (hcorner : isCorner corner = true)
    (hstroke : isStroke stroke = true) (hpadding : ∀ c ∈ padding, isPadding c = true)
    (hne : padding ≠ []) :
    IsCommentMargin (columns ++ corner :: stroke :: (List.replicate strokes stroke ++ padding))

/-- The line holds bars and blanks only, and at least one bar. -/
structure IsDecoration (line : List Char) : Prop where
  bar : ∃ c ∈ line, c = '│' ∨ c = '|'
  columns : ∀ c ∈ line, c = '│' ∨ c = '|' ∨ Text.isBlank c = true

/-- The line is a decoration, or a comment: number signs behind a margin and before a blank or the end. -/
inductive IsIdle : List Char → Prop
  | decoration {line : List Char} (h : IsDecoration line) : IsIdle line
  | comment {margin text : List Char} (signs : Nat) (hmargin : IsCommentMargin margin)
    (htext : ∀ c ∈ text.head?, Text.isBlank c = true) :
    IsIdle (margin ++ (List.replicate (signs + 1) '#' ++ text))

/-- The margin before a comment ends where the comment begins. -/
theorem IsCommentMargin.restOf_append {margin : List Char} (h : IsCommentMargin margin)
    (text : List Char) : Margin.restOf (margin ++ '#' :: text) = '#' :: text := by
  have htrim : Text.trimStart ('#' :: text) = '#' :: text := List.dropWhile_cons_of_neg (by decide)
  cases h with
  | blanks hblanks =>
    rw [Margin.restOf, Margin.passed_of_isBlank hblanks, Margin.splitConnector?_number,
      Option.map_none, Margin.splitBullet?_number hblanks]
    show Text.trimStart _ = _
    rw [Text.trimStart, List.dropWhile_append_of_pos hblanks]
    exact htrim
  | @bullet blanks padding _ hblanks hbullet hpadding hne =>
    have hnext : ∀ c ∈ (padding ++ '#' :: text).head?, isStroke c = false := by
      intro c hc
      obtain ⟨blank, padding, rfl⟩ := List.exists_cons_of_ne_nil hne
      obtain rfl : blank = c := by simpa using hc
      exact isStroke_of_isColumn (isColumn_of_isBlank (hpadding blank List.mem_cons_self))
    rw [List.append_assoc, List.cons_append, Margin.restOf,
      Margin.splitConnector?_of_bullet hblanks hbullet hnext,
      Margin.splitBullet?_of_blanks hblanks hbullet hpadding hne htrim]
  | connector strokes hcolumns hcorner hstroke hpadding hne =>
    have hflush : Margin.Flush ('#' :: text) := by
      rintro _ ⟨⟩
      rfl
    rw [List.append_assoc, List.cons_append, List.cons_append, List.append_assoc, Margin.restOf,
      Margin.splitConnector?_of_columns hcolumns hcorner hstroke strokes hpadding (Or.inl hne) hflush]

theorem Row.isComment_of_signs (signs : Nat) {text : List Char}
    (htext : ∀ c ∈ text.head?, Text.isBlank c = true) :
    isComment (List.replicate (signs + 1) '#' ++ text) = true := by
  rw [List.replicate_succ, List.cons_append, isComment,
    List.dropWhile_append_of_pos fun c hc => decide_eq_true (List.eq_of_mem_replicate hc)]
  cases text with
  | nil => rfl
  | cons c text =>
    have hblank := htext c rfl
    have hdrop : (c :: text).dropWhile (· = '#') = c :: text := by
      refine List.dropWhile_cons_of_neg ?_
      rw [decide_eq_true_eq]
      rintro rfl
      cases hblank
    rw [hdrop]
    exact hblank

theorem IsIdle.tells_ofLine {line : List Char} (h : IsIdle line) :
    (Row.ofLine line).tells = false := by
  cases h with
  | decoration hdecoration =>
    obtain ⟨⟨bar, hmem, hbar⟩, hcolumns⟩ := hdecoration
    have hsolid : Text.isBlank bar = false ∧ Row.isReportChar bar = false := by
      rcases hbar with rfl | rfl <;> decide
    have hblank : Text.allBlank line = false :=
      List.all_eq_false.mpr ⟨bar, hmem, by simp [hsolid.1]⟩
    have hdecoration : Row.isDecoration line = true := by
      rw [Row.isDecoration, Bool.and_eq_true, List.any_eq_true, List.all_eq_true]
      refine ⟨⟨bar, hmem, by simpa using hbar⟩, fun c hc => ?_⟩
      simpa [isColumn, or_assoc] using hcolumns c hc
    rw [Row.ofLine, hblank, Row.isReport_eq_false hmem hsolid.2, hdecoration]
    rfl
  | comment signs hmargin htext =>
    have hcomment := Row.isComment_of_signs signs htext
    rw [List.replicate_succ, List.cons_append] at hcomment ⊢
    rw [Row.ofLine_of_mem (c := '#') (by simp) (by decide) (by decide), hmargin.restOf_append,
      Row.content, if_pos hcomment]
    rfl

/-! ## Dressed sources -/

/-- The other lines are the lines with decorations and comments: lines that carry nothing else put between them, and
comments put behind entries, behind a blank. -/
inductive Dressed : List (List Char) → List (List Char) → Prop
  | nil : Dressed [] []
  | keep {lines others : List (List Char)} (line : List Char) (h : Dressed lines others) :
    Dressed (line :: lines) (line :: others)
  | insert {lines others : List (List Char)} {line : List Char} (hline : IsIdle line)
    (h : Dressed lines others) : Dressed lines (line :: others)
  | append {lines others : List (List Char)} {line : List Char}
    (hentry : (Row.ofLine line).hasName = true) (hbullet : ¬ IsLoneBullet line) (text : List Char)
    (h : Dressed lines others) : Dressed (line :: lines) ((line ++ ' ' :: '#' :: text) :: others)

/-- Decorations and comments do not change what the lines tell. -/
theorem Dressed.filter_tells {lines others : List (List Char)} (h : Dressed lines others) :
    (lines.map Row.ofLine).filter Row.tells = (others.map Row.ofLine).filter Row.tells := by
  induction h with
  | nil => rfl
  | keep line _ ih => rw [List.map_cons, List.map_cons, List.filter_cons, List.filter_cons, ih]
  | insert hline _ ih =>
    rw [List.map_cons, List.filter_cons_of_neg (by simp [hline.tells_ofLine]), ih]
  | append hentry hbullet text _ ih =>
    rw [List.map_cons, List.map_cons, Row.ofLine_append_comment hentry hbullet, List.filter_cons,
      List.filter_cons, ih]

/-- Comments and decorations never change the trees of a diagram, wherever lines of them stand and whatever entries
have a comment behind them. -/
theorem parseAll_of_dressed {source other : String} {trees : List Node}
    (hdressed : Dressed (Text.bareLines source.toList) (Text.bareLines other.toList))
    (h : parseAll source = .ok trees) : parseAll other = .ok trees :=
  parseAll_of_tells hdressed.filter_tells h

/-- A diagram with a heading, a bar, a remark behind a bullet, and notes behind its entries. -/
theorem parseAll_of_dressed_two :
    let source := "a\n├── b\n"
    let other := "# tree\na # root\n│\n- ## later\n├── b #\n"
    Dressed (Text.bareLines source.toList) (Text.bareLines other.toList) ∧
      parseAll source = .ok [.directory "a" [.file "b"]] ∧
      parseAll other = .ok [.directory "a" [.file "b"]] := by
  intro source other
  have hsource : Text.bareLines source.toList = ["a".toList, "├── b".toList] := by decide +kernel
  have hother : Text.bareLines other.toList =
      [[] ++ (List.replicate 1 '#' ++ " tree".toList), "a".toList ++ ' ' :: '#' :: " root".toList,
        ['│'], ([] ++ '-' :: [' ']) ++ (List.replicate 2 '#' ++ " later".toList),
        "├── b".toList ++ ' ' :: '#' :: []] := by
    decide +kernel
  have hblank {text : List Char} (h : text.head? = some ' ') :
      ∀ c ∈ text.head?, Text.isBlank c = true := by
    rw [h]
    rintro _ ⟨⟩
    rfl
  have hheading : IsCommentMargin [] := .blanks (List.forall_mem_nil _)
  have hbar : IsDecoration ['│'] :=
    ⟨⟨'│', List.mem_cons_self, Or.inl rfl⟩, List.forall_mem_singleton.mpr (Or.inl rfl)⟩
  have hremark : IsCommentMargin ([] ++ '-' :: [' ']) :=
    .bullet (List.forall_mem_nil _) rfl (List.forall_mem_singleton.mpr rfl) (List.cons_ne_nil ' ' [])
  have hdressed : Dressed (Text.bareLines source.toList) (Text.bareLines other.toList) := by
    rw [hsource, hother]
    apply Dressed.insert (.comment 0 hheading (hblank (by decide)))
    apply Dressed.append (by decide +kernel) (not_isLoneBullet (c := 'a') (by decide) rfl)
    apply Dressed.insert (.decoration hbar)
    apply Dressed.insert (.comment 1 hremark (hblank (by decide)))
    apply Dressed.append (by decide +kernel) (not_isLoneBullet (c := 'b') (by decide) rfl)
    exact .nil
  have hparse : parseAll source = .ok [.directory "a" [.file "b"]] := by decide +kernel
  exact ⟨hdressed, hparse, parseAll_of_dressed hdressed hparse⟩

end TreeSketch.Diagram
