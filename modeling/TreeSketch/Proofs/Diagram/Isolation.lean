import TreeSketch.Proofs.Diagram.Fault
import TreeSketch.Proofs.Diagram.Renumbering
import TreeSketch.Proofs.Diagram.Sheet

/-!
# Blank lines between diagrams

An empty line between two sources keeps their diagrams apart: `parseAll` reads the trees of both, each as if it
stood alone (`parseAll_append`). A fault of the upper source stays what it is, and a fault of the lower one is
found as many lines further down as stand above it. A source without entries adds nothing.

Nothing that is read off a block crosses its border, so all that changes for the lower source is the number of
its lines. `Entry.lower` and `ParseError.lower` count them anew, and the trees do not depend on these numbers
(`forest_lower`).
-/

namespace TreeSketch

/-! ## Faults of a diagram -/

namespace ParseError

/-- The fault in a diagram that stands `count` lines further down. -/
def lower (count : Nat) : ParseError → ParseError
  | inconsistentIndent line issue => inconsistentIndent (line + count) issue
  | mixedStyles line expected found => mixedStyles (line + count) expected found
  | noEntries line => noEntries (line + count)
  | fault => fault

theorem lower_eq_renumber (count : Nat) : lower count = renumber (· + count) := by
  funext fault
  cases fault <;> rfl

/-- The diagram has no entries. -/
inductive IsAbsence : ParseError → Prop
  | emptyInput : IsAbsence emptyInput
  | noEntries (line : Nat) : IsAbsence (noEntries line)

/-- An entry does not fit into its block. -/
inductive IsMisfit : ParseError → Prop
  | inconsistentIndent (line : Nat) (issue : IndentIssue) : IsMisfit (inconsistentIndent line issue)
  | mixedStyles (line : Nat) (expected found : Diagram.Style) :
    IsMisfit (mixedStyles line expected found)

theorem IsMisfit.not_isAbsence {fault : ParseError} (h : fault.IsMisfit) : ¬ fault.IsAbsence := by
  intro habsence
  cases h <;> cases habsence

end ParseError

namespace Diagram

/-! ## Entries further down -/

/-- The entry when its line stands `count` lines further down. -/
def Entry.lower (count : Nat) (entry : Entry) : Entry :=
  { entry with line := entry.line + count }

theorem Entry.lower_eq_renumber (count : Nat) :
    Entry.lower count = Entry.renumber (· + count) := rfl

/-! ## Entries that do not fit -/

theorem Entry.Faults.isMisfit {entry : Entry} {fault : ParseError} (h : entry.Faults fault) :
    fault.IsMisfit := by
  cases h with
  | mixedStyles _ => exact .mixedStyles _ _ _
  | mixedWhitespace | aboveRoot | partialUnit _ _ | jump _ => exact .inconsistentIndent _ _

/-! ## Blocks further down -/

theorem consBlock_append (block : List Entry) (blocks more : List (List Entry)) :
    consBlock block (blocks ++ more) = consBlock block blocks ++ more := by
  unfold consBlock
  split <;> rfl

/-- The blocks of rows of which the first is line `line`. -/
def blocksFrom (line : Nat) (rows : List Row) : List (List Entry) :=
  consBlock (splitBlocks line rows).1 (splitBlocks line rows).2

/-- A blank row ends the block above it. -/
theorem splitBlocks_append_blank (rows more : List Row) (line : Nat) :
    splitBlocks line (rows ++ .blank :: more) =
      ((splitBlocks line rows).1,
        (splitBlocks line rows).2 ++ blocksFrom (line + rows.length + 1) more) := by
  induction rows generalizing line with
  | nil => rfl
  | cons row rows ih =>
    have hline : line + 1 + rows.length + 1 = line + (row :: rows).length + 1 := by
      rw [List.length_cons]
      omega
    cases row with
    | blank =>
      rw [List.cons_append, splitBlocks, ih, splitBlocks, hline]
      simp only [consBlock_append]
    | entry margin name slashes =>
      rw [List.cons_append, splitBlocks, ih, splitBlocks, hline]
      simp only []
      split <;> rfl

theorem blocksFrom_append_blank (rows more : List Row) (line : Nat) :
    blocksFrom line (rows ++ .blank :: more) =
      blocksFrom line rows ++ blocksFrom (line + rows.length + 1) more := by
  rw [blocksFrom, splitBlocks_append_blank]
  exact consBlock_append _ _ _

/-- Blank rows hold no blocks. -/
theorem blocksFrom_of_blank {rows : List Row} (h : ∀ row ∈ rows, row = .blank) (line : Nat) :
    blocksFrom line rows = [] := by
  induction rows generalizing line with
  | nil => rfl
  | cons row rows ih =>
    rw [List.forall_mem_cons] at h
    obtain ⟨rfl, h⟩ := h
    have hsplit := blocksFrom_append_blank [] rows line
    rw [List.nil_append, ih h] at hsplit
    exact hsplit

theorem map_consBlock (change : Entry → Entry) (block : List Entry) (blocks : List (List Entry)) :
    (consBlock block blocks).map (List.map change) =
      consBlock (block.map change) (blocks.map (List.map change)) := by
  cases block <;> rfl

theorem splitBlocks_lower (count : Nat) (rows : List Row) (line : Nat) :
    splitBlocks (line + count) rows =
      ((splitBlocks line rows).1.map (Entry.lower count),
        (splitBlocks line rows).2.map (List.map (Entry.lower count))) := by
  induction rows generalizing line with
  | nil => rfl
  | cons row rows ih =>
    have hnext : line + count + 1 = line + 1 + count := by omega
    cases row with
    | blank =>
      rw [splitBlocks, hnext, ih, splitBlocks]
      simp only [map_consBlock]
      rfl
    | entry margin name slashes =>
      rw [splitBlocks, hnext, ih, splitBlocks]
      simp only []
      split <;> rfl

/-- Rows further down have the same blocks further down. -/
theorem blocksFrom_lower (count : Nat) (rows : List Row) (line : Nat) :
    blocksFrom (line + count) rows =
      (blocksFrom line rows).map (List.map (Entry.lower count)) := by
  rw [blocksFrom, splitBlocks_lower]
  exact (map_consBlock _ _ _).symm

/-! ## The blocks of a source -/

/-- The blocks of a source. An empty piece after the last line feed counts as a blank line here, which makes
no block. -/
def sourceBlocks (source : List Char) : List (List Entry) :=
  blocksFrom 1 ((Text.pieces source).map Row.ofRawLine)

theorem blocksOf_rows (source : List Char) : blocksOf (rows source) = sourceBlocks source := by
  have hrows : rows source = (Text.rawLines source).map Row.ofRawLine := by
    rw [rows, Text.bareLines, List.map_map]
    rfl
  rw [hrows, Text.rawLines]
  split
  · rename_i hlast
    obtain ⟨before, hpieces⟩ := List.getLast?_eq_some_iff.mp hlast
    have hblank : Row.ofRawLine [] = .blank := rfl
    rw [sourceBlocks, hpieces, List.dropLast_concat, List.map_append, List.map_singleton, hblank,
      blocksFrom_append_blank, blocksFrom_of_blank (List.forall_mem_nil _), List.append_nil]
    rfl
  · rfl

/-- An empty line keeps the blocks of two sources apart. -/
theorem sourceBlocks_append (above below : List Char) :
    sourceBlocks (above ++ '\n' :: '\n' :: below) = sourceBlocks above ++
      (sourceBlocks below).map (List.map (Entry.lower (above.count '\n' + 2))) := by
  have hblank : Row.ofRawLine [] = .blank := rfl
  have hempty : Text.pieces ('\n' :: below) = [] :: Text.pieces below := if_pos rfl
  have hline : 1 + (above.count '\n' + 1) + 1 = 1 + (above.count '\n' + 2) := by omega
  rw [sourceBlocks, Text.pieces_append_cons_lineFeed, hempty, List.map_append, List.map_cons, hblank,
    blocksFrom_append_blank, List.length_map, Text.length_pieces, hline, blocksFrom_lower]
  rfl

/-- A final line feed makes no difference to the blocks. -/
theorem sourceBlocks_concat_lineFeed (source : List Char) :
    sourceBlocks (source ++ ['\n']) = sourceBlocks source := by
  have hblank : Row.ofRawLine [] = .blank := rfl
  have hempty : Text.pieces [] = [[]] := rfl
  rw [sourceBlocks, Text.pieces_append_cons_lineFeed, hempty, List.map_append, List.map_singleton,
    hblank, blocksFrom_append_blank, blocksFrom_of_blank (List.forall_mem_nil _), List.append_nil]
  rfl

theorem sourceBlocks_of_allBlank {source : List Char} (h : Text.allBlank source = true) :
    sourceBlocks source = [] := by
  refine blocksFrom_of_blank (fun row hrow => ?_) 1
  obtain ⟨piece, hpiece, rfl⟩ := List.mem_map.mp hrow
  have hline : Text.allBlank (Text.dropReturn piece) = true := by
    rw [Text.allBlank, List.all_eq_true] at h ⊢
    intro c hc
    exact h c (Text.subset_of_mem_pieces hpiece ((Text.dropReturn_isPrefix piece).subset hc))
  rw [Row.ofRawLine, Row.ofLine, hline, Bool.true_or, if_pos rfl]

/-! ## The trees of a source -/

/-- The trees of several blocks. -/
def forest (blocks : List (List Entry)) : Except ParseError (List Node) :=
  (blocks.mapM Block.trees).map List.flatten

theorem forest_cons (block : List Entry) (blocks : List (List Entry)) :
    forest (block :: blocks) =
      Block.trees block >>= fun trees => (forest blocks).map (trees ++ ·) := by
  rw [forest, List.mapM_cons, forest]
  cases Block.trees block with
  | error fault => rfl
  | ok trees => cases blocks.mapM Block.trees <;> rfl

theorem forest_append (blocks more : List (List Entry)) :
    forest (blocks ++ more) = forest blocks >>= fun trees => (forest more).map (trees ++ ·) := by
  induction blocks with
  | nil =>
    show forest more = (forest more).map ([] ++ ·)
    cases forest more <;> rfl
  | cons block blocks ih =>
    rw [List.cons_append, forest_cons, ih, forest_cons]
    cases Block.trees block with
    | error fault => rfl
    | ok trees =>
      cases forest blocks with
      | error fault => rfl
      | ok others =>
        cases forest more with
        | error fault => rfl
        | ok rest =>
          show Except.ok (trees ++ (others ++ rest)) = Except.ok (trees ++ others ++ rest)
          rw [List.append_assoc]

/-- Blocks with their lines numbered anew have the same trees, or the same fault by its new number. -/
theorem forest_renumber (number : Nat → Nat) (blocks : List (List Entry)) :
    forest (blocks.map (List.map (Entry.renumber number))) =
      (forest blocks).mapError (ParseError.renumber number) := by
  induction blocks with
  | nil => rfl
  | cons block blocks ih =>
    rw [List.map_cons, forest_cons, Block.trees_renumber, ih, forest_cons, mapError_bind]
    simp only [mapError_map]

theorem forest_lower (count : Nat) (blocks : List (List Entry)) :
    forest (blocks.map (List.map (Entry.lower count))) =
      (forest blocks).mapError (ParseError.lower count) := by
  rw [Entry.lower_eq_renumber, forest_renumber, ParseError.lower_eq_renumber]

theorem exists_faults_of_forest {blocks : List (List Entry)} {fault : ParseError}
    (h : forest blocks = .error fault) : ∃ entry : Entry, entry.Faults fault := by
  obtain ⟨block, -, htrees⟩ := exists_mem_of_mapM_eq_error (map_eq_error_iff.mp h)
  obtain ⟨entry, -, hfaults⟩ := Block.exists_faults_of_trees htrees
  exact ⟨entry, hfaults⟩

/-- The trees of a source with blocks are the trees of its blocks. -/
theorem parseAll_of_ne_nil {source : String} (h : sourceBlocks source.toList ≠ []) :
    parseAll source = forest (sourceBlocks source.toList) := by
  have hblank : ¬ Text.allBlank source.toList = true := fun hblank => h (sourceBlocks_of_allBlank hblank)
  have hread : readBlocks source.toList = .ok (sourceBlocks source.toList) := by
    rw [readBlocks, if_neg hblank]
    simp only [blocksOf_rows]
  rw [parseAll, hread, forest]
  show (sourceBlocks source.toList).mapM Block.trees >>= _ = _
  cases (sourceBlocks source.toList).mapM Block.trees <;> rfl

/-- A source without blocks has no trees. -/
theorem exists_isAbsence_of_eq_nil {source : String} (h : sourceBlocks source.toList = []) :
    ∃ fault, parseAll source = .error fault ∧ fault.IsAbsence := by
  have hread : ∃ fault, readBlocks source.toList = .error fault ∧ fault.IsAbsence := by
    rw [readBlocks]
    split
    · exact ⟨_, rfl, .emptyInput⟩
    · simp only [blocksOf_rows, h]
      exact ⟨_, rfl, .noEntries _⟩
  obtain ⟨fault, hread, habsence⟩ := hread
  refine ⟨fault, ?_, habsence⟩
  show readBlocks source.toList >>= _ = _
  rw [hread]
  rfl

/-- A source that is not said to have no entries has blocks, and what is read from it is read from them. -/
theorem forest_of_parseAll {source : String} {result : Except ParseError (List Node)}
    (h : parseAll source = result) (hresult : ∀ fault, result = .error fault → ¬ fault.IsAbsence) :
    sourceBlocks source.toList ≠ [] ∧ forest (sourceBlocks source.toList) = result := by
  have hne : sourceBlocks source.toList ≠ [] := by
    intro hnil
    obtain ⟨fault, hparse, habsence⟩ := exists_isAbsence_of_eq_nil hnil
    exact hresult fault (h.symm.trans hparse) habsence
  exact ⟨hne, (parseAll_of_ne_nil hne).symm.trans h⟩

/-- A source that is said to have no entries has no blocks. -/
theorem sourceBlocks_eq_nil {source : String} {fault : ParseError}
    (h : parseAll source = .error fault) (habsence : fault.IsAbsence) :
    sourceBlocks source.toList = [] := by
  by_contra hne
  rw [parseAll_of_ne_nil hne] at h
  obtain ⟨entry, hfaults⟩ := exists_faults_of_forest h
  exact hfaults.isMisfit.not_isAbsence habsence

/-- Below a source with blocks, an empty line and another source are read as two sources. -/
theorem parseAll_append_of_ne_nil {above : String} (below : String)
    (h : sourceBlocks above.toList ≠ []) :
    parseAll (above ++ "\n\n" ++ below) =
      forest (sourceBlocks above.toList) >>= fun trees =>
        ((forest (sourceBlocks below.toList)).mapError
          (ParseError.lower (above.toList.count '\n' + 2))).map (trees ++ ·) := by
  have htext : (above ++ "\n\n" ++ below).toList =
      above.toList ++ '\n' :: '\n' :: below.toList := by
    simp
  have hblocks := sourceBlocks_append above.toList below.toList
  rw [← htext] at hblocks
  have hne : sourceBlocks (above ++ "\n\n" ++ below).toList ≠ [] := by
    rw [hblocks]
    exact List.append_ne_nil_of_left_ne_nil h _
  rw [parseAll_of_ne_nil hne, hblocks, forest_append, forest_lower]

/-- An empty line keeps two sources apart.

* The trees of both are read, those of the upper one first.
* A lower source without entries adds nothing.
* A fault in the lower source is found as many lines further down as stand above it.
* A fault in the upper source is found where it is. -/
theorem parseAll_append (above below : String) :
    (∀ trees, parseAll above = .ok trees →
      (∀ more, parseAll below = .ok more →
        parseAll (above ++ "\n\n" ++ below) = .ok (trees ++ more)) ∧
      (∀ fault, parseAll below = .error fault → fault.IsAbsence →
        parseAll (above ++ "\n\n" ++ below) = .ok trees) ∧
      (∀ fault, parseAll below = .error fault → fault.IsMisfit →
        parseAll (above ++ "\n\n" ++ below) =
          .error (fault.lower (above.toList.count '\n' + 2)))) ∧
    (∀ fault, parseAll above = .error fault → fault.IsMisfit →
      parseAll (above ++ "\n\n" ++ below) = .error fault) := by
  constructor
  · intro trees habove
    obtain ⟨hne, htrees⟩ := forest_of_parseAll habove nofun
    rw [parseAll_append_of_ne_nil below hne, htrees]
    refine ⟨?_, ?_, ?_⟩
    · intro more hbelow
      rw [(forest_of_parseAll hbelow nofun).2]
      rfl
    · intro fault hbelow habsence
      rw [sourceBlocks_eq_nil hbelow habsence]
      show Except.ok (trees ++ []) = Except.ok trees
      rw [List.append_nil]
    · intro fault hbelow hmisfit
      have hforest := (forest_of_parseAll hbelow ?_).2
      · rw [hforest]
        rfl
      · rintro _ ⟨⟩
        exact hmisfit.not_isAbsence
  · intro fault habove hmisfit
    obtain ⟨hne, hfault⟩ := forest_of_parseAll habove (by
      rintro _ ⟨⟩
      exact hmisfit.not_isAbsence)
    rw [parseAll_append_of_ne_nil below hne, hfault]
    rfl

/-- A tab in the second line of the lower source is found on the fifth line. -/
theorem parseAll_append_tab :
    parseAll "a\n  b" = .ok [.directory "a" [.file "b"]] ∧
      parseAll "x\n\ty\n  z" = .error (.inconsistentIndent 3 .mixedWhitespace) ∧
      parseAll ("a\n  b" ++ "\n\n" ++ "x\n\ty\n  z") =
        .error (.inconsistentIndent 6 .mixedWhitespace) := by
  have habove : parseAll "a\n  b" = .ok [.directory "a" [.file "b"]] := by decide +kernel
  have hbelow : parseAll "x\n\ty\n  z" = .error (.inconsistentIndent 3 .mixedWhitespace) := by
    decide +kernel
  exact ⟨habove, hbelow, ((parseAll_append _ _).1 _ habove).2.2 _ hbelow (.inconsistentIndent _ _)⟩

end Diagram

end TreeSketch
