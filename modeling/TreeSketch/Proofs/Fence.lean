import TreeSketch.Fence
import TreeSketch.Proofs.Diagram.Isolation

/-!
# Diagrams in fenced documents

A document is prose with fenced passages in it. `Fence.extract` finds exactly the bodies of the passages
(`extract_document`, `extract_openDocument`), and since it puts an empty line between them, the trees of the
document are those of its bodies, one passage after the other (`parseAll_extract_document`). The prose has no
part in it, and neither does the closing of the last passage.

`Opens` says what a line looks like that opens a fence, and `ofLine?_eq_some_iff` that these are the lines which
`ofLine?` finds.
-/

namespace TreeSketch

namespace Fence

/-! ## Lines of a document -/

/-- The line starts with the fence: blanks, then a run of exactly that many marks, and then any text. -/
def Opens (fence : Fence) (line : List Char) : Prop :=
  isMark fence.character = true ∧ 3 ≤ fence.length ∧
    ∃ blanks info : List Char, (∀ c ∈ blanks, Text.isBlank c = true) ∧
      info.head? ≠ some fence.character ∧
      line = blanks ++ List.replicate fence.length fence.character ++ info

/-- The line does not start with a fence. -/
def IsQuiet (line : List Char) : Prop :=
  ∀ fence : Fence, ¬ fence.Opens line

theorem isBlank_of_isMark {c : Char} (h : isMark c = true) : Text.isBlank c = false := by
  rw [isMark, Bool.or_eq_true, decide_eq_true_eq, decide_eq_true_eq] at h
  rcases h with rfl | rfl <;> rfl

/-- Blanks are trimmed before a run of marks, and no more. -/
theorem trimStart_of_run {blanks info : List Char} {c : Char} {length : Nat} (hmark : isMark c = true)
    (hlength : 0 < length) (hblanks : ∀ b ∈ blanks, Text.isBlank b = true) :
    Text.trimStart (blanks ++ List.replicate length c ++ info) = List.replicate length c ++ info := by
  obtain ⟨more, rfl⟩ := Nat.exists_eq_add_of_le' hlength
  have hsolid : Text.isBlank c = false := isBlank_of_isMark hmark
  rw [List.append_assoc, Text.trimStart, List.dropWhile_append_of_pos hblanks,
    List.replicate_succ, List.cons_append, List.dropWhile_cons_of_neg (by simp [hsolid])]

theorem ofLine?_of_opens {fence : Fence} {line : List Char} (h : fence.Opens line) :
    ofLine? line = some fence := by
  obtain ⟨character, length⟩ := fence
  obtain ⟨hmark, hlength, blanks, info, hblanks, hinfo, rfl⟩ := h
  obtain ⟨more, rfl⟩ := Nat.exists_eq_add_of_le' (Nat.one_le_of_lt hlength)
  -- The run is all that a character equal to its first one can be taken from.
  have hrun : (List.replicate (more + 1) character ++ info).takeWhile (· = character) =
      List.replicate (more + 1) character := by
    rw [List.takeWhile_append_of_pos (by simp)]
    cases info with
    | nil => simp
    | cons c info =>
      have hc : c ≠ character := fun heq => hinfo (congrArg some heq)
      simp [hc]
  have hstart : Text.trimStart (blanks ++ List.replicate (more + 1) character ++ info) =
      List.replicate (more + 1) character ++ info :=
    trimStart_of_run hmark (Nat.succ_pos more) hblanks
  unfold ofLine?
  rw [hstart]
  rw [List.replicate_succ, List.cons_append] at hrun ⊢
  have hmark : isMark character = true := hmark
  have hlength : 3 ≤ more + 1 := hlength
  simp only [hrun, hmark, Bool.true_and, List.length_cons, List.length_replicate,
    decide_eq_true hlength, if_true]

theorem opens_of_ofLine? {fence : Fence} {line : List Char} (h : ofLine? line = some fence) :
    fence.Opens line := by
  unfold ofLine? at h
  split at h
  · cases h
  · rename_i c cs hstart
    simp only [] at h
    split at h
    · rename_i hfence
      cases h
      rw [Bool.and_eq_true, decide_eq_true_eq] at hfence
      have hsplit : line = line.takeWhile Text.isBlank ++ (c :: cs) := by
        rw [← hstart, Text.trimStart, List.takeWhile_append_dropWhile]
      have hrun : (c :: cs).takeWhile (· = c) =
          List.replicate ((c :: cs).takeWhile (· = c)).length c := by
        rw [List.eq_replicate_iff]
        refine ⟨rfl, fun d hd => ?_⟩
        simpa using List.mem_takeWhile_imp hd
      refine ⟨hfence.1, hfence.2, line.takeWhile Text.isBlank, (c :: cs).dropWhile (· = c), ?_, ?_, ?_⟩
      · intro d hd
        exact List.mem_takeWhile_imp hd
      · intro hhead
        have hnot := List.head?_dropWhile_not (fun d => decide (d = c)) (c :: cs)
        rw [hhead] at hnot
        simp at hnot
      · rw [← hrun, List.append_assoc, List.takeWhile_append_dropWhile]
        exact hsplit
    · cases h

/-- A fence is found where a line starts with one. -/
theorem ofLine?_eq_some_iff {fence : Fence} {line : List Char} :
    ofLine? line = some fence ↔ fence.Opens line :=
  ⟨opens_of_ofLine?, ofLine?_of_opens⟩

instance (fence : Fence) (line : List Char) : Decidable (fence.Opens line) :=
  decidable_of_iff (ofLine? line = some fence) ofLine?_eq_some_iff

theorem isQuiet_iff {line : List Char} : IsQuiet line ↔ ofLine? line = none := by
  rw [IsQuiet, Option.eq_none_iff_forall_not_mem]
  exact forall_congr' fun fence => not_congr ofLine?_eq_some_iff.symm

instance (line : List Char) : Decidable (IsQuiet line) :=
  decidable_of_iff (ofLine? line = none) isQuiet_iff.symm

theorem closedBy_of_isQuiet {opening : Fence} {line : List Char} (h : IsQuiet line) :
    opening.closedBy line = false := by
  rw [closedBy, isQuiet_iff.mp h]

/-- A run of the same mark closes a fence that is not longer. -/
theorem closedBy_replicate {opening : Fence} {length : Nat} (hmark : isMark opening.character = true)
    (hthree : 3 ≤ opening.length) (hlength : opening.length ≤ length) :
    opening.closedBy (List.replicate length opening.character) = true := by
  have hopens : Opens ⟨opening.character, length⟩ (List.replicate length opening.character) :=
    ⟨hmark, Nat.le_trans hthree hlength, [], [], List.forall_mem_nil _, nofun, by simp⟩
  have hmarks : (Text.trim (List.replicate length opening.character)).all isMark = true := by
    rw [List.all_eq_true]
    intro c hc
    rw [List.eq_of_mem_replicate (Text.trim_subset _ hc)]
    exact hmark
  rw [closedBy, ofLine?_of_opens hopens]
  simp only [hmarks, decide_true, decide_eq_true hlength, Bool.and_self]

/-! ## Documents -/

/-- A fenced passage of a document, with the prose behind it. -/
structure Passage where
  fence : Fence
  /-- The line that opens the fence. -/
  opening : List Char
  body : List (List Char)
  /-- How often the mark stands on the line that closes the fence. -/
  closing : Nat
  /-- The lines up to the next passage. -/
  prose : List (List Char)

namespace Passage

/-- The lines of the passage if nothing closes it. -/
def opened (passage : Passage) : List (List Char) :=
  passage.opening :: passage.body

/-- The lines of the passage, and the prose behind it. -/
def lines (passage : Passage) : List (List Char) :=
  passage.opened ++ List.replicate passage.closing passage.fence.character :: passage.prose

/-- The body as a source of its own. -/
def source (passage : Passage) : String :=
  String.ofList (Text.terminate passage.body)

/-- The passage is opened and closed by fences, and has no others. -/
structure WellFormed (passage : Passage) : Prop where
  opens : passage.fence.Opens passage.opening
  closes : passage.fence.length ≤ passage.closing
  quiet : ∀ line ∈ passage.body ++ passage.prose, IsQuiet line
  /-- A line of a document does not hold the characters that end lines. -/
  unbroken : ∀ line ∈ passage.lines, '\n' ∉ line ∧ '\r' ∉ line

end Passage

/-- A document: prose, and then passages, each with prose behind it. -/
def document (prose : List (List Char)) (passages : List Passage) : String :=
  String.ofList (Text.terminate (prose ++ passages.flatMap Passage.lines))

/-- A document that ends within its last passage. -/
def openDocument (prose : List (List Char)) (passages : List Passage) (last : Passage) : String :=
  String.ofList (Text.terminate (prose ++ (passages.flatMap Passage.lines ++ last.opened)))

/-! ## What is extracted -/

theorem blocks_prose {prose : List (List Char)} (h : ∀ line ∈ prose, IsQuiet line)
    (rest : List (List Char)) : blocks none (prose ++ rest) = blocks none rest := by
  induction prose with
  | nil => rfl
  | cons line prose ih =>
    rw [List.forall_mem_cons] at h
    rw [List.cons_append, blocks, isQuiet_iff.mp h.1]
    exact ih h.2

/-- A line that starts with a fence opens a block. -/
theorem blocks_of_opens {fence : Fence} {opening : List Char} (h : fence.Opens opening)
    (rest : List (List Char)) : blocks none (opening :: rest) = blocks (some fence) rest := by
  rw [blocks, ofLine?_of_opens h]

/-- Lines that close no fence are the start of the block that is open. -/
theorem blocks_of_not_closedBy {fence : Fence} {body : List (List Char)}
    (h : ∀ line ∈ body, fence.closedBy line = false) {rest block : List (List Char)}
    {more : List (List (List Char))} (hrest : blocks (some fence) rest = block :: more) :
    blocks (some fence) (body ++ rest) = (body ++ block) :: more := by
  induction body with
  | nil => exact hrest
  | cons line body ih =>
    rw [List.forall_mem_cons] at h
    rw [List.cons_append, blocks, h.1, ih h.2]
    rfl

/-- A block runs to the end when no line closes it. -/
theorem blocks_unclosed {fence : Fence} {body : List (List Char)}
    (h : ∀ line ∈ body, fence.closedBy line = false) : blocks (some fence) body = [body] := by
  have hnil : blocks (some fence) [] = [[]] := rfl
  have hbody := blocks_of_not_closedBy h hnil
  rwa [List.append_nil] at hbody

/-- A line that closes the fence ends the block. -/
theorem blocks_of_closedBy {fence : Fence} {body : List (List Char)} {closing : List Char}
    (h : ∀ line ∈ body, fence.closedBy line = false) (hclosed : fence.closedBy closing = true)
    (rest : List (List Char)) :
    blocks (some fence) (body ++ closing :: rest) = body :: blocks none rest := by
  have hend : blocks (some fence) (closing :: rest) = [] :: blocks none rest := by
    rw [blocks, if_pos hclosed]
  rw [blocks_of_not_closedBy h hend, List.append_nil]

namespace Passage

variable {passage : Passage}

theorem WellFormed.closedBy_body (h : passage.WellFormed) :
    ∀ line ∈ passage.body, passage.fence.closedBy line = false :=
  fun line hline => closedBy_of_isQuiet (h.quiet line (List.mem_append_left _ hline))

/-- A passage that is closed gives its body. -/
theorem WellFormed.blocks_lines (h : passage.WellFormed) (rest : List (List Char)) :
    blocks none (passage.lines ++ rest) = passage.body :: blocks none rest := by
  have hprose : ∀ line ∈ passage.prose, IsQuiet line :=
    fun line hline => h.quiet line (List.mem_append_right _ hline)
  have hclosed : passage.fence.closedBy
      (List.replicate passage.closing passage.fence.character) = true :=
    closedBy_replicate h.opens.1 h.opens.2.1 h.closes
  rw [lines, opened, List.append_assoc, List.cons_append, blocks_of_opens h.opens, List.cons_append,
    blocks_of_closedBy h.closedBy_body hclosed, blocks_prose hprose]

/-- A passage that is not closed gives its body, too. -/
theorem WellFormed.blocks_opened (h : passage.WellFormed) :
    blocks none passage.opened = [passage.body] := by
  rw [opened, blocks_of_opens h.opens, blocks_unclosed h.closedBy_body]

end Passage

theorem blocks_passages {passages : List Passage} (h : ∀ passage ∈ passages, passage.WellFormed)
    (rest : List (List Char)) :
    blocks none (passages.flatMap Passage.lines ++ rest) =
      passages.map Passage.body ++ blocks none rest := by
  induction passages with
  | nil => rfl
  | cons passage passages ih =>
    rw [List.forall_mem_cons] at h
    rw [List.flatMap_cons, List.append_assoc, h.1.blocks_lines, ih h.2]
    rfl

/-- The lines of a document are found again. -/
theorem textLines_terminate {lines : List (List Char)}
    (h : ∀ line ∈ lines, '\n' ∉ line ∧ '\r' ∉ line) :
    Text.textLines (Text.terminate lines) = lines := by
  have hkept : lines.map Text.dropReturn = lines := by
    refine (List.map_congr_left fun line hline => ?_).trans (List.map_id lines)
    exact Text.dropReturn_eq_self fun hlast => (h line hline).2 (List.mem_of_getLast? hlast)
  unfold Text.textLines
  rw [Text.pieces_terminate fun line hline => (h line hline).1]
  simp [hkept]

theorem extract_eq {lines : List (List Char)} (hlines : ∀ line ∈ lines, '\n' ∉ line ∧ '\r' ∉ line)
    {bodies : List (List (List Char))} (hbodies : blocks none lines = bodies) (hne : bodies ≠ []) :
    extract (String.ofList (Text.terminate lines)) =
      String.ofList (joinBlocks (bodies.map Text.joinLines) ++ ['\n']) := by
  unfold extract
  rw [String.toList_ofList, textLines_terminate hlines, hbodies]
  cases bodies with
  | nil => exact absurd rfl hne
  | cons body bodies => rfl

variable {prose : List (List Char)} {passages : List Passage} {last : Passage}

/-- A document gives the bodies of its passages. -/
theorem extract_document (hprose : ∀ line ∈ prose, IsQuiet line ∧ '\n' ∉ line ∧ '\r' ∉ line)
    (hpassages : ∀ passage ∈ passages, passage.WellFormed) (hne : passages ≠ []) :
    extract (document prose passages) =
      String.ofList (joinBlocks (passages.map fun passage => Text.joinLines passage.body) ++
        ['\n']) := by
  have hlines : ∀ line ∈ prose ++ passages.flatMap Passage.lines, '\n' ∉ line ∧ '\r' ∉ line := by
    intro line hline
    rcases List.mem_append.mp hline with hline | hline
    · exact (hprose line hline).2
    · obtain ⟨passage, hpassage, hline⟩ := List.mem_flatMap.mp hline
      exact (hpassages passage hpassage).unbroken line hline
  have hbodies : blocks none (prose ++ passages.flatMap Passage.lines) =
      passages.map Passage.body := by
    have hpassages := blocks_passages hpassages []
    rw [List.append_nil] at hpassages
    rw [blocks_prose fun line hline => (hprose line hline).1, hpassages]
    exact List.append_nil _
  rw [document, extract_eq hlines hbodies (by simpa using hne), List.map_map]
  rfl

/-- A document that ends within its last passage gives the body of that passage, too. -/
theorem extract_openDocument (hprose : ∀ line ∈ prose, IsQuiet line ∧ '\n' ∉ line ∧ '\r' ∉ line)
    (hpassages : ∀ passage ∈ passages, passage.WellFormed) (hlast : last.WellFormed) :
    extract (openDocument prose passages last) =
      String.ofList (joinBlocks
        ((passages ++ [last]).map fun passage => Text.joinLines passage.body) ++ ['\n']) := by
  have hlines : ∀ line ∈ prose ++ (passages.flatMap Passage.lines ++ last.opened),
      '\n' ∉ line ∧ '\r' ∉ line := by
    intro line hline
    rcases List.mem_append.mp hline with hline | hline
    · exact (hprose line hline).2
    · rcases List.mem_append.mp hline with hline | hline
      · obtain ⟨passage, hpassage, hline⟩ := List.mem_flatMap.mp hline
        exact (hpassages passage hpassage).unbroken line hline
      · exact hlast.unbroken line (List.mem_append_left _ hline)
  have hbodies : blocks none (prose ++ (passages.flatMap Passage.lines ++ last.opened)) =
      (passages ++ [last]).map Passage.body := by
    rw [blocks_prose fun line hline => (hprose line hline).1, blocks_passages hpassages,
      hlast.blocks_opened, List.map_append, List.map_singleton]
  rw [openDocument, extract_eq hlines hbodies (by simp), List.map_map]
  rfl

end Fence

/-! ## What is read -/

namespace Diagram

/-- The last line of a text ends with a line feed or with the text. -/
theorem sourceBlocks_terminate (lines : List (List Char)) :
    sourceBlocks (Text.terminate lines) = sourceBlocks (Text.joinLines lines) := by
  by_cases hne : lines = []
  · rw [hne]
    rfl
  · rw [Text.terminate_eq_joinLines hne, sourceBlocks_concat_lineFeed]

/-- Texts that are joined by empty lines have the trees of each, one text after the other. -/
theorem forest_joinBlocks {texts : List (List Char)} {forests : List (List Node)}
    (h : List.Forall₂ (fun text trees => sourceBlocks text ≠ [] ∧
      forest (sourceBlocks text) = .ok trees) texts forests) (hne : texts ≠ []) :
    sourceBlocks (Fence.joinBlocks texts) ≠ [] ∧
      forest (sourceBlocks (Fence.joinBlocks texts)) = .ok forests.flatten := by
  induction h with
  | nil => exact absurd rfl hne
  | @cons text trees texts forests htext hrest ih =>
    cases texts with
    | nil =>
      cases hrest
      rw [Fence.joinBlocks, List.flatten_singleton]
      exact htext
    | cons next texts =>
      have hrest := (ih (List.cons_ne_nil next texts)).2
      rw [Fence.joinBlocks, sourceBlocks_append]
      refine ⟨List.append_ne_nil_of_left_ne_nil htext.1 _, ?_⟩
      rw [forest_append, forest_lower, htext.2, hrest]
      rfl
      exact List.cons_ne_nil next texts

end Diagram

namespace Fence

variable {prose : List (List Char)} {passages : List Passage} {last : Passage}
  {forests : List (List Node)}

theorem parseAll_joinBlocks (hne : passages ≠ [])
    (htrees : List.Forall₂ (fun passage trees => Diagram.parseAll passage.source = .ok trees)
      passages forests) :
    Diagram.parseAll (String.ofList (joinBlocks
      (passages.map fun passage => Text.joinLines passage.body) ++ ['\n'])) = .ok forests.flatten := by
  have hbodies : List.Forall₂ (fun text trees => Diagram.sourceBlocks text ≠ [] ∧
      Diagram.forest (Diagram.sourceBlocks text) = .ok trees)
      (passages.map fun passage => Text.joinLines passage.body) forests := by
    rw [List.forall₂_map_left_iff]
    refine htrees.imp fun passage trees hparse => ?_
    have hblocks := Diagram.forest_of_parseAll hparse nofun
    rwa [Passage.source, String.toList_ofList, Diagram.sourceBlocks_terminate] at hblocks
  obtain ⟨hblocks, hforest⟩ := Diagram.forest_joinBlocks hbodies (by simpa using hne)
  rw [← Diagram.sourceBlocks_concat_lineFeed] at hblocks hforest
  rw [Diagram.parseAll_of_ne_nil] <;> rw [String.toList_ofList]
  · exact hforest
  · exact hblocks

/-- The trees of a document are the trees of its passages, one passage after the other, whatever the prose is.
The last passage need not be closed. -/
theorem parseAll_extract_document
    (hprose : ∀ line ∈ prose, IsQuiet line ∧ '\n' ∉ line ∧ '\r' ∉ line)
    (hpassages : ∀ passage ∈ passages ++ [last], passage.WellFormed)
    (htrees : List.Forall₂ (fun passage trees => Diagram.parseAll passage.source = .ok trees)
      (passages ++ [last]) forests) :
    Diagram.parseAll (extract (document prose (passages ++ [last]))) = .ok forests.flatten ∧
      Diagram.parseAll (extract (openDocument prose passages last)) = .ok forests.flatten := by
  have hne : passages ++ [last] ≠ [] := by simp
  have hclosed : ∀ passage ∈ passages, passage.WellFormed :=
    fun passage hpassage => hpassages passage (List.mem_append_left _ hpassage)
  have hlast : last.WellFormed := hpassages last (by simp)
  rw [extract_document hprose hpassages hne, extract_openDocument hprose hclosed hlast]
  exact ⟨parseAll_joinBlocks hne htrees, parseAll_joinBlocks hne htrees⟩

/-- Two passages with different marks. The first body falls into two blocks, and the second one holds a run that
is too short for a fence. -/
theorem parseAll_extract_document_two :
    let prose := ["# Layout".toList, []]
    let first : Passage := ⟨⟨'\x60', 3⟩, "  ```text".toList,
      ["a/".toList, "└── b".toList, [], "c".toList], 4, ["and `~~~`:".toList]⟩
    let second : Passage := ⟨⟨'~', 4⟩, "~~~~".toList, ["d".toList, "- ``e".toList], 4, []⟩
    let trees : List Node := [.directory "a" [.file "b"], .file "c", .directory "d" [.file "``e"]]
    Diagram.parseAll (extract (document prose ([first] ++ [second]))) = .ok trees ∧
      Diagram.parseAll (extract (openDocument prose [first] second)) = .ok trees := by
  intro prose first second trees
  have hfirst : first.WellFormed :=
    ⟨by decide +kernel, by decide, by decide +kernel, by decide +kernel⟩
  have hsecond : second.WellFormed :=
    ⟨by decide +kernel, by decide, by decide +kernel, by decide +kernel⟩
  have htrees : List.Forall₂ (fun passage trees => Diagram.parseAll passage.source = .ok trees)
      ([first] ++ [second])
      [[.directory "a" [.file "b"], .file "c"], [.directory "d" [.file "``e"]]] :=
    .cons (by decide +kernel) (.cons (by decide +kernel) .nil)
  exact parseAll_extract_document (by decide +kernel)
    (List.forall_mem_cons.mpr ⟨hfirst, List.forall_mem_singleton.mpr hsecond⟩) htrees

end Fence

end TreeSketch
