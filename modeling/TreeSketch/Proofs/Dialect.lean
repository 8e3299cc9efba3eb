import TreeSketch.Dialect
import TreeSketch.Proofs.Declarative.Labels
import TreeSketch.Proofs.Declarative.RoundTrip

/-!
# Telling the two languages apart

`Dialect.detect` is a guess, and `parse_detect_diagram_iff` says where it is right about the diagrams that trees of
declarative sources have. A tree with more than one entry has a connector in its diagram and is taken for what it
is. A single entry is one line, and this line is taken for a declarative source: that reads it as the same entry,
unless the entry is a file with a name that is a hint to the declarative language (`PassesForHint`).
-/

namespace TreeSketch

open Diagram (readsAsName)

namespace Text

/-- A text of one line, with or without its end. -/
theorem length_textLines_of_not_mem {text : List Char} (h : '\n' ∉ text) : (textLines text).length ≤ 1 := by
  rw [textLines, pieces_of_not_mem h]
  simp only [List.dropLast_singleton, List.map_nil, List.nil_append, List.getLast?_singleton, Option.getD_some]
  cases text with
  | nil => simp
  | cons c cs => simp

end Text

namespace Dialect

/-- The character draws connectors and columns. -/
def IsGraphic (c : Char) : Prop :=
  c = '├' ∨ c = '└' ∨ c = '│'

theorem isBlank_of_isGraphic {c : Char} (h : IsGraphic c) : Text.isBlank c = false := by
  rcases h with rfl | rfl | rfl <;> rfl

theorem any_eq_true_iff {text : List Char} :
    text.any (fun c => c = '├' || c = '└' || c = '│') = true ↔ ∃ c ∈ text, IsGraphic c := by
  simp [IsGraphic, or_assoc]

theorem holds_iff {piece text : List Char} : holds piece text = true ↔ piece <:+: text := by
  induction text with
  | nil => rw [holds, decide_eq_true_eq, List.infix_nil]
  | cons c text ih =>
    rw [holds, Bool.or_eq_true, ih, List.infix_cons_iff, Option.isSome_iff_exists]
    refine or_congr_left (exists_congr fun rest => ?_)
    rw [Text.dropLead?_eq_some_iff, eq_comm]

/-- A text with tree graphics is taken for a diagram. -/
theorem detect_of_isGraphic {source : String} {c : Char} (hc : c ∈ source.toList) (h : IsGraphic c) :
    detect source = .diagram := by
  have hany := any_eq_true_iff.mpr ⟨c, Text.mem_trim hc (isBlank_of_isGraphic h), h⟩
  rw [detect, hany, Bool.true_or, if_pos rfl]

/-- A line without tree graphics is taken for a declarative source. -/
theorem detect_line {line : String} (hfeed : '\n' ∉ line.toList) (hbar : '|' ∉ line.toList)
    (hgraphic : ∀ c ∈ line.toList, ¬ IsGraphic c) : detect (line ++ "\n") = .declarative := by
  have htrim : Text.trim (line ++ "\n").toList = Text.trim line.toList := by
    rw [String.toList_append]
    exact Text.trim_concat (by decide) line.toList
  have hsubset : Text.trim line.toList ⊆ line.toList := Text.trim_subset line.toList
  have hany : (Text.trim line.toList).any (fun c => c = '├' || c = '└' || c = '│') = false := by
    rw [Bool.eq_false_iff, ne_eq, any_eq_true_iff]
    rintro ⟨c, hc, hdraws⟩
    exact hgraphic c (hsubset hc) hdraws
  have hholds : holds "|--".toList (Text.trim line.toList) = false := by
    rw [Bool.eq_false_iff, ne_eq, holds_iff]
    intro hpiece
    exact hbar (hsubset (hpiece.subset (by decide)))
  have hlines := Text.length_textLines_of_not_mem fun hmem => hfeed (hsubset hmem)
  have hshort : decide (1 < (Text.textLines (Text.trim line.toList)).length) = false :=
    decide_eq_false (Nat.not_lt.mpr hlines)
  simp only [detect, htrim, hany, hholds, hshort, Bool.or_self, Bool.false_and, Bool.false_eq_true, if_false]

end Dialect

/-! ## Diagrams of one line -/

namespace Node

theorem diagram_of_children_nil {node : Node} (h : node.children = []) :
    node.diagram = node.diagramLabel ++ "\n" := by
  cases node with
  | file name => rw [diagram, diagramBelow, String.append_empty]
  | directory name children =>
    obtain rfl : children = [] := h
    rw [diagram, diagramBelow, diagramEntries, String.append_empty]

/-- The last entry below a directory has a connector of its own. -/
theorem mem_diagramEntries (columns : String) {nodes : List Node} (h : nodes ≠ []) :
    '└' ∈ (diagramEntries columns nodes).toList := by
  induction nodes with
  | nil => exact absurd rfl h
  | cons node rest ih =>
    rw [diagramEntries]
    cases rest with
    | nil => simp
    | cons next more =>
      rw [String.toList_append]
      exact List.mem_append_right _ (ih (List.cons_ne_nil next more))

theorem mem_diagram_of_children_ne_nil {node : Node} (h : node.children ≠ []) :
    '└' ∈ node.diagram.toList := by
  cases node with
  | file name => exact absurd rfl h
  | directory name children =>
    rw [diagram, String.toList_append]
    exact List.mem_append_right _ (mem_diagramEntries "" h)

/-- The line of an entry without entries below it says what the source of the tree says. -/
theorem wordLabel_diagramLabel {node : Node} (h : readsAsName node.name.toList = true)
    (hlone : node.children = []) : Declarative.wordLabel node.diagramLabel = node.declaredLabel := by
  have hlegible : node.Legible := legible_of_readsAsName h
  have hne : node.name.toList ≠ [] := (ofLine_of_readsAsName h).2.1
  rw [Declarative.wordLabel, hlegible.name_eq]
  cases node with
  | file name => simp [diagramLabel, Node.name]
  | directory name children =>
    obtain rfl : children = [] := hlone
    simp [diagramLabel, Node.name, show name.toList ≠ [] from hne]

/-- The tree is one file, and its name is a hint to the declarative language and holds no tree graphics. -/
structure PassesForHint (tree : Node) : Prop where
  isFile_eq : tree.isFile = true
  encloses : ∃ kind inner, Declarative.Encloses kind inner tree.name.toList
  plain : ∀ c ∈ tree.name.toList, ¬ Dialect.IsGraphic c

theorem PassesForHint.exists_eq_file {tree : Node} (h : tree.PassesForHint) : ∃ name, tree = .file name := by
  cases tree with
  | file name => exact ⟨name, rfl⟩
  | directory name children => exact nomatch h.isFile_eq

end Node

namespace Declarative

/-- A line that is a name as a whole is the source of its entry. -/
theorem parse_line {tree : Node} (hreads : readsAsName tree.name.toList = true) (hlone : tree.children = [])
    (hliteral : Literal tree.diagramLabel.toList) : parse (tree.diagramLabel ++ "\n") = .ok tree := by
  have hlegible : tree.Legible := Node.legible_of_readsAsName hreads
  have hbounds : Bounds ['\n'] := by
    rintro _ ⟨⟩
    decide
  have hrecites := Recites.word hlegible.label_ne hliteral.chars hliteral.wordTokens_eq hbounds
    (Recites.nil.separator (by decide))
  rw [String.ofList_toList, Node.wordLabel_diagramLabel hreads hlone] at hrecites
  have hmoves : [Item.entry tree.declaredLabel nowhere] = tree.moves := by
    cases tree with
    | file name => rfl
    | directory name children =>
      obtain rfl : children = [] := hlone
      rfl
  have hsource : (tree.diagramLabel ++ "\n").toList = tree.diagramLabel.toList ++ ['\n'] := String.toList_append
  rw [hmoves, ← hsource] at hrecites
  refine parse_of_recites hrecites ?_
  rw [Node.preorder_eq_cons, hlone]
  simpa [Node.preorderAll] using hreads

/-- A line that is a hint is not the source of a file of that name: the name is what the hint encloses. -/
theorem parse_line_ne {name : String} {kind : Kind} {inner : List Char} (hclean : Clean name.toList)
    (hchars : ∀ c ∈ name.toList, isWordChar c = true) (h : Encloses kind inner name.toList) :
    parse (name ++ "\n") ≠ .ok (.file name) := by
  intro hparse
  have hne : name.toList ≠ [] := by
    rw [h.1]
    exact List.concat_ne_nil _ _
  have hbounds : Bounds ['\n'] := by
    rintro _ ⟨⟩
    decide
  obtain ⟨tokens, htokens, hclosed⟩ := forall₂_close_walk hparse
  have hword : .word 0 name.toList ∈ chunks 0 (name ++ "\n").toList := by
    rw [String.toList_append]
    exact chunks_append hne hchars hbounds 0 ▸ List.mem_cons_self
  obtain ⟨group, hgroup, hsubset⟩ := exists_tokens_of_mem_chunks htokens hword
  rw [chunkTokens, wordTokens_of_encloses hclean h] at hgroup
  split at hgroup
  · cases hgroup
  · obtain rfl := Except.ok.inj hgroup
    have hwalk : ∀ shown ∈ (Node.file name).walk, shown.2.name = name := by
      simp [Node.walk_eq_preorder, Node.preorder, Node.name]
    have hstarts := name_isPrefix_of_forall₂ hclosed hwalk (.ofText .name inner (0 + 2))
      (hsubset _ (by simp)) rfl
    have hle := hstarts.length_le
    rw [Token.ofText, String.toList_ofList, h.1] at hle
    simp only [List.length_append, List.length_singleton] at hle
    omega

end Declarative

/-! ## Diagrams that are told apart -/

/-- A diagram that passes for a hint is not read back. -/
theorem parse_detect_diagram_ne {name : String}
    (hname : ∀ c ∈ name.toList, Declarative.isWordChar c = true ∧ Text.isControl c = false)
    (h : (Node.file name).PassesForHint) :
    (Dialect.detect (Node.file name).diagram).parse (Node.file name).diagram ≠ .ok (.file name) := by
  obtain ⟨kind, inner, hencloses⟩ := h.encloses
  have hdeclarative : Dialect.detect (name ++ "\n") = .declarative :=
    Dialect.detect_line (fun hmem => nomatch (hname '\n' hmem).1) (fun hmem => nomatch (hname '|' hmem).1) h.plain
  rw [Node.diagram_of_children_nil rfl, Node.diagramLabel, hdeclarative, Dialect.parse]
  exact Declarative.parse_line_ne (fun c hc => (hname c hc).2) (fun c hc => (hname c hc).1) hencloses

/-- The tree of a declarative source is read back from its diagram, in the language that the diagram is taken
for, unless the diagram passes for a hint. -/
theorem parse_detect_diagram_iff {source : String} {tree : Node} (h : Declarative.parse source = .ok tree) :
    (Dialect.detect tree.diagram).parse tree.diagram = .ok tree ↔ ¬ tree.PassesForHint := by
  have hdiagram : Dialect.diagram.parse tree.diagram = .ok tree := by
    rw [Dialect.parse, Declarative.parse_diagram_of_parse h]
    rfl
  have hreads := Declarative.readsAsName_of_parse h (0, tree) tree.mem_walk_self
  obtain ⟨label, hworded, hclose⟩ := Declarative.worded_of_parse h (0, tree) tree.mem_walk_self
  constructor
  · intro hparse hpasses
    obtain ⟨name, rfl⟩ := hpasses.exists_eq_file
    obtain rfl : label.name = name := by rw [← Label.name_close label, hclose, Node.name]
    exact parse_detect_diagram_ne hworded.of_mem_name hpasses hparse
  · intro hpasses
    cases hdetect : Dialect.detect tree.diagram with
    | diagram => exact hdiagram
    | declarative =>
      have hplain : ∀ c ∈ tree.diagram.toList, ¬ Dialect.IsGraphic c := by
        intro c hc hdraws
        cases hdetect.symm.trans (Dialect.detect_of_isGraphic hc hdraws)
      have hlone : tree.children = [] := by
        by_contra hchildren
        exact hplain '└' (Node.mem_diagram_of_children_ne_nil hchildren) (Or.inr (Or.inl rfl))
      have hline := Node.diagram_of_children_nil hlone
      have hname : tree.name.toList ⊆ tree.diagram.toList := by
        rw [hline, String.toList_append, Node.toList_diagramLabel, List.append_assoc]
        exact List.subset_append_left _ _
      rw [hlone] at hclose
      rw [hline]
      refine Declarative.parse_line hreads hlone (Declarative.literal_diagramLabel hworded hclose ?_)
      exact fun hfile kind inner hencloses =>
        hpasses ⟨hfile, ⟨kind, inner, hencloses⟩, fun c hc => hplain c (hname hc)⟩

/-- A directory of which the name would be a hint, were it a file. -/
theorem parse_detect_diagram_hinted :
    let tree : Node := .directory "f(a)" []
    (Dialect.detect tree.diagram).parse tree.diagram = .ok tree :=
  (parse_detect_diagram_iff (show Declarative.parse "d(f(a))" = _ by decide +kernel)).mpr
    fun hpasses => nomatch hpasses.isFile_eq

/-- A hint around a hint: the diagram of the file is read as a directory. -/
theorem not_forall_parse_detect_diagram :
    ¬ ∀ (source : String) (tree : Node), Declarative.parse source = .ok tree →
      (Dialect.detect tree.diagram).parse tree.diagram = .ok tree := by
  intro hall
  have hback := hall "f(d(x))" (.file "d(x)") (by decide +kernel)
  exact absurd hback (by decide +kernel)

end TreeSketch
