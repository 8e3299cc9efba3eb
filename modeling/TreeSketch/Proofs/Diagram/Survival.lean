import TreeSketch.Proofs.Diagram.Rendering
import TreeSketch.Proofs.Diagram.RoundTrip

/-!
# Names that survive a diagram

`readsAsName` looks at the tokens of two lines. What it is asked for is whether the parser gives a name back,
alone and behind a connector, and the answer is right for every name without a carriage return
(`readsAsName_iff_parse`). The tokens and the parser meet in the row of the name: both have the name back when a
file of that name can be read back (`readsAsName_iff_readsBack`, `parse_diagram_iff_readsBack`).
-/

namespace TreeSketch.Diagram

/-- The tokens of a line with a margin that may be empty and a name without slashes. -/
theorem readsAs_of_ofLine {line margin name : List Char} (hfeed : '\n' ∉ line) (hreturn : '\r' ∉ line)
    (hrow : Row.ofLine line = .entry margin name 0) (hname : name ≠ []) :
    readsAs line ((if margin = [] then [] else [.margin]) ++ [.name, .newline, .endOfInput]) name =
      true := by
  have hne : line ≠ [] := by
    rintro rfl
    cases hrow
  rw [readsAs, tokenize_of_not_mem hfeed hreturn hne, hrow]
  by_cases hmargin : margin = [] <;>
    simp [Row.tokens, Token.ofText, Token.mark, Token.isName, hmargin, hname]

/-- A name without a carriage return comes back exactly when a file of that name can be read back. -/
theorem readsAsName_iff_readsBack {name : String} (h : '\r' ∉ name.toList) :
    readsAsName name.toList = true ↔ (Node.file name).ReadsBack := by
  have hentries : ∀ entry ∈ (Node.file name).walk, entry.2 = .file name := by
    intro entry hentry
    rw [Node.walk_eq_preorder, Node.preorder, List.mem_singleton] at hentry
    rw [hentry]
  constructor
  · intro hname
    refine Node.ReadsBack.of_readsAsName fun entry hentry => ?_
    rw [hentries entry hentry]
    exact hname
  · intro hread
    have hlegible : (Node.file name).Legible := hread.legible _ (Node.mem_walk_self _)
    have hfeed : '\n' ∉ name.toList := hlegible.unbroken
    have halone : Row.ofLine name.toList = .entry [] name.toList 0 :=
      hlegible.ofLine_label hread.bare
    have hconnector : Row.ofLine ("└── ".toList ++ name.toList) =
        .entry "└── ".toList name.toList 0 :=
      hlegible.ofLine_branch [] false
    have hreadAlone := readsAs_of_ofLine hfeed h halone hlegible.name_ne
    have hreadConnector := readsAs_of_ofLine (List.not_mem_append (by decide) hfeed)
      (List.not_mem_append (by decide) h) hconnector hlegible.name_ne
    rw [if_pos rfl] at hreadAlone
    rw [if_neg (by decide)] at hreadConnector
    simp only [readsAsName, Bool.and_eq_true, Bool.not_eq_true', List.contains_eq_mem,
      decide_eq_false_iff_not]
    exact ⟨⟨⟨hfeed, h⟩, hreadAlone⟩, hreadConnector⟩

/-- A tree is read from its own diagram exactly when it can be read back. -/
theorem parse_diagram_iff_readsBack {tree : Node} :
    parse tree.diagram = .ok tree ↔ tree.ReadsBack :=
  ⟨fun h => ⟨legible_of_parse h, standsBare_of_parse_diagram h⟩, parse_diagram⟩

/-- Below a root, the name of a file comes back. -/
theorem parse_below {name : String} (h : readsAsName name.toList = true) :
    parse ("r\n└── " ++ name ++ "\n") = .ok (.directory "r" [.file name]) := by
  have hwalk : (Node.directory "r" [.file name]).walk =
      [(0, .directory "r" [.file name]), (1, .file name)] := Node.walk_eq_preorder _
  have hroot : readsAsName "r".toList = true := by decide +kernel
  have hnames : ∀ entry ∈ (Node.directory "r" [.file name]).walk,
      readsAsName entry.2.name.toList = true := by
    rw [hwalk]
    exact List.forall_mem_cons.mpr ⟨hroot, List.forall_mem_singleton.mpr h⟩
  have hrenders : (Layout.connectors 4).Renders 0 (.directory "r" [.file name])
      ["r".toList, "└── ".toList ++ name.toList] := by
    have hcorner : (Layout.connectors 4).IsMargin 0 1 "└── ".toList :=
      @Layout.IsMargin.connector 0 4 [] _ nofun ⟨'└', '─', 1, 0, rfl, rfl, rfl, rfl⟩
    rw [Layout.Renders, hwalk]
    -- The root is shown without a slash, since a file follows below it.
    exact .cons ⟨[], "r".toList, .connectorsRoot, Or.inr ⟨List.cons_ne_nil _ _, rfl⟩, rfl⟩
      (.cons ⟨"└── ".toList, name.toList, hcorner, Or.inl rfl, rfl⟩ .nil)
  have hfeed : '\n' ∉ name.toList := (Node.ofLine_of_readsAsName h).1
  have htext : ("r\n└── " ++ name ++ "\n").toList =
      Text.terminate ["r".toList, "└── ".toList ++ name.toList] := by
    simp [Text.terminate]
  refine hrenders.parse_eq hnames ?_
  rw [htext, Text.rawLines_terminate]
  refine List.forall_mem_cons.mpr ⟨by decide, List.forall_mem_singleton.mpr ?_⟩
  exact List.not_mem_append (by decide) hfeed

/-- A name without a carriage return is accepted exactly when the parser gives it back, as a file on a line of
its own and as the file below a root. -/
theorem readsAsName_iff_parse {name : String} (h : '\r' ∉ name.toList) :
    readsAsName name.toList = true ↔
      parse (name ++ "\n") = .ok (.file name) ∧
        parse ("r\n└── " ++ name ++ "\n") = .ok (.directory "r" [.file name]) := by
  have hdiagram : (Node.file name).diagram = name ++ "\n" := by
    rw [Node.diagram, Node.diagramBelow, String.append_empty]
    rfl
  have halone : readsAsName name.toList = true ↔ parse (name ++ "\n") = .ok (.file name) := by
    rw [readsAsName_iff_readsBack h, ← parse_diagram_iff_readsBack, hdiagram]
  exact ⟨fun hname => ⟨halone.mp hname, parse_below hname⟩, fun hparse => halone.mpr hparse.1⟩

/-- A name may start with graphics that are neither a connector nor a decoration. -/
theorem readsAsName_iff_parse_bar :
    '\r' ∉ "│- x#".toList ∧ parse ("│- x#" ++ "\n") = .ok (.file "│- x#") ∧
      parse ("r\n└── " ++ "│- x#" ++ "\n") = .ok (.directory "r" [.file "│- x#"]) := by
  have hname : '\r' ∉ "│- x#".toList := by decide
  exact ⟨hname, (readsAsName_iff_parse hname).mp (by decide +kernel)⟩

end TreeSketch.Diagram
