import TreeSketch.Proofs.Declarative.Frames
import TreeSketch.Proofs.Diagram.Sheet

/-!
# Declarative sources as diagrams

Every tree that a declarative source stands for is read back from its diagram (`parse_diagram_of_parse`): the
source lets only such names pass that come back, and it lets them pass for any entry of the tree.
-/

namespace TreeSketch.Declarative

/-- Every name of a tree comes back from a diagram. -/
theorem readsAsName_of_parse {source : String} {tree : Node} (h : parse source = .ok tree) :
    ∀ entry ∈ tree.walk, Diagram.readsAsName entry.2.name.toList = true := by
  intro shown hshown
  obtain ⟨_, _, outline, -, -, hruns, hshows⟩ := exists_outline_of_parse h
  obtain ⟨entry, hentry, -, hclose⟩ := exists_mem_of_forall₂ hshows hshown
  rw [← hclose, Label.name_close]
  exact hruns.readsAsName entry hentry

/-- The diagram of the tree of a declarative source is read as this tree. -/
theorem parse_diagram_of_parse {source : String} {tree : Node} (h : parse source = .ok tree) :
    Diagram.parse tree.diagram = .ok tree :=
  Diagram.parse_diagram (Node.ReadsBack.of_readsAsName (readsAsName_of_parse h))

/-- A directory without entries, and a file whose name holds a number sign. -/
theorem parse_diagram_of_parse_project :
    let tree : Node := .directory "app" [.directory "src" [.file "a#1"], .directory "doc" []]
    Diagram.parse tree.diagram = .ok tree :=
  parse_diagram_of_parse (show parse "app > src > f(a#1) | doc//" = _ by decide +kernel)

end TreeSketch.Declarative
