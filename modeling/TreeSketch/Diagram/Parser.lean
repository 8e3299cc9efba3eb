import TreeSketch.Diagram.Block

/-!
# Reading diagrams

`Diagram.parseAll` reads every tree of every block of a diagram, and `Diagram.parse` only the first tree of
the first block. The blocks after the first are not looked at by `parse`, so a fault in them does not
matter to it.
-/

namespace TreeSketch.Diagram

/-- Every tree of a diagram, in the order of the source. -/
def parseAll (source : String) : Except ParseError (List Node) := do
  let blocks ← readBlocks source.toList
  let forests ← blocks.mapM Block.trees
  return forests.flatten

/-- The first tree of a diagram. -/
def parse (source : String) : Except ParseError Node := do
  match ← readBlocks source.toList with
  | [] => .error (.noEntries 1)
  | block :: _ =>
    match ← Block.trees block with
    | tree :: _ => .ok tree
    | [] => .error (.noEntries ((block.head?.map (·.line)).getD 1))

end TreeSketch.Diagram
