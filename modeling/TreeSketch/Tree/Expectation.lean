import TreeSketch.Text.Quoted
import TreeSketch.Tree.Walk

/-!
# Expectations about trees

Statements about one entry of a tree, for tests of whatever makes trees. A list of `Descent`s is the way down
to the entry, by names and positions, and `Expectation.check` says what is not as expected: the text starts
with the path of the entry that it speaks of.
-/

namespace TreeSketch

/-- One step down a tree. -/
inductive Descent where
  /-- To the first child of this name. -/
  | named (name : String)
  /-- To the child at this position. -/
  | at (position : Nat)
deriving Repr, DecidableEq

/-- What is expected of an entry. -/
inductive Expectation where
  | name (expected : String)
  | kind (expected : Kind)
  /-- The number of children. -/
  | childCount (expected : Nat)
  | childrenNames (expected : List String)
  /-- Some entry has this path, counted from the entry itself. -/
  | hasPath (path : String)
  | fileCount (expected : Nat)
  | directoryCount (expected : Nat)
deriving Repr, DecidableEq

namespace Node

/-- The names of the children, with a slash behind those of directories. -/
def childSummary (node : Node) : String :=
  ", ".intercalate <| node.children.map fun child =>
    if child.isDirectory then child.name ++ "/" else child.name

end Node

namespace Descent

/-- The entry that steps lead to with its path, or the reason why there is none. -/
def follow (context : String) (node : Node) : List Descent → Except String (String × Node)
  | [] => .ok (context, node)
  | named name :: rest =>
    match node.children.find? (·.name = name) with
    | some child => follow (context ++ "/" ++ child.name) child rest
    | none =>
      .error (context ++ ": No child named '" ++ name ++ "' in [" ++ node.childSummary ++ "]")
  | .at position :: rest =>
    match node.children[position]? with
    | some child => follow (context ++ "/" ++ child.name) child rest
    | none =>
      .error (context ++ ": Child index " ++ toString position ++ " out of bounds (node has " ++
        toString node.children.length ++ " children)")

end Descent

namespace Expectation

/-- What is not as expected, if anything. -/
def mismatch? (node : Node) : Expectation → Option String
  | name expected =>
    if node.name = expected then none
    else some ("Expected name '" ++ expected ++ "', found '" ++ node.name ++ "'")
  | kind expected =>
    if node.kind = expected then none
    else some ("Expected " ++ expected.label ++ ", found " ++ node.kind.label)
  | childCount expected =>
    let actual := node.children.length
    if actual = expected then none
    else
      some ("Expected " ++ toString expected ++ " children, found " ++ toString actual ++ ": [" ++
        node.childSummary ++ "]")
  | childrenNames expected =>
    if node.children.map (·.name) = expected then none else some "Children names differ"
  | hasPath path =>
    if node.paths.contains path then none
    else some ("Path '" ++ path ++ "' not found in " ++ Text.quotedList node.paths)
  | fileCount expected =>
    if node.countFiles = expected then none
    else
      some ("Expected " ++ toString expected ++ " files in subtree, found " ++
        toString node.countFiles)
  | directoryCount expected =>
    if node.countDirectories = expected then none
    else
      some ("Expected " ++ toString expected ++ " directories in subtree, found " ++
        toString node.countDirectories)

/-- Checks what is expected of the entry that steps lead to from the root of a tree. -/
def check (tree : Node) (steps : List Descent) (expectation : Expectation) : Except String Unit := do
  let (context, node) ← Descent.follow tree.name tree steps
  match expectation.mismatch? node with
  | none => .ok ()
  | some text => .error (context ++ ": " ++ text)

end Expectation

end TreeSketch
