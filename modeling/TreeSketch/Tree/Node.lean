import TreeSketch.Text.Lowercase
import TreeSketch.Tree.Kind

/-!
# Trees

A tree of named files and directories. Only a directory has children, so the type has no file with
children in it. Two trees are equal when they agree in every name, kind and child, in order.
-/

namespace TreeSketch

/-- A file, or a directory with its entries in order. -/
inductive Node where
  | file (name : String)
  | directory (name : String) (children : List Node)
deriving Repr

namespace Node

/-- The name of the entry. -/
def name : Node → String
  | file name => name
  | directory name _ => name

/-- What the entry is. -/
def kind : Node → Kind
  | file _ => .file
  | directory _ _ => .directory

/-- The entries of a directory; a file has none. -/
def children : Node → List Node
  | file _ => []
  | directory _ children => children

/-- The entry is a directory. -/
def isDirectory (node : Node) : Bool :=
  node.kind = .directory

/-- The entry is a file. -/
def isFile (node : Node) : Bool :=
  node.kind = .file

/-- The extension of the name in lower case, behind its dot. -/
def extension? (node : Node) : Option String :=
  (nameExtension? node.name).map fun extension => "." ++ Text.lowercaseAscii extension

mutual

/-- The number of entries of a tree, the root included. -/
def size : Node → Nat
  | file _ => 1
  | directory _ children => sizeAll children + 1

/-- The number of entries of several trees. -/
def sizeAll : List Node → Nat
  | [] => 0
  | node :: rest => size node + sizeAll rest

end

@[simp] theorem sizeAll_append (nodes more : List Node) :
    sizeAll (nodes ++ more) = sizeAll nodes + sizeAll more := by
  induction nodes with
  | nil => simp [sizeAll]
  | cons node rest ih => simp [sizeAll, ih, Nat.add_assoc]

theorem size_eq_sizeAll_children (node : Node) : node.size = sizeAll node.children + 1 := by
  cases node <;> simp [size, children, sizeAll]

mutual

/-- Equality of trees is decided entry by entry. -/
def decEq : (a b : Node) → Decidable (a = b)
  | file a, file b =>
    if h : a = b then isTrue (h ▸ rfl) else isFalse fun same => h (Node.file.inj same)
  | file _, directory _ _ => isFalse nofun
  | directory _ _, file _ => isFalse nofun
  | directory a as, directory b bs =>
    if h : a = b then
      match decEqAll as bs with
      | isTrue hs => isTrue (h ▸ hs ▸ rfl)
      | isFalse hs => isFalse fun same => hs (Node.directory.inj same).2
    else isFalse fun same => h (Node.directory.inj same).1

/-- Equality of lists of trees. -/
def decEqAll : (as bs : List Node) → Decidable (as = bs)
  | [], [] => isTrue rfl
  | [], _ :: _ => isFalse nofun
  | _ :: _, [] => isFalse nofun
  | a :: as, b :: bs =>
    match decEq a b with
    | isTrue h =>
      match decEqAll as bs with
      | isTrue hs => isTrue (h ▸ hs ▸ rfl)
      | isFalse hs => isFalse fun same => hs (List.cons.inj same).2
    | isFalse h => isFalse fun same => h (List.cons.inj same).1

end

instance : DecidableEq Node := decEq

end Node

end TreeSketch
