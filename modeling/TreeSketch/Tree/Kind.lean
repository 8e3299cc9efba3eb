import TreeSketch.Path

/-!
# Files and directories

What a tree entry becomes, and which sign decided it. A sign that the source writes is binding; without
one `Verdict.infer` decides: an entry with children is a directory and any other entry is a file.
-/

namespace TreeSketch

/-- What an entry of a tree is. -/
inductive Kind where
  | file
  | directory
deriving Repr, DecidableEq

namespace Kind

/-- The word for the kind. -/
def label : Kind → String
  | file => "file"
  | directory => "directory"

end Kind

/-- The sign that decided what an entry is, from the strongest to the weakest. -/
inductive Origin where
  /-- The source wraps the name in `d(..)` or `f(..)`. -/
  | hint
  /-- The source writes a slash after the name. -/
  | marker
  /-- The entry has children. -/
  | children
  /-- The name ends in an extension. -/
  | extension
  /-- There is no sign. -/
  | fallback
deriving Repr, DecidableEq

/-- What an entry is, and why. -/
structure Verdict where
  kind : Kind
  origin : Origin
deriving Repr, DecidableEq

/-- The most characters that still count as an extension. -/
def longestExtension : Nat := 10

/-- What follows the last dot of a name, if it looks like an extension: at least one and at most ten
ASCII letters and digits. -/
def nameExtension? (name : String) : Option String :=
  (Path.extension? name).filter fun extension =>
    extension ≠ "" && extension.utf8ByteSize ≤ longestExtension &&
      extension.toList.all Char.isAlphanum

namespace Verdict

/-- What an entry is that carries no sign of its own. -/
def infer (name : String) (hasChildren : Bool) : Verdict :=
  if hasChildren then ⟨.directory, .children⟩
  else if (nameExtension? name).isSome then ⟨.file, .extension⟩
  else ⟨.file, .fallback⟩

/-- The kind follows from the children alone. -/
theorem infer_kind (name : String) (hasChildren : Bool) :
    (infer name hasChildren).kind = if hasChildren then .directory else .file := by
  unfold infer
  split
  · rfl
  · split <;> rfl

end Verdict

end TreeSketch
