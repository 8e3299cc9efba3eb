import TreeSketch.Tree.Node

/-!
# Arenas that are linked in both directions

In a `LinkedArena` every entry names its parent, and every entry lists its children. Nothing but the operations
keeps the two in agreement: an entry that is added below another one is put at the end of the list of that one.
An entry is known by its number in order of creation.

Following a link may lead nowhere, and an entry that is its own parent can be followed for ever; the result is
then `none`. The operations link an entry to none but itself and older ones, so a link that leads the other way is
not followed either. That none of this happens is not part of the definitions.
-/

namespace TreeSketch

/-- One entry of a linked arena. What it is may be open: then it has neither a kind nor the sign of one. -/
structure LinkedSlot where
  name : String
  kind : Option Kind
  origin : Option Origin
  children : List Nat
  parent : Option Nat
deriving Repr, DecidableEq

/-- Entries in order of creation. -/
structure LinkedArena where
  slots : Array LinkedSlot
deriving Repr, DecidableEq

namespace LinkedSlot

/-- The entry with its kind decided from the children that it has now, if it was open. -/
def settle (slot : LinkedSlot) : LinkedSlot :=
  match slot.kind with
  | some _ => slot
  | none =>
    let verdict := Verdict.infer slot.name !slot.children.isEmpty
    { slot with kind := some verdict.kind, origin := some verdict.origin }

end LinkedSlot

namespace LinkedArena

/-- The arena without entries. -/
def empty : LinkedArena :=
  ⟨#[]⟩

/-- The number of entries. -/
def size (arena : LinkedArena) : Nat :=
  arena.slots.size

/-- The entry of a number. -/
def get? (arena : LinkedArena) (id : Nat) : Option LinkedSlot :=
  arena.slots[id]?

/-- Puts an entry behind the others; its number is the number of entries before. -/
def push (arena : LinkedArena) (name : String) (fixed : Option Verdict) (parent : Option Nat) :
    LinkedArena × Nat :=
  (⟨arena.slots.push ⟨name, fixed.map (·.kind), fixed.map (·.origin), [], parent⟩⟩, arena.size)

/-- Adds an entry without a parent, and gives its number. -/
def addRoot (arena : LinkedArena) (name : String) (fixed : Option Verdict) : LinkedArena × Nat :=
  arena.push name fixed none

/-- Adds an entry at the end of the children of `parent`, and gives its number. There has to be an entry to
link it to by then. -/
def addChild? (arena : LinkedArena) (parent : Nat) (name : String) (fixed : Option Verdict) :
    Option (LinkedArena × Nat) :=
  let (next, id) := arena.push name fixed (some parent)
  if parent < next.size then
    some (⟨next.slots.modify parent fun slot => { slot with children := slot.children ++ [id] }⟩, id)
  else none

/-- The parent of an entry. -/
def parent? (arena : LinkedArena) (id : Nat) : Option Nat :=
  (arena.get? id).bind (·.parent)

/-- The children of an entry in the order of its list. -/
def children (arena : LinkedArena) (id : Nat) : List Nat :=
  ((arena.get? id).map (·.children)).getD []

/-- The last one in the list of children of an entry. -/
def lastChild? (arena : LinkedArena) (id : Nat) : Option Nat :=
  (arena.children id).getLast?

/-- The number of entries above an entry, counted on from `depth`. -/
def climb (arena : LinkedArena) (depth id : Nat) : Option Nat :=
  match arena.get? id with
  | none => none
  | some slot =>
    match slot.parent with
    | none => some depth
    | some parent => if parent < id then climb arena (depth + 1) parent else none
termination_by id

/-- The number of entries above an entry. -/
def depth? (arena : LinkedArena) (id : Nat) : Option Nat :=
  arena.climb 0 id

/-- Decides the entry of a number, if it is open. -/
def settleAt (arena : LinkedArena) (id : Nat) : LinkedArena :=
  ⟨arena.slots.modify id LinkedSlot.settle⟩

/-- Decides every entry that is open, the last one first. -/
def settle (arena : LinkedArena) : LinkedArena :=
  (List.range arena.size).foldr (fun id arena => arena.settleAt id) arena

/-- The tree at an entry, as far as it is decided: what is not known to be a directory is a file. -/
def build? (arena : LinkedArena) (id : Nat) : Option Node :=
  match arena.get? id with
  | none => none
  | some slot =>
    match slot.kind with
    | some .directory =>
      (slot.children.mapM fun child =>
        if id < child ∧ child < arena.size then build? arena child else none).map (Node.directory slot.name)
    | _ => some (.file slot.name)
termination_by arena.size - id

/-- The tree at an entry after every open entry is decided. -/
def intoTree? (arena : LinkedArena) (root : Nat) : Option Node :=
  arena.settle.build? root

end LinkedArena

end TreeSketch
