import TreeSketch.Tree.Node

/-!
# Trees under construction

An `Arena` holds the entries of trees that grow one entry at a time. An entry is known by its number in
order of creation and remembers its parent, which is older than itself (`parent_lt`); its children are
the entries that name it as their parent, so the two directions cannot disagree. What an entry is may
stay open until `settle` decides it from the children that it has by then.
-/

namespace TreeSketch

/-- One entry of an arena. -/
structure Slot where
  name : String
  verdict : Option Verdict
  parent : Option Nat
deriving Repr, DecidableEq

/-- Entries in order of creation, each younger than its parent. -/
structure Arena where
  slots : Array Slot
  parent_lt : ∀ (id : Nat) (slot : Slot),
    slots[id]? = some slot → ∀ p, slot.parent = some p → p < id

namespace Arena

/-- The arena without entries. -/
def empty : Arena :=
  ⟨#[], fun id slot h => by simp at h⟩

/-- The number of entries. -/
def size (arena : Arena) : Nat :=
  arena.slots.size

/-- The entry of a number. -/
def get? (arena : Arena) (id : Nat) : Option Slot :=
  arena.slots[id]?

/-- Adds an entry whose parent, if it has one, exists; its number is the number of entries before. -/
def add (arena : Arena) (slot : Slot) (h : ∀ p, slot.parent = some p → p < arena.size) : Arena where
  slots := arena.slots.push slot
  parent_lt := by
    intro id other hid p hp
    rw [Array.getElem?_push] at hid
    split at hid
    · rename_i heq
      subst heq
      exact h p (by cases hid; exact hp)
    · exact arena.parent_lt id other hid p hp

/-- Adds an entry without a parent. -/
def addRoot (arena : Arena) (name : String) (fixed : Option Verdict) : Arena :=
  arena.add ⟨name, fixed, none⟩ (fun _ h => by simp at h)

/-- Adds an entry below `parent`, if there is such an entry. -/
def addChild? (arena : Arena) (parent : Nat) (name : String) (fixed : Option Verdict) :
    Option Arena :=
  if h : parent < arena.size then
    some (arena.add ⟨name, fixed, some parent⟩ (fun p hp => by cases hp; exact h))
  else none

/-- The parent of an entry. -/
def parent? (arena : Arena) (id : Nat) : Option Nat :=
  (arena.get? id).bind (·.parent)

theorem parent?_lt (arena : Arena) {id p : Nat} (h : arena.parent? id = some p) : p < id := by
  simp only [parent?, Option.bind_eq_some_iff] at h
  obtain ⟨slot, hslot, hp⟩ := h
  exact arena.parent_lt id slot hslot p hp

/-- The entries below an entry, in order of creation. -/
def children (arena : Arena) (id : Nat) : List Nat :=
  (List.range arena.size).filter fun child => arena.parent? child = some id

/-- The youngest entry below an entry. -/
def lastChild? (arena : Arena) (id : Nat) : Option Nat :=
  (arena.children id).getLast?

theorem mem_children {arena : Arena} {id child : Nat} (h : child ∈ arena.children id) :
    id < child ∧ child < arena.size := by
  simp only [children, List.mem_filter, List.mem_range, decide_eq_true_eq] at h
  exact ⟨arena.parent?_lt h.2, h.1⟩

/-- The number of entries above an entry. -/
def depth (arena : Arena) (id : Nat) : Nat :=
  match h : arena.parent? id with
  | none => 0
  | some p => depth arena p + 1
termination_by id
decreasing_by exact arena.parent?_lt h

/-- The entry with its kind decided, if it was open. -/
def settleSlot (arena : Arena) (id : Nat) (slot : Slot) : Slot :=
  match slot.verdict with
  | some _ => slot
  | none => { slot with verdict := some (Verdict.infer slot.name !(arena.children id).isEmpty) }

theorem settleSlot_parent (arena : Arena) (id : Nat) (slot : Slot) :
    (arena.settleSlot id slot).parent = slot.parent := by
  unfold settleSlot
  split <;> rfl

/-- Decides every entry that is still open from the children that it has now. -/
def settle (arena : Arena) : Arena where
  slots := arena.slots.mapIdx arena.settleSlot
  parent_lt := by
    intro id slot h p hp
    rw [Array.getElem?_mapIdx, Option.map_eq_some_iff] at h
    obtain ⟨before, hbefore, rfl⟩ := h
    rw [settleSlot_parent] at hp
    exact arena.parent_lt id before hbefore p hp

/-- The tree at an entry, as far as it is decided: what is not known to be a directory is a file. -/
def tree (arena : Arena) (id : Nat) : Node :=
  match arena.get? id with
  | none => .file ""
  | some slot =>
    match slot.verdict with
    | some ⟨.directory, _⟩ =>
      .directory slot.name ((arena.children id).attach.map fun child => arena.tree child.1)
    | _ => .file slot.name
termination_by arena.size - id
decreasing_by
  have := mem_children child.2
  omega

/-- The tree at an entry after every open entry is decided. -/
def toTree (arena : Arena) (id : Nat) : Node :=
  arena.settle.tree id

end Arena

end TreeSketch
