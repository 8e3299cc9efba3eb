import TreeSketch.Proofs.Tree.Preorder

/-!
# Where the entries of a tree stand

`Node.located` lists the entries of a tree by the names that lead to them, the way `Node.preorder` lists them
by their depths: `map_located` says that the two lists go through the same entries in the same order.
-/

namespace TreeSketch.Node

mutual

/-- The names that lead to each entry of a tree, from its root on, with what the entry is. -/
def located : Node → List (List String × Kind)
  | file name => [([name], .file)]
  | directory name children =>
    ([name], .directory) :: (locatedAll children).map fun entry => (name :: entry.1, entry.2)

/-- The names that lead to each entry of several trees, with what the entry is. -/
def locatedAll : List Node → List (List String × Kind)
  | [] => []
  | node :: rest => located node ++ locatedAll rest

end

/-- The way to every entry of a tree starts with the root. -/
theorem head?_of_mem_located {node : Node} {entry : List String × Kind} (h : entry ∈ node.located) :
    entry.1.head? = some node.name := by
  cases node with
  | file name =>
    rw [located, List.mem_singleton] at h
    rw [h]
    rfl
  | directory name children =>
    rw [located, List.mem_cons, List.mem_map] at h
    rcases h with rfl | ⟨below, -, rfl⟩ <;> rfl

theorem ne_nil_of_mem_locatedAll {nodes : List Node} {entry : List String × Kind}
    (h : entry ∈ locatedAll nodes) : entry.1 ≠ [] := by
  induction nodes with
  | nil => exact absurd h List.not_mem_nil
  | cons node rest ih =>
    rw [locatedAll, List.mem_append] at h
    rcases h with h | h
    · intro hnil
      have hhead := head?_of_mem_located h
      rw [hnil] at hhead
      cases hhead
    · exact ih h

mutual

/-- The located entries are those of the preorder: as deep as the way to them is long, named as its last name
says, and of the same kind. -/
theorem map_located (depth : Nat) : (node : Node) →
    node.located.map (fun entry => (depth + entry.1.length, entry.1.getLast?, entry.2)) =
      (node.preorder depth).map fun entry => (entry.1 + 1, some entry.2.name, entry.2.kind)
  | file _ => rfl
  | directory name children => by
    have hbelow : (locatedAll children).map (fun entry =>
        (depth + (name :: entry.1).length, (name :: entry.1).getLast?, entry.2)) =
          (locatedAll children).map fun entry =>
            (depth + 1 + entry.1.length, entry.1.getLast?, entry.2) := by
      refine List.map_congr_left fun entry hentry => ?_
      obtain ⟨first, rest, hfirst⟩ := List.exists_cons_of_ne_nil (ne_nil_of_mem_locatedAll hentry)
      rw [hfirst, List.getLast?_cons_cons, List.length_cons, Nat.add_assoc depth 1, Nat.add_comm 1]
    rw [located, preorder, List.map_cons, List.map_cons, List.map_map, ← map_locatedAll (depth + 1) children,
      ← hbelow]
    rfl

theorem map_locatedAll (depth : Nat) : (nodes : List Node) →
    (locatedAll nodes).map (fun entry => (depth + entry.1.length, entry.1.getLast?, entry.2)) =
      (preorderAll depth nodes).map fun entry => (entry.1 + 1, some entry.2.name, entry.2.kind)
  | [] => rfl
  | node :: rest => by
    rw [locatedAll, preorderAll, List.map_append, List.map_append, map_located depth node,
      map_locatedAll depth rest]

end

end TreeSketch.Node
