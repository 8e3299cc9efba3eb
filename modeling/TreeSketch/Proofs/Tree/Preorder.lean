import Mathlib.Data.List.Chain
import TreeSketch.Tree.Walk

/-!
# The preorder of a tree

`Node.walk` keeps the trees that it still has to visit on a stack. `Node.preorder` lists the same entries by
recursion on the tree, which is the form that inductions over trees need: a directory, then its entries one
level deeper. `walk_eq_preorder` says that the two lists agree.

The walk is followed through `walkStack_eq_flatMap`, which is about any stack: what is left to visit is the
preorder of every tree on it, from the top down.
-/

namespace TreeSketch.Node

mutual

/-- The entries of a tree whose root has the depth `depth`, each with its depth, a directory before its
entries. -/
def preorder (depth : Nat) : Node → List (Nat × Node)
  | file name => [(depth, file name)]
  | directory name children =>
    (depth, directory name children) :: preorderAll (depth + 1) children

/-- The entries of several trees whose roots have the depth `depth`. -/
def preorderAll (depth : Nat) : List Node → List (Nat × Node)
  | [] => []
  | node :: rest => preorder depth node ++ preorderAll depth rest

end

/-- A tree lists its root, and then the trees below it one level deeper. -/
theorem preorder_eq_cons (depth : Nat) (node : Node) :
    preorder depth node = (depth, node) :: preorderAll (depth + 1) node.children := by
  cases node with
  | file name => rw [preorder, children, preorderAll]
  | directory name entries => rw [preorder, children]

theorem preorderAll_eq_flatMap (depth : Nat) (nodes : List Node) :
    preorderAll depth nodes = nodes.flatMap (preorder depth) := by
  induction nodes with
  | nil => rfl
  | cons node rest ih => rw [preorderAll, ih, List.flatMap_cons]

mutual

/-- The listing has as many entries as the tree. -/
theorem length_preorder (depth : Nat) : (node : Node) → (preorder depth node).length = node.size
  | file _ => rfl
  | directory _ children => by
    rw [preorder, size, List.length_cons, length_preorderAll (depth + 1) children]

theorem length_preorderAll (depth : Nat) :
    (nodes : List Node) → (preorderAll depth nodes).length = sizeAll nodes
  | [] => rfl
  | node :: rest => by
    rw [preorderAll, sizeAll, List.length_append, length_preorder depth node,
      length_preorderAll depth rest]

end

/-- A stack is visited from the top down, each tree as a whole before the one below it. -/
theorem walkStack_eq_flatMap (stack : List (Nat × Node)) :
    walkStack stack = stack.flatMap fun tree => preorder tree.1 tree.2 := by
  induction stack using walkStack.induct with
  | case1 => rw [walkStack, List.flatMap_nil]
  | case2 depth node stack ih =>
    -- The entries of the visited tree go on top, so they are the first part of what is left.
    have below : (node.children.map fun child => (depth + 1, child)).flatMap
        (fun tree => preorder tree.1 tree.2) = preorderAll (depth + 1) node.children := by
      rw [List.flatMap_map, preorderAll_eq_flatMap]
    rw [walkStack, ih, List.flatMap_append, below, List.flatMap_cons, preorder_eq_cons depth node,
      List.cons_append]

/-- The walk of a tree is its preorder. -/
theorem walk_eq_preorder (node : Node) : node.walk = node.preorder 0 := by
  rw [walk, walkStack_eq_flatMap, List.flatMap_singleton]

/-- Trees that stand beside each other list the walk of each. -/
theorem preorderAll_zero (nodes : List Node) : preorderAll 0 nodes = nodes.flatMap walk := by
  rw [preorderAll_eq_flatMap, funext walk_eq_preorder]

/-- The walk starts at the root. -/
theorem mem_walk_self (node : Node) : (0, node) ∈ node.walk := by
  rw [walk_eq_preorder, preorder_eq_cons]
  exact List.mem_cons_self

/-! ## Depths of a listing -/

/-- An entry of a listing is at most one level below the entry before it. -/
def Steps (entry next : Nat × Node) : Prop :=
  next.1 ≤ entry.1 + 1

mutual

theorem isChain_preorder {rest : List (Nat × Node)} (hrest : rest.IsChain Steps) (depth : Nat)
    (hhead : ∀ next ∈ rest.head?, next.1 ≤ depth + 1) : (node : Node) →
    (node.preorder depth ++ rest).IsChain Steps
  | .file name => by
    rw [preorder, List.singleton_append]
    exact hrest.cons hhead
  | .directory name children => by
    have hbelow := isChain_preorderAll hrest (depth + 1)
      (fun next hnext => Nat.le_succ_of_le (hhead next hnext)) children
    rw [preorder, List.cons_append]
    refine hbelow.cons fun next hnext => ?_
    cases children with
    | nil => exact hhead next hnext
    | cons child more =>
      rw [preorderAll, preorder_eq_cons] at hnext
      obtain rfl : (depth + 1, child) = next := by simpa using hnext
      exact Nat.le_refl _

theorem isChain_preorderAll {rest : List (Nat × Node)} (hrest : rest.IsChain Steps) (depth : Nat)
    (hhead : ∀ next ∈ rest.head?, next.1 ≤ depth + 1) : (nodes : List Node) →
    (preorderAll depth nodes ++ rest).IsChain Steps
  | [] => hrest
  | node :: more => by
    have hmore := isChain_preorderAll hrest depth hhead more
    rw [preorderAll, List.append_assoc]
    refine isChain_preorder hmore depth (fun next hnext => ?_) node
    cases more with
    | nil => exact hhead next hnext
    | cons other more =>
      rw [preorderAll, preorder_eq_cons] at hnext
      obtain rfl : (depth, other) = next := by simpa using hnext
      exact Nat.le_succ depth

end

/-- Listed trees start at the depth of their roots. -/
theorem head?_depth_preorderAll (depth : Nat) (nodes : List Node) :
    ∀ first ∈ ((preorderAll depth nodes).map (·.1)).head?, first = depth := by
  cases nodes with
  | nil => exact nofun
  | cons node more =>
    rw [preorderAll, preorder_eq_cons]
    rintro _ ⟨⟩
    rfl

/-- Listed trees go down one level at a time. -/
theorem isChain_depth_preorderAll (depth : Nat) (nodes : List Node) :
    ((preorderAll depth nodes).map (·.1)).IsChain fun depth next => next ≤ depth + 1 := by
  have hchain := isChain_preorderAll List.IsChain.nil depth (fun next hnext => nomatch hnext) nodes
  rw [List.append_nil] at hchain
  rw [List.isChain_map]
  exact hchain

end TreeSketch.Node
