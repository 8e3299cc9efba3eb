import TreeSketch.Proofs.Tree.Preorder

/-!
# The traversals of a tree agree

An address says where an entry of a tree stands: which child to take at each level on the way down. Preorder is the
lexicographic order of addresses, so "each entry once, in preorder" can be said without a traversal: the addresses are
strictly increasing, and they are those at which the tree has an entry. A `Trail` is what one meets on the way to an
address. The depth of an entry is the number of its ancestors there, and its path is made of their names and its own.

`traversals_agree` compares what runs with the trails at all addresses: the iterator over a stack (`next?`), the walk,
the preorder and the paths. The trails are listed by recursion on the tree (`trails`); that they are the ones at the
addresses (`map_trail?_addresses`), that the walk lists their depths and entries (`map_trails_preorder`) and that the
paths are theirs (`map_path_trails`) is one induction each.
-/

namespace TreeSketch.Node

/-! ## Addresses and trails -/

/-- An entry of a tree with the entries that it stands in, from the root down. -/
structure Trail where
  ancestors : List Node
  entry : Node

/-- The names of a path joined by slashes. As long as the path is empty, an empty name adds nothing and no slash is
put behind it. -/
def joinNames (names : List String) : String :=
  "/".intercalate (names.dropWhile (· = ""))

/-- The path of the entry, from the root down. -/
def Trail.path (trail : Trail) : String :=
  joinNames ((trail.ancestors ++ [trail.entry]).map name)

/-- The trail to the entry at an address of a tree that stands in `above`, if the tree has an entry there. The
address gives the child to take at each level, counted from 0. -/
def trail? : List Node → Node → List Nat → Option Trail
  | above, node, [] => some ⟨above, node⟩
  | above, node, i :: address =>
    node.children[i]?.bind fun child => trail? (above ++ [node]) child address

mutual

/-- The addresses of the entries of a tree, a directory before its entries. -/
def addresses : Node → List (List Nat)
  | file _ => [[]]
  | directory _ children => [] :: addressesFrom 0 children

/-- The addresses of the entries of several trees, numbered from `i` on. -/
def addressesFrom (i : Nat) : List Node → List (List Nat)
  | [] => []
  | node :: rest => node.addresses.map (i :: ·) ++ addressesFrom (i + 1) rest

end

mutual

/-- The trails to the entries of a tree that stands in `above`, a directory before its entries. -/
def trails (above : List Node) : Node → List Trail
  | file name => [⟨above, file name⟩]
  | directory name children =>
    ⟨above, directory name children⟩ :: trailsAll (above ++ [directory name children]) children

/-- The trails to the entries of several trees that stand in `above`. -/
def trailsAll (above : List Node) : List Node → List Trail
  | [] => []
  | node :: rest => trails above node ++ trailsAll above rest

end

theorem addresses_eq_cons (node : Node) : node.addresses = [] :: addressesFrom 0 node.children := by
  cases node with
  | file name => rw [addresses, children, addressesFrom]
  | directory name entries => rw [addresses, children]

theorem mem_addressesFrom {i : Nat} {nodes : List Node} {address : List Nat} :
    address ∈ addressesFrom i nodes ↔
      ∃ j rest child, address = (i + j) :: rest ∧ nodes[j]? = some child ∧ rest ∈ child.addresses := by
  induction nodes generalizing i with
  | nil => simp [addressesFrom]
  | cons node nodes ih =>
    rw [addressesFrom, List.mem_append, List.mem_map, ih]
    constructor
    · rintro (⟨rest, hrest, rfl⟩ | ⟨j, rest, child, rfl, hchild, hrest⟩)
      · exact ⟨0, rest, node, rfl, rfl, hrest⟩
      · exact ⟨j + 1, rest, child, by rw [Nat.add_right_comm, Nat.add_assoc], hchild, hrest⟩
    · rintro ⟨j, rest, child, rfl, hchild, hrest⟩
      cases j with
      | zero =>
        obtain rfl : node = child := Option.some.inj hchild
        exact .inl ⟨rest, hrest, rfl⟩
      | succ j =>
        exact .inr ⟨j, rest, child, by rw [Nat.add_right_comm, Nat.add_assoc], hchild, hrest⟩

/-- The addresses of a tree are those at which it has an entry. -/
theorem mem_addresses_iff (above : List Node) {node : Node} {address : List Nat} :
    address ∈ node.addresses ↔ (trail? above node address).isSome := by
  rw [addresses_eq_cons, List.mem_cons]
  -- Each number of the address leads to another tree, with one more tree above it.
  induction address generalizing above node with
  | nil => simp [trail?]
  | cons i address ih =>
    rw [trail?, or_iff_right (List.cons_ne_nil i address), mem_addressesFrom]
    constructor
    · rintro ⟨j, rest, child, heq, hchild, hrest⟩
      rw [Nat.zero_add, List.cons.injEq] at heq
      obtain ⟨rfl, rfl⟩ := heq
      rw [hchild, Option.bind_some, ← ih, ← List.mem_cons, ← addresses_eq_cons]
      exact hrest
    · intro hsome
      cases hchild : node.children[i]? with
      | none =>
        rw [hchild] at hsome
        cases hsome
      | some child =>
        rw [hchild, Option.bind_some, ← ih, ← List.mem_cons, ← addresses_eq_cons] at hsome
        exact ⟨i, address, child, by rw [Nat.zero_add], hchild, hsome⟩

mutual

/-- The addresses of a tree increase in lexicographic order, so none stands there twice. -/
theorem pairwise_addresses : (node : Node) → node.addresses.Pairwise (· < ·)
  | file _ => List.pairwise_singleton _ _
  | directory _ children => by
    rw [addresses, List.pairwise_cons]
    refine ⟨fun address haddress => ?_, pairwise_addressesFrom 0 children⟩
    obtain ⟨j, rest, -, rfl, -⟩ := mem_addressesFrom.mp haddress
    exact List.nil_lt_cons _ _

theorem pairwise_addressesFrom (i : Nat) : (nodes : List Node) → (addressesFrom i nodes).Pairwise (· < ·)
  | [] => List.Pairwise.nil
  | node :: rest => by
    rw [addressesFrom, List.pairwise_append, List.pairwise_map]
    refine ⟨(pairwise_addresses node).imp List.cons_lt_cons_self.mpr, pairwise_addressesFrom (i + 1) rest, ?_⟩
    intro address haddress next hnext
    obtain ⟨-, -, rfl⟩ := List.mem_map.mp haddress
    obtain ⟨j, -, -, rfl, -⟩ := mem_addressesFrom.mp hnext
    exact List.cons_lt_cons_iff.mpr (.inl (by omega))

end

mutual

/-- The listed trails are those to the addresses of the tree. -/
theorem map_trail?_addresses (above : List Node) : (node : Node) →
    node.addresses.map (trail? above node) = (trails above node).map some
  | file _ => rfl
  | directory name children => by
    have hbelow := map_trail?_addressesFrom above (directory name children) 0 children fun j => by
      rw [Nat.zero_add]
      rfl
    rw [addresses, trails, List.map_cons, List.map_cons, hbelow, trail?]

theorem map_trail?_addressesFrom (above : List Node) (parent : Node) (i : Nat) : (nodes : List Node) →
    (∀ j, parent.children[i + j]? = nodes[j]?) →
    (addressesFrom i nodes).map (trail? above parent) = (trailsAll (above ++ [parent]) nodes).map some
  | [], _ => rfl
  | node :: rest, hchildren => by
    have hfirst : (node.addresses.map (i :: ·)).map (trail? above parent) =
        (trails (above ++ [parent]) node).map some := by
      rw [← map_trail?_addresses (above ++ [parent]) node, List.map_map]
      refine List.map_congr_left fun address _ => ?_
      have hnode : parent.children[i]? = some node := hchildren 0
      rw [Function.comp_apply, trail?, hnode, Option.bind_some]
    have hrest := map_trail?_addressesFrom above parent (i + 1) rest fun j => by
      rw [Nat.add_right_comm]
      exact hchildren (j + 1)
    rw [addressesFrom, trailsAll, List.map_append, List.map_append, hfirst, hrest]

end

/-! ## Depths, paths and counts -/

mutual

/-- The preorder lists the entries of the trails, as deep as they have ancestors. -/
theorem map_trails_preorder (above : List Node) : (node : Node) →
    (trails above node).map (fun trail => (trail.ancestors.length, trail.entry)) =
      node.preorder above.length
  | file _ => rfl
  | directory name children => by
    have hbelow := map_trailsAll_preorder (above ++ [directory name children]) children
    rw [List.length_append, List.length_singleton] at hbelow
    rw [trails, preorder, List.map_cons, hbelow]

theorem map_trailsAll_preorder (above : List Node) : (nodes : List Node) →
    (trailsAll above nodes).map (fun trail => (trail.ancestors.length, trail.entry)) =
      preorderAll above.length nodes
  | [] => rfl
  | node :: rest => by
    rw [trailsAll, preorderAll, List.map_append, map_trails_preorder above node,
      map_trailsAll_preorder above rest]

end

/-- A path goes on with a slash and a name, or starts with the name. -/
theorem pathBelow_joinNames (names : List String) (name : String) :
    pathBelow (joinNames names) name = joinNames (names ++ [name]) := by
  rw [joinNames, joinNames, List.dropWhile_append]
  cases hnames : names.dropWhile (· = "") with
  | nil =>
    by_cases hempty : name = ""
    · simp [pathBelow, hempty]
    · simp [pathBelow, hempty]
  | cons first rest =>
    have hfirst : first ≠ "" := by
      have hhead := List.head?_dropWhile_not (p := (· = "")) names
      rw [hnames] at hhead
      simpa using hhead
    have hne : "/".intercalate (first :: rest) ≠ "" := by
      cases rest with
      | nil => simpa using hfirst
      | cons next rest => simp [String.intercalate_cons_cons]
    rw [pathBelow, if_neg hne, List.isEmpty_cons, if_neg Bool.false_ne_true,
      String.intercalate_append_of_ne_nil (List.cons_ne_nil _ _) (List.cons_ne_nil _ _),
      String.intercalate_singleton]

example : joinNames ["", "", "a", "", "b"] = "a//b" := by decide

mutual

/-- The paths are those of the trails. -/
theorem map_path_trails (above : List Node) : (node : Node) →
    (trails above node).map Trail.path = node.pathsBelow (joinNames (above.map name))
  | file name => by
    rw [trails, pathsBelow, pathBelow_joinNames, List.map_singleton, Trail.path, List.map_append]
    rfl
  | directory name children => by
    have hbelow := map_path_trailsAll (above ++ [directory name children]) children
    rw [List.map_append] at hbelow
    rw [trails, pathsBelow, pathBelow_joinNames, List.map_cons, hbelow, Trail.path, List.map_append]
    rfl

theorem map_path_trailsAll (above : List Node) : (nodes : List Node) →
    (trailsAll above nodes).map Trail.path = pathsBelowAll (joinNames (above.map name)) nodes
  | [] => rfl
  | node :: rest => by
    rw [trailsAll, pathsBelowAll, List.map_append, map_path_trails above node, map_path_trailsAll above rest]

end

/-- Every entry is counted, as a file or as a directory. -/
theorem countFiles_add_countDirectories (node : Node) :
    node.countFiles + node.countDirectories = node.walk.length := by
  have hother : node.countDirectories = node.walk.countP fun visit => ¬ visit.2.isFile := by
    refine List.countP_congr fun visit _ => ?_
    cases hkind : visit.2.kind <;> simp [isFile, isDirectory, hkind]
  rw [hother, countFiles]
  exact (List.length_eq_countP_add_countP _).symm

/-! ## The iterator -/

/-- One step of the walk as an iterator: takes the tree off the end of the stack, puts its children there, the last
one first, and gives the tree. -/
def next? (stack : Array (Nat × Node)) : Option ((Nat × Node) × Array (Nat × Node)) :=
  stack.back?.map fun (depth, node) =>
    ((depth, node), node.children.reverse.foldl (fun stack child => stack.push (depth + 1, child)) stack.pop)

/-- The iterator stops after it has given these trees. -/
inductive Drains : Array (Nat × Node) → List (Nat × Node) → Prop
  | done {stack : Array (Nat × Node)} (h : next? stack = none) : Drains stack []
  | step {stack rest : Array (Nat × Node)} {visit : Nat × Node} {visits : List (Nat × Node)}
      (h : next? stack = some (visit, rest)) (hrest : Drains rest visits) : Drains stack (visit :: visits)

/-- The iterator gives the same trees whenever it is run. -/
theorem Drains.unique {stack : Array (Nat × Node)} {visits others : List (Nat × Node)}
    (h : Drains stack visits) (hothers : Drains stack others) : visits = others := by
  induction h generalizing others with
  | done h =>
    cases hothers with
    | done => rfl
    | step h' => cases h.symm.trans h'
  | step h _ ih =>
    cases hothers with
    | done h' => cases h.symm.trans h'
    | step h' hrest =>
      obtain ⟨rfl, rfl⟩ := Prod.mk.inj (Option.some.inj (h.symm.trans h'))
      rw [ih hrest]

/-- In a list that starts with the top of the stack, the children take the place of the tree. -/
theorem next?_reverse_cons (depth : Nat) (node : Node) (stack : List (Nat × Node)) :
    next? ((depth, node) :: stack).reverse.toArray =
      some ((depth, node), (node.children.map (fun child => (depth + 1, child)) ++ stack).reverse.toArray) := by
  rw [next?]
  simp

/-- The iterator visits the trees on its stack and stops. The walk has the top of the stack at the start of a list, the
iterator at the end of an array. -/
theorem drains_walkStack (stack : List (Nat × Node)) : Drains stack.reverse.toArray (walkStack stack) := by
  induction stack using walkStack.induct with
  | case1 =>
    rw [walkStack]
    exact .done rfl
  | case2 depth node stack ih =>
    rw [walkStack]
    exact .step (next?_reverse_cons depth node stack) ih

/-! ## Agreement -/

/-- The traversals of a tree agree. The iterator over a stack stops after the walk, which is the preorder; the walk and
the paths follow the same trails, one to each address at which the tree has an entry, in the order of the addresses;
and the counts add up to their length. -/
theorem traversals_agree (node : Node) :
    (∀ visits, Drains #[(0, node)] visits ↔ visits = node.walk) ∧
    node.walk = node.preorder 0 ∧
    (∃ (addresses : List (List Nat)) (trails : List Trail),
      addresses.Pairwise (· < ·) ∧
      (∀ address, address ∈ addresses ↔ (trail? [] node address).isSome) ∧
      addresses.map (trail? [] node) = trails.map some ∧
      node.walk = trails.map (fun trail => (trail.ancestors.length, trail.entry)) ∧
      node.paths = trails.map Trail.path) ∧
    node.paths.length = node.walk.length ∧
    node.countFiles + node.countDirectories = node.walk.length := by
  have hwalk : (node.trails []).map (fun trail => (trail.ancestors.length, trail.entry)) = node.walk := by
    rw [map_trails_preorder, walk_eq_preorder]
    rfl
  have hpaths : (node.trails []).map Trail.path = node.paths := map_path_trails [] node
  refine ⟨fun visits => ⟨fun h => h.unique (drains_walkStack [(0, node)]), ?_⟩, node.walk_eq_preorder,
    ⟨node.addresses, node.trails [], node.pairwise_addresses, fun address => mem_addresses_iff [],
      map_trail?_addresses [] node, hwalk.symm, hpaths.symm⟩, ?_, node.countFiles_add_countDirectories⟩
  · rintro rfl
    exact drains_walkStack [(0, node)]
  · rw [← hwalk, ← hpaths, List.length_map, List.length_map]

end TreeSketch.Node
