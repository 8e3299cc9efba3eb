import TreeSketch.Creation

/-!
# Dry runs

A dry run looks at nothing and changes nothing, in whatever monad it is done: it is the list `planned` and no
action at all (`create_of_dryRun`, `createMany_of_dryRun`).
-/

namespace TreeSketch.CreateOptions

mutual

/-- What a dry run reports on a tree in the directory `base`. -/
def planned (createFiles : Bool) (base : String) : Node → List Outcome
  | .file name =>
    if !createFiles then []
    else if !Path.isSingleName name then [⟨base, .file, some (.refused name)⟩]
    else [⟨Path.join base name, .file, none⟩]
  | .directory name children =>
    if !Path.isSingleName name then [⟨base, .directory, some (.refused name)⟩]
    else ⟨Path.join base name, .directory, none⟩ :: plannedAll createFiles (Path.join base name) children

/-- What a dry run reports on trees in the directory `base`. -/
def plannedAll (createFiles : Bool) (base : String) : List Node → List Outcome
  | [] => []
  | node :: rest => planned createFiles base node ++ plannedAll createFiles base rest

end

variable {m : Type → Type} [Monad m] [FileAccess m] {options : CreateOptions}

theorem createEntry_of_dryRun (h : options.dryRun = true) (kind : Kind) (path : String) :
    options.createEntry (m := m) kind path = pure ⟨path, kind, none⟩ := by
  rw [createEntry, if_pos h]

variable [LawfulMonad m]

mutual

theorem createNode_of_dryRun (h : options.dryRun = true) (base : String) : (node : Node) →
    options.createNode (m := m) base node = pure (planned options.createFiles base node)
  | .file name => by
    rw [createNode, planned]
    split
    · rfl
    · split
      · rfl
      · rw [createEntry_of_dryRun h, pure_bind]
  | .directory name children => by
    rw [createNode, planned]
    split
    · rfl
    · dsimp only
      rw [createEntry_of_dryRun h, pure_bind, createNodes_of_dryRun h, pure_bind]

theorem createNodes_of_dryRun (h : options.dryRun = true) (base : String) : (nodes : List Node) →
    options.createNodes (m := m) base nodes = pure (plannedAll options.createFiles base nodes)
  | [] => by rw [createNodes, plannedAll]
  | node :: rest => by
    rw [createNodes, plannedAll, createNode_of_dryRun h, pure_bind, createNodes_of_dryRun h, pure_bind]

end

/-- A dry run on a tree is the report on it. -/
theorem create_of_dryRun (h : options.dryRun = true) (base : String) (tree : Node) :
    options.create (m := m) base tree = pure ⟨planned options.createFiles base tree, true⟩ := by
  rw [create, createNode_of_dryRun h, pure_bind, h]

/-- A dry run on several trees is the reports on them, each in its own directory. -/
theorem createFrom_of_dryRun (h : options.dryRun = true) (base : String) (trees : List Node)
    (number : Nat) : options.createFrom (m := m) base number trees =
      pure (trees.mapIdx fun i tree => ⟨planned options.createFiles (numberedBase base (i + number)) tree, true⟩) := by
  induction trees generalizing number with
  | nil => rfl
  | cons tree rest ih =>
    rw [createFrom, create_of_dryRun h, pure_bind, ih, pure_bind, List.mapIdx_cons, Nat.zero_add]
    simp only [Nat.add_assoc, Nat.add_comm 1 number]

theorem createMany_of_dryRun (h : options.dryRun = true) (base : String) (trees : List Node) :
    options.createMany (m := m) base trees =
      pure (trees.mapIdx fun i tree => ⟨planned options.createFiles (numberedBase base (i + 1)) tree, true⟩) :=
  createFrom_of_dryRun h base trees 1

end TreeSketch.CreateOptions
