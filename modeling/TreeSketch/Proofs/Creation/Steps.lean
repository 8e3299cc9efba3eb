import TreeSketch.Creation
import TreeSketch.Proofs.Files.Making

/-!
# How trees are created

Creation goes from entry to entry and takes the files that one entry leaves to the next, whether it was made
or not. `Creates` says this with one rule for each case that an entry can be in, so that an induction over it
follows a whole run, and `creates_iff` says that the runs are those of `createNodes`.
-/

namespace TreeSketch

/-- What has happened to an entry that was tried to make. -/
def Outcome.ofResult (kind : Kind) (path : String) (result : Except IoError Unit) : Outcome :=
  match result with
  | .ok () => ⟨path, kind, none⟩
  | .error cause => ⟨path, kind, some (.io cause)⟩

/-- How trees are created in the directory `base`, one after another. -/
inductive Creates (createFiles : Bool) :
    FileSystem → String → List Node → List Outcome → FileSystem → Prop
  /-- There is nothing to create. -/
  | nil {fs base} : Creates createFiles fs base [] [] fs
  /-- No files are wanted. -/
  | skip {fs base name nodes outcomes made} (hfiles : createFiles = false)
    (hrest : Creates createFiles fs base nodes outcomes made) :
    Creates createFiles fs base (.file name :: nodes) outcomes made
  /-- The name is no single name, so nothing is made of the tree. -/
  | refuse {fs base node nodes outcomes made} (hwanted : node.kind = .file → createFiles = true)
    (hname : Path.isSingleName node.name = false)
    (hrest : Creates createFiles fs base nodes outcomes made) :
    Creates createFiles fs base (node :: nodes)
      (⟨base, node.kind, some (.refused node.name)⟩ :: outcomes) made
  /-- A file is made, or not. -/
  | file {fs base name result built nodes outcomes made} (hfiles : createFiles = true)
    (hname : Path.isSingleName name = true)
    (hbuild : fs.build .file (Path.join base name) = (result, built))
    (hrest : Creates createFiles built base nodes outcomes made) :
    Creates createFiles fs base (.file name :: nodes)
      (.ofResult .file (Path.join base name) result :: outcomes) made
  /-- A directory is made, or not, and then the entries in it. -/
  | directory {fs base name children result built below entered nodes outcomes made}
    (hname : Path.isSingleName name = true)
    (hbuild : fs.build .directory (Path.join base name) = (result, built))
    (hbelow : Creates createFiles built (Path.join base name) children below entered)
    (hrest : Creates createFiles entered base nodes outcomes made) :
    Creates createFiles fs base (.directory name children :: nodes)
      (.ofResult .directory (Path.join base name) result :: below ++ outcomes) made

variable {createFiles : Bool} {fs entered made : FileSystem} {base name : String}
  {result : Except IoError Unit} {built : FileSystem} {outcomes : List Outcome} {nodes : List Node}

namespace CreateOptions

/-! ## One entry at a time -/

/-- The outcome of trying to make an entry says how that went. -/
theorem report_apply (attempt : StateM FileSystem (Except IoError Unit)) (kind : Kind) (path : String)
    (fs : FileSystem) :
    (do match ← attempt with
        | .ok () => return ⟨path, kind, none⟩
        | .error cause => return ⟨path, kind, some (.io cause)⟩ : StateM FileSystem Outcome) fs =
      (.ofResult kind path (attempt fs).1, (attempt fs).2) := by
  rw [bind_apply]
  rcases attempt fs with ⟨fault | ⟨⟩, made⟩ <;> rfl

/-- An entry is built, and the outcome says how that went. -/
theorem createEntry_apply {options : CreateOptions} (h : options.dryRun = false) {kind : Kind}
    {path : String} (hbuild : fs.build kind path = (result, built)) :
    options.createEntry (m := StateM FileSystem) kind path fs = (.ofResult kind path result, built) := by
  have hrun : options.createEntry (m := StateM FileSystem) kind path fs =
      (.ofResult kind path (fs.build kind path).1, (fs.build kind path).2) := by
    rw [createEntry, if_neg (by simp [h])]
    cases kind with
    | directory => exact report_apply (makePath path) .directory path fs
    | file => exact report_apply (makeFile path) .file path fs
  rw [hrun, hbuild]

end CreateOptions

namespace FileSystem

/-- What creating a tree comes to, without a dry run. -/
def createOne (fs : FileSystem) (createFiles : Bool) (base : String) (node : Node) :
    List Outcome × FileSystem :=
  (CreateOptions.mk createFiles false).createNode (m := StateM FileSystem) base node fs

/-- What creating trees comes to, without a dry run. -/
def createAll (fs : FileSystem) (createFiles : Bool) (base : String) (nodes : List Node) :
    List Outcome × FileSystem :=
  (CreateOptions.mk createFiles false).createNodes (m := StateM FileSystem) base nodes fs

theorem createOne_of_skip (hfiles : createFiles = false) (fs : FileSystem) (base name : String) :
    fs.createOne createFiles base (.file name) = ([], fs) := by
  rw [createOne, CreateOptions.createNode, if_pos (by simp [hfiles])]
  rfl

theorem createOne_of_refuse (node : Node) (hwanted : node.kind = .file → createFiles = true)
    (hname : Path.isSingleName node.name = false) (fs : FileSystem) (base : String) :
    fs.createOne createFiles base node = ([⟨base, node.kind, some (.refused node.name)⟩], fs) := by
  cases node with
  | file name =>
    have hsingle : (!Path.isSingleName name) = true := congrArg not hname
    rw [createOne, CreateOptions.createNode, if_neg (by simp [hwanted rfl]), if_pos hsingle]
    rfl
  | directory name children =>
    have hsingle : (!Path.isSingleName name) = true := congrArg not hname
    rw [createOne, CreateOptions.createNode, if_pos hsingle]
    rfl

theorem createOne_of_file (hfiles : createFiles = true) (hname : Path.isSingleName name = true)
    (hbuild : fs.build .file (Path.join base name) = (result, built)) :
    fs.createOne createFiles base (.file name) = ([.ofResult .file (Path.join base name) result], built) := by
  rw [createOne, CreateOptions.createNode, if_neg (by simp [hfiles]), if_neg (by simp [hname]), bind_apply,
    CreateOptions.createEntry_apply rfl hbuild]
  rfl

theorem createOne_of_directory {children : List Node} {below : List Outcome}
    (hname : Path.isSingleName name = true)
    (hbuild : fs.build .directory (Path.join base name) = (result, built))
    (hbelow : built.createAll createFiles (Path.join base name) children = (below, entered)) :
    fs.createOne createFiles base (.directory name children) =
      (.ofResult .directory (Path.join base name) result :: below, entered) := by
  rw [createOne, CreateOptions.createNode, if_neg (by simp [hname]), bind_apply,
    CreateOptions.createEntry_apply rfl hbuild, bind_apply]
  change (_ :: (built.createAll _ _ _).1, (built.createAll _ _ _).2) = _
  rw [hbelow]

theorem createAll_nil (fs : FileSystem) (createFiles : Bool) (base : String) :
    fs.createAll createFiles base [] = ([], fs) := rfl

/-- The first tree is created, and then the others where it has left off. -/
theorem createAll_cons (fs : FileSystem) (createFiles : Bool) (base : String) (node : Node)
    (rest : List Node) : fs.createAll createFiles base (node :: rest) =
      ((fs.createOne createFiles base node).1 ++
          ((fs.createOne createFiles base node).2.createAll createFiles base rest).1,
        ((fs.createOne createFiles base node).2.createAll createFiles base rest).2) := by
  rw [createAll, CreateOptions.createNodes, bind_apply, bind_apply]
  rfl

theorem createAll_singleton (fs : FileSystem) (createFiles : Bool) (base : String) (node : Node) :
    fs.createAll createFiles base [node] = fs.createOne createFiles base node := by
  rw [createAll_cons, createAll_nil, List.append_nil]

end FileSystem

/-- A tree is created as a list of one. -/
theorem CreateOptions.create_apply (createFiles : Bool) (base : String) (tree : Node) (fs : FileSystem) :
    (CreateOptions.mk createFiles false).create (m := StateM FileSystem) base tree fs =
      (⟨(fs.createAll createFiles base [tree]).1, false⟩, (fs.createAll createFiles base [tree]).2) := by
  rw [FileSystem.createAll_singleton]
  rfl

/-! ## Whole runs -/

/-- What the rules allow is what happens. -/
theorem Creates.createAll_eq (h : Creates createFiles fs base nodes outcomes made) :
    fs.createAll createFiles base nodes = (outcomes, made) := by
  induction h with
  | nil => rfl
  | skip hfiles _ ih => rw [FileSystem.createAll_cons, FileSystem.createOne_of_skip hfiles, ih, List.nil_append]
  | refuse hwanted hname _ ih =>
    rw [FileSystem.createAll_cons, FileSystem.createOne_of_refuse _ hwanted hname, ih, List.singleton_append]
  | file hfiles hname hbuild _ ih =>
    rw [FileSystem.createAll_cons, FileSystem.createOne_of_file hfiles hname hbuild, ih, List.singleton_append]
  | directory hname hbuild _ _ ihbelow ih =>
    rw [FileSystem.createAll_cons, FileSystem.createOne_of_directory hname hbuild ihbelow, ih]

mutual

/-- A tree is created by the rules, and the trees behind it as they are. -/
theorem creates_createOne (createFiles : Bool) (fs : FileSystem) (base : String) {rest : List Node}
    {outcomes : List Outcome} {made : FileSystem} : (node : Node) →
    Creates createFiles (fs.createOne createFiles base node).2 base rest outcomes made →
    Creates createFiles fs base (node :: rest) ((fs.createOne createFiles base node).1 ++ outcomes) made
  | .file name, hrest => by
    cases hfiles : createFiles with
    | false =>
      subst hfiles
      rw [FileSystem.createOne_of_skip rfl] at hrest ⊢
      exact .skip rfl hrest
    | true =>
      subst hfiles
      cases hname : Path.isSingleName name with
      | false =>
        rw [FileSystem.createOne_of_refuse (.file name) (fun _ => rfl) hname] at hrest ⊢
        exact .refuse (fun _ => rfl) hname hrest
      | true =>
        rw [FileSystem.createOne_of_file rfl hname rfl] at hrest ⊢
        exact .file rfl hname rfl hrest
  | .directory name children, hrest => by
    cases hname : Path.isSingleName name with
    | false =>
      rw [FileSystem.createOne_of_refuse (.directory name children) nofun hname] at hrest ⊢
      exact .refuse nofun hname hrest
    | true =>
      rw [FileSystem.createOne_of_directory hname rfl rfl] at hrest ⊢
      exact .directory hname rfl (creates_createAll createFiles _ _ children) hrest

/-- Trees are created by the rules. -/
theorem creates_createAll (createFiles : Bool) (fs : FileSystem) (base : String) : (nodes : List Node) →
    Creates createFiles fs base nodes (fs.createAll createFiles base nodes).1
      (fs.createAll createFiles base nodes).2
  | [] => .nil
  | node :: rest => by
    rw [FileSystem.createAll_cons]
    exact creates_createOne createFiles fs base node (creates_createAll createFiles _ base rest)

end

/-- The rules say exactly what happens. -/
theorem creates_iff : Creates createFiles fs base nodes outcomes made ↔
    fs.createAll createFiles base nodes = (outcomes, made) := by
  refine ⟨Creates.createAll_eq, fun h => ?_⟩
  have hrun := creates_createAll createFiles fs base nodes
  rwa [h] at hrun

end TreeSketch
