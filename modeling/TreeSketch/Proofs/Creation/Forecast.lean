import TreeSketch.Proofs.Creation.DryRun
import TreeSketch.Proofs.Creation.Repetition
import TreeSketch.Proofs.Tree.Located

/-!
# A dry run foretells the run

Where nothing can go wrong, creating a tree does what a dry run reports: every entry that is wanted is made at
its place and nothing else is. Nothing goes wrong when the names can be names of entries, the entries of a
directory have different names, and the base hosts the tree: it is an empty directory, or one that can be made
and is empty then (`runsAsPlanned_of_hosts`).

The work is in `exists_createOne`, which is about a base that is there. Each entry is made where nothing
stands yet, as what was made before it lies below other names.
-/

namespace TreeSketch

open FileSystem (IsEntryName)

namespace Node

/-- The entries of a tree that are created. -/
def wanted (createFiles : Bool) (node : Node) : List (List String × Kind) :=
  node.located.filter fun entry => createFiles || entry.2 = .directory

/-- The entries of several trees that are created. -/
def wantedAll (createFiles : Bool) (nodes : List Node) : List (List String × Kind) :=
  (locatedAll nodes).filter fun entry => createFiles || entry.2 = .directory

theorem wanted_file (createFiles : Bool) (name : String) :
    (file name).wanted createFiles = if createFiles then [([name], .file)] else [] := by
  cases createFiles <;> rfl

theorem wanted_directory (createFiles : Bool) (name : String) (children : List Node) :
    (directory name children).wanted createFiles =
      ([name], .directory) :: (wantedAll createFiles children).map fun entry => (name :: entry.1, entry.2) := by
  rw [wanted, located, List.filter_cons_of_pos (by simp), List.filter_map]
  rfl

theorem wantedAll_cons (createFiles : Bool) (node : Node) (rest : List Node) :
    wantedAll createFiles (node :: rest) = node.wanted createFiles ++ wantedAll createFiles rest := by
  rw [wantedAll, locatedAll, List.filter_append]
  rfl

end Node

/-! ## What a dry run reports -/

/-- The report on an entry that is created in the directory `base`. -/
def Outcome.success (base : String) (entry : List String × Kind) : Outcome :=
  ⟨entry.1.foldl Path.join base, entry.2, none⟩

/-- What is reported on the entries of a directory. -/
theorem map_success_map (base name : String) (entries : List (List String × Kind)) :
    (entries.map fun entry => (name :: entry.1, entry.2)).map (Outcome.success base) =
      entries.map (Outcome.success (Path.join base name)) := by
  rw [List.map_map]
  rfl

namespace CreateOptions

mutual

/-- A dry run reports a success for every entry that is wanted. -/
theorem planned_eq_map_wanted (createFiles : Bool) (base : String) {depth : Nat} : (node : Node) →
    (∀ entry ∈ node.preorder depth, Path.isSingleName entry.2.name = true) →
    planned createFiles base node = (node.wanted createFiles).map (Outcome.success base)
  | .file name, hnames => by
    have hname : Path.isSingleName name = true := hnames _ List.mem_cons_self
    rw [planned, Node.wanted_file]
    cases createFiles with
    | false => rfl
    | true =>
      rw [if_neg (by simp), if_neg (by simp [hname])]
      rfl
  | .directory name children, hnames => by
    have hname : Path.isSingleName name = true := hnames _ List.mem_cons_self
    have hbelow := plannedAll_eq_map_wantedAll createFiles (Path.join base name) children
      fun entry hentry => hnames entry (List.mem_cons_of_mem _ hentry)
    rw [planned, Node.wanted_directory, if_neg (by simp [hname]), hbelow, List.map_cons, map_success_map]
    rfl

theorem plannedAll_eq_map_wantedAll (createFiles : Bool) (base : String) {depth : Nat} :
    (nodes : List Node) →
    (∀ entry ∈ Node.preorderAll depth nodes, Path.isSingleName entry.2.name = true) →
    plannedAll createFiles base nodes = (Node.wantedAll createFiles nodes).map (Outcome.success base)
  | [], _ => rfl
  | node :: rest, hnames => by
    rw [Node.preorderAll, List.forall_mem_append] at hnames
    rw [plannedAll, Node.wantedAll_cons, List.map_append, planned_eq_map_wanted createFiles base node hnames.1,
      plannedAll_eq_map_wantedAll createFiles base rest hnames.2]

end

end CreateOptions

/-! ## What a run adds -/

namespace FileSystem

/-- What stands in `made` is what stands in `fs`, and an entry for each of `entries` below `place`. -/
structure Plants (fs : FileSystem) (place : List String) (entries : List (List String × Kind))
    (made : FileSystem) : Prop where
  pathLimit : made.pathLimit = fs.pathLimit
  find?_eq_some_iff : ∀ {found entry}, made.find? found = some entry ↔ fs.find? found = some entry ∨
    ∃ planted ∈ entries, found = place ++ planted.1 ∧ entry = planted.2.blank

namespace Plants

variable {fs more made : FileSystem} {place : List String} {entries others : List (List String × Kind)}

theorem nil (fs : FileSystem) (place : List String) : fs.Plants place [] fs :=
  ⟨rfl, by simp⟩

theorem append (h : fs.Plants place entries more) (h' : more.Plants place others made) :
    fs.Plants place (entries ++ others) made := by
  refine ⟨h'.pathLimit.trans h.pathLimit, fun {found entry} => ?_⟩
  rw [h'.find?_eq_some_iff, h.find?_eq_some_iff, or_assoc]
  simp only [List.mem_append, or_and_right, exists_or]

/-- Entries that are planted in a directory are planted below the one that it stands in. -/
theorem above {name : String} (h : fs.Plants (place ++ [name]) entries made) :
    fs.Plants place (entries.map fun entry => (name :: entry.1, entry.2)) made := by
  refine ⟨h.pathLimit, fun {found entry} => ?_⟩
  rw [h.find?_eq_some_iff]
  simp only [List.mem_map, exists_exists_and_eq_and, List.append_assoc, List.singleton_append]

/-- A new entry is planted. -/
theorem of_add {name : String} (hnone : fs.find? (place ++ [name]) = none) (kind : Kind) :
    fs.Plants place [([name], kind)] (fs.add (place ++ [name]) kind.blank) := by
  refine ⟨rfl, fun {found entry} => ?_⟩
  by_cases hfound : found = place ++ [name]
  · subst hfound
    rw [find?_add_self (by simp), hnone]
    simp [eq_comm]
  · rw [find?_add_of_ne hfound]
    simp [hfound]

theorem toExtends (h : fs.Plants place entries made) : fs.Extends made :=
  ⟨h.pathLimit, fun hentry => h.find?_eq_some_iff.mpr (.inl hentry)⟩

/-- Where nothing is planted, nothing is new. -/
theorem find?_eq_none (h : fs.Plants place entries made) {found : List String} (hnone : fs.find? found = none)
    (hne : ∀ planted ∈ entries, found ≠ place ++ planted.1) : made.find? found = none := by
  rw [Option.eq_none_iff_forall_ne_some]
  intro entry hentry
  rcases h.find?_eq_some_iff.mp hentry with hold | ⟨planted, hplanted, hfound, -⟩
  · exact absurd (hnone.symm.trans hold) nofun
  · exact hne planted hplanted hfound

end Plants

variable {fs : FileSystem} {base : String} {place : List String}

/-- Trees whose entries have names that entries can have, different ones in each directory. -/
structure Storable (entries : List (Nat × Node)) : Prop where
  names : ∀ entry ∈ entries, IsEntryName entry.2.name
  distinct : ∀ entry ∈ entries, (entry.2.children.map (·.name)).Nodup

mutual

/-- Creating a tree in a base where nothing stands in its way makes what is wanted, and no more. -/
theorem exists_createOne (createFiles : Bool) {depth : Nat} : (node : Node) →
    {fs : FileSystem} → {base : String} → {place : List String} → Storable (node.preorder depth) →
    fs.Stands base place → (∀ below, fs.find? (place ++ node.name :: below) = none) →
    ∃ made, fs.createOne createFiles base node =
        ((node.wanted createFiles).map (Outcome.success base), made) ∧
      fs.Plants place (node.wanted createFiles) made
  | .file name, fs, base, place, htree, hbase, hclear => by
    have hname : IsEntryName name := htree.names _ List.mem_cons_self
    rw [Node.wanted_file]
    cases createFiles with
    | false => exact ⟨fs, createOne_of_skip rfl fs base name, .nil fs place⟩
    | true =>
      have hnone := hclear []
      exact ⟨_, createOne_of_file rfl hname.single (hbase.build_of_none hname hnone .file),
        Plants.of_add hnone .file⟩
  | .directory name children, fs, base, place, htree, hbase, hclear => by
    have hname : IsEntryName name := htree.names _ List.mem_cons_self
    have hnone := hclear []
    have hplants := Plants.of_add hnone .directory
    have hbuild := hbase.build_of_none hname hnone .directory
    have hinside := (hbase.of_extends hplants.toExtends).into hname (find?_add_self (by simp) _)
    have hbelow : Storable (Node.preorderAll (depth + 1) children) :=
      ⟨fun entry hentry => htree.names entry (List.mem_cons_of_mem _ hentry),
        fun entry hentry => htree.distinct entry (List.mem_cons_of_mem _ hentry)⟩
    obtain ⟨made, hcreate, hmade⟩ := exists_createAll createFiles children hbelow
      (htree.distinct _ List.mem_cons_self) hinside fun child _ below => by
        rw [List.append_assoc]
        exact hplants.find?_eq_none (hclear (child.name :: below)) (by simp)
    refine ⟨made, ?_, ?_⟩
    · rw [createOne_of_directory hname.single hbuild hcreate, Node.wanted_directory, List.map_cons,
        map_success_map]
      rfl
    · rw [Node.wanted_directory]
      exact hplants.append hmade.above

/-- Creating trees in a base where nothing stands in their way makes what is wanted, and no more. -/
theorem exists_createAll (createFiles : Bool) {depth : Nat} : (nodes : List Node) →
    {fs : FileSystem} → {base : String} → {place : List String} →
    Storable (Node.preorderAll depth nodes) → (nodes.map (·.name)).Nodup → fs.Stands base place →
    (∀ node ∈ nodes, ∀ below, fs.find? (place ++ node.name :: below) = none) →
    ∃ made, fs.createAll createFiles base nodes =
        ((Node.wantedAll createFiles nodes).map (Outcome.success base), made) ∧
      fs.Plants place (Node.wantedAll createFiles nodes) made
  | [], fs, base, place, _, _, _, _ => ⟨fs, rfl, .nil fs place⟩
  | node :: rest, fs, base, place, htrees, hdistinct, hbase, hclear => by
    rw [List.map_cons, List.nodup_cons] at hdistinct
    rw [List.forall_mem_cons] at hclear
    rw [Node.preorderAll] at htrees
    obtain ⟨first, hfirst, hplants⟩ := exists_createOne createFiles node
      ⟨(List.forall_mem_append.mp htrees.names).1, (List.forall_mem_append.mp htrees.distinct).1⟩
      hbase hclear.1
    -- What was made for the first tree lies below a name that no other tree has.
    obtain ⟨made, hrest, hmade⟩ := exists_createAll createFiles rest
      ⟨(List.forall_mem_append.mp htrees.names).2, (List.forall_mem_append.mp htrees.distinct).2⟩
      hdistinct.2 (hbase.of_extends hplants.toExtends) fun other hother below => by
        refine hplants.find?_eq_none (hclear.2 other hother below) fun planted hplanted heq => ?_
        have hhead := Node.head?_of_mem_located (List.mem_of_mem_filter hplanted)
        rw [← List.append_cancel_left heq] at hhead
        exact hdistinct.1 (Option.some.inj hhead ▸ List.mem_map_of_mem hother)
    refine ⟨made, ?_, ?_⟩
    · rw [createAll_cons, hfirst, hrest, Node.wantedAll_cons, List.map_append]
    · rw [Node.wantedAll_cons]
      exact hplants.append hmade

end

/-! ## Bases that are made along the way -/

/-- Nothing stands below a place. -/
def Clear (fs : FileSystem) (place : List String) : Prop :=
  ∀ below ≠ [], fs.find? (place ++ below) = none

/-- The base, which is at a place, can take a tree. -/
inductive Hosts (fs : FileSystem) (base : String) (place : List String) : Prop
  /-- The base is an empty directory. -/
  | stands (hstatus : fs.status base = .directory)
    (hfollow : fs.follow [] (Path.steps base) = .ok place) (hclear : fs.Clear place)
  /-- The base does not exist, can be made, and nothing stands below it then. -/
  | makeable {made : FileSystem} (hstatus : fs.status base = .absent)
    (hmake : makePath (m := StateM FileSystem) base fs = (.ok (), made))
    (hfollow : made.follow [] (Path.steps base) = .ok place) (hclear : made.Clear place)

/-- A directory that shows at a path can be a base. -/
theorem stands_of_status (hunlimited : fs.pathLimit = none) (hstatus : fs.status base = .directory)
    (hfollow : fs.follow [] (Path.steps base) = .ok place) : fs.Stands base place := by
  obtain ⟨hfits, found, hleads⟩ := leads_of_status hstatus
  obtain rfl := hleads.eq_of_follow hfollow
  exact ⟨hleads, hfits.noZero, hunlimited⟩

/-- Making the base before a tree in it makes no difference. -/
theorem createOne_of_makePath {made : FileSystem} (hunlimited : fs.pathLimit = none)
    (hmake : makePath (m := StateM FileSystem) base fs = (.ok (), made)) {createFiles : Bool} {node : Node}
    (hname : IsEntryName node.name) (hwanted : node.kind = .file → createFiles = true) :
    fs.createOne createFiles base node = made.createOne createFiles base node := by
  obtain ⟨place, hstands⟩ := stands_of_makePath hunlimited hmake
  have hbuild : ∀ kind, fs.build kind (Path.join base node.name) = made.build kind (Path.join base node.name) :=
    fun kind => (build_of_makePath hunlimited hname hmake kind).trans (hstands.build_join hname kind).symm
  cases node with
  | file name =>
    have hfiles := hwanted rfl
    exact (createOne_of_file hfiles hname.single (hbuild .file)).trans
      (createOne_of_file hfiles hname.single rfl).symm
  | directory name children =>
    exact (createOne_of_directory hname.single (hbuild .directory) rfl).trans
      (createOne_of_directory hname.single rfl rfl).symm

/-- What is planted where nothing stands below is all that stands there. -/
theorem Plants.find?_below {entries : List (List String × Kind)} {made : FileSystem}
    (h : fs.Plants place entries made) (hclear : fs.Clear place) {below : List String} (hne : below ≠ [])
    (entry : Entry) : made.find? (place ++ below) = some entry ↔
      ∃ kind, (below, kind) ∈ entries ∧ entry = kind.blank := by
  rw [h.find?_eq_some_iff, hclear below hne]
  constructor
  · rintro (hold | ⟨planted, hplanted, heq, hentry⟩)
    · cases hold
    · exact ⟨planted.2, List.append_cancel_left heq ▸ hplanted, hentry⟩
  · rintro ⟨kind, hplanted, hentry⟩
    exact .inr ⟨(below, kind), hplanted, rfl, hentry⟩

/-- In a base with nothing below it, what is wanted of a tree is all that is made. -/
theorem Stands.exists_createOne (hbase : fs.Stands base place) (hclear : fs.Clear place)
    (createFiles : Bool) {tree : Node} (htree : Storable (tree.preorder 0)) :
    ∃ made, fs.createOne createFiles base tree =
        ((tree.wanted createFiles).map (Outcome.success base), made) ∧
      ∀ below ≠ [], ∀ entry, made.find? (place ++ below) = some entry ↔
        ∃ kind, (below, kind) ∈ tree.wanted createFiles ∧ entry = kind.blank := by
  obtain ⟨made, hcreate, hplants⟩ := FileSystem.exists_createOne createFiles tree htree hbase
    fun below => hclear (tree.name :: below) (List.cons_ne_nil _ _)
  exact ⟨made, hcreate, fun below hne => hplants.find?_below hclear hne⟩

/-- In a base that can take a tree, it is so as well. -/
theorem Hosts.exists_createOne (h : fs.Hosts base place) (hunlimited : fs.pathLimit = none)
    (createFiles : Bool) {tree : Node} (htree : Storable (tree.preorder 0)) :
    ∃ made, fs.createOne createFiles base tree =
        ((tree.wanted createFiles).map (Outcome.success base), made) ∧
      ∀ below ≠ [], ∀ entry, made.find? (place ++ below) = some entry ↔
        ∃ kind, (below, kind) ∈ tree.wanted createFiles ∧ entry = kind.blank := by
  cases h with
  | stands hstatus hfollow hclear =>
    exact (stands_of_status hunlimited hstatus hfollow).exists_createOne hclear createFiles htree
  | @makeable before hstatus hmake hfollow hclear =>
    have hname : IsEntryName tree.name := htree.names (0, tree) (Node.walk_eq_preorder tree ▸ tree.mem_walk_self)
    by_cases hwanted : tree.kind = .file → createFiles = true
    · obtain ⟨found, hstands⟩ := stands_of_makePath hunlimited hmake
      obtain rfl := hstands.leads.eq_of_follow hfollow
      rw [createOne_of_makePath hunlimited hmake hname hwanted]
      exact hstands.exists_createOne hclear createFiles htree
    · -- Nothing is wanted of a file, so not even the base is made.
      obtain ⟨hfile, hfiles⟩ : tree.kind = .file ∧ createFiles = false := by simpa using hwanted
      subst hfiles
      cases tree with
      | directory name children => cases hfile
      | file name =>
        refine ⟨fs, createOne_of_skip rfl fs base name, fun below hne entry => ⟨fun hentry => ?_, ?_⟩⟩
        · have hkept := (extends_of_makePath hmake).kept hentry
          exact absurd ((hclear below hne).symm.trans hkept) nofun
        · rintro ⟨kind, hmem, -⟩
          exact absurd hmem List.not_mem_nil

end FileSystem

/-- A run on a tree in a base that is at a place does what a dry run reports. -/
structure RunsAsPlanned (createFiles : Bool) (tree : Node) (fs : FileSystem) (base : String)
    (place : List String) : Prop where
  /-- A run and a dry run have the same outcomes. -/
  outcomes_eq :
    ((CreateOptions.mk createFiles false).create (m := StateM FileSystem) base tree fs).1.outcomes =
      ((CreateOptions.mk createFiles true).create (m := StateM FileSystem) base tree fs).1.outcomes
  /-- They are a success for every entry that is wanted, in the order of the tree. -/
  outcomes_planned :
    ((CreateOptions.mk createFiles true).create (m := StateM FileSystem) base tree fs).1.outcomes =
      (tree.wanted createFiles).map (Outcome.success base)
  /-- After the run, these entries are what stands below the base, and files are empty. -/
  find?_below : ∀ below ≠ [], ∀ entry,
    ((CreateOptions.mk createFiles false).create (m := StateM FileSystem) base tree fs).2.find?
      (place ++ below) = some entry ↔ ∃ kind, (below, kind) ∈ tree.wanted createFiles ∧ entry = kind.blank
  /-- Each of them shows at the path that is reported. -/
  status : ∀ planned ∈ tree.wanted createFiles,
    ((CreateOptions.mk createFiles false).create (m := StateM FileSystem) base tree fs).2.status
      (planned.1.foldl Path.join base) = planned.2.status

/-- Where nothing is in the way of a tree, a run does what a dry run reports. -/
theorem runsAsPlanned_of_hosts (createFiles : Bool) {tree : Node}
    (hnames : ∀ entry ∈ tree.walk, IsEntryName entry.2.name)
    (hdistinct : ∀ entry ∈ tree.walk, (entry.2.children.map (·.name)).Nodup) {fs : FileSystem}
    {base : String} {place : List String} (hunlimited : fs.pathLimit = none) (hbase : fs.Hosts base place) :
    RunsAsPlanned createFiles tree fs base place := by
  rw [Node.walk_eq_preorder] at hnames hdistinct
  obtain ⟨made, hcreate, hmade⟩ := hbase.exists_createOne hunlimited createFiles ⟨hnames, hdistinct⟩
  have hplanned := CreateOptions.planned_eq_map_wanted createFiles base tree
    fun entry hentry => (hnames entry hentry).single
  have hdry : (CreateOptions.mk createFiles true).create (m := StateM FileSystem) base tree fs = (_, fs) :=
    congrFun (CreateOptions.create_of_dryRun rfl base tree) fs
  have hrun := CreateOptions.create_apply createFiles base tree fs
  have hshows := (creates_createAll createFiles fs base [tree]).shows
  rw [FileSystem.createAll_singleton, hcreate] at hrun hshows
  have hfiles := congrArg Prod.snd hrun
  refine ⟨?_, (congrArg (·.1.outcomes) hdry).trans hplanned, ?_, fun planned hmem => ?_⟩
  · exact (congrArg (·.1.outcomes) hrun).trans (hplanned.symm.trans (congrArg (·.1.outcomes) hdry).symm)
  · rw [hfiles]
    exact hmade
  · have hshown : (Outcome.success base planned).Shows made := hshows _ (List.mem_map_of_mem hmem)
    rw [hfiles]
    exact hshown rfl

/-- A tree is created in a directory that does not exist yet. -/
theorem runsAsPlanned_of_hosts_new :
    RunsAsPlanned true (.directory "app" [.file "main", .directory "lib" [.file "main"]])
      ⟨[(["home"], .directory)], none⟩ "home/out" ["home", "out"] := by
  have hmake : makePath (m := StateM FileSystem) "home/out" ⟨[(["home"], .directory)], none⟩ =
      (.ok (), ⟨[(["home", "out"], .directory), (["home"], .directory)], none⟩) := by rfl
  have hbase : FileSystem.Hosts ⟨[(["home"], .directory)], none⟩ "home/out" ["home", "out"] := by
    refine .makeable (by decide +kernel) hmake (by decide +kernel) fun below hne => ?_
    obtain ⟨name, rest, rfl⟩ := List.exists_cons_of_ne_nil hne
    rfl
  exact runsAsPlanned_of_hosts true (by decide +kernel) (by decide +kernel) rfl hbase

/-- A base that is made for a tree need not be empty then: its own path may leave a directory below it. -/
theorem not_forall_runsAsPlanned_of_makePath :
    ¬ ∀ (tree : Node) (fs made : FileSystem) (base : String) (place : List String),
      (∀ entry ∈ tree.walk, IsEntryName entry.2.name) →
      (∀ entry ∈ tree.walk, (entry.2.children.map (·.name)).Nodup) → fs.pathLimit = none →
      fs.status base = .absent → makePath (m := StateM FileSystem) base fs = (.ok (), made) →
      made.follow [] (Path.steps base) = .ok place → RunsAsPlanned true tree fs base place := by
  intro hall
  -- The directory `b/c` has to be made on the way to `b/c/..`, which is `b`.
  have hmake : makePath (m := StateM FileSystem) "b/c/.." ⟨[], none⟩ =
      (.ok (), ⟨[(["b", "c"], .directory), (["b"], .directory)], none⟩) := by rfl
  have hplanned := hall (.directory "app" []) ⟨[], none⟩ _ "b/c/.." ["b"] (by decide +kernel)
    (by decide +kernel) rfl (by decide +kernel) hmake (by decide +kernel)
  have hthere : ((CreateOptions.mk true false).create (m := StateM FileSystem) "b/c/.."
      (.directory "app" []) ⟨[], none⟩).2.find? (["b"] ++ ["c"]) = some .directory := by decide +kernel
  obtain ⟨kind, hmem, -⟩ := (hplanned.find?_below ["c"] (by decide) .directory).mp hthere
  have hname : ["c"] = ["app"] := congrArg Prod.fst (List.mem_singleton.mp hmem)
  exact absurd hname (by decide)

end TreeSketch
