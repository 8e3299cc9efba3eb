import TreeSketch.Proofs.Creation.Containment
import TreeSketch.Proofs.Creation.Repetition
import TreeSketch.Proofs.Files.Beside

/-!
# Trees that are created together are independent

Each of several trees is created in a directory of its own, and the directories have different names, whatever
the numbers are (`numberedName_injective`). So what is created for one tree is beside what is created for
another one (`Within.beside`): they share nothing but the directories on the way to the base. Creation
commutes with growth beside it (`Creates.exists_beside`), and by induction over the order in which the trees
are created, each report is the one that the tree has alone, and what stands at the end is what stands after
creating one of the trees alone (`createInOrder_alone`).
-/

namespace TreeSketch

open FileSystem (Adds Beside Joins)

variable {createFiles : Bool} {fs more made : FileSystem} {base : String} {own : List String}

/-! ## Creating beside others -/

/-- Trees are created with the same outcomes when other entries have been added beside. -/
theorem Creates.exists_beside {nodes : List Node} {outcomes : List Outcome}
    (h : Creates createFiles fs base nodes outcomes made) (hbase : .up ∉ Path.steps base)
    (hrooted : fs.Rooted) (hown : own <+: Path.names base) (hmore : Adds (Beside own) fs more) :
    ∃ grown, Creates createFiles more base nodes outcomes grown ∧ Joins made more grown := by
  -- What was added beside is still all that was added when an entry has been made in both file systems.
  induction h generalizing more with
  | nil => exact ⟨more, .nil, .of_extends hmore.toExtends⟩
  | skip hfiles _ ih =>
    obtain ⟨grown, hgrown, hjoins⟩ := ih hbase hrooted hown hmore
    exact ⟨grown, .skip hfiles hgrown, hjoins⟩
  | refuse hwanted hname _ ih =>
    obtain ⟨grown, hgrown, hjoins⟩ := ih hbase hrooted hown hmore
    exact ⟨grown, .refuse hwanted hname hgrown, hjoins⟩
  | file hfiles hname hbuild hrest ih =>
    have hgrows := FileSystem.grows_build hname hbuild
    obtain ⟨built, hbuilt, hjoins⟩ := (FileSystem.builds_of_build_eq hname hbase hbuild).exists_beside
      hname hbase hrooted hown hmore
    obtain ⟨grown, hgrown, hlast⟩ := ih hbase (hrooted.of_grows hgrows) hown
      (hjoins.adds_left hgrows.toExtends hmore)
    exact ⟨grown, .file hfiles hname (hbuilt.build_eq hname) hgrown, hjoins.trans hrest.toExtends hlast⟩
  | directory hname hbuild hbelow hrest ihbelow ih =>
    have hgrows := FileSystem.grows_build hname hbuild
    have hinside := Path.up_not_mem_steps_join hname hbase
    have hownbelow := hown.trans (Path.names_join hname _ ▸ List.prefix_append _ _)
    obtain ⟨built, hbuilt, hjoins⟩ := (FileSystem.builds_of_build_eq hname hbase hbuild).exists_beside
      hname hbase hrooted hown hmore
    obtain ⟨entered, hentered, hnext⟩ := ihbelow hinside (hrooted.of_grows hgrows) hownbelow
      (hjoins.adds_left hgrows.toExtends hmore)
    have hjoined := hjoins.trans hbelow.toExtends hnext
    obtain ⟨grown, hgrown, hlast⟩ := ih hbase (hrooted.of_grows (hgrows.trans hbelow.grows)) hown
      (hjoined.adds_left (hgrows.toExtends.trans hbelow.toExtends) hmore)
    exact ⟨grown, .directory hname (hbuilt.build_eq hname) hentered hgrown,
      hjoined.trans hrest.toExtends hlast⟩

/-- What is created in one place is beside another place as deep. -/
theorem Within.beside {other place : List String} {entry : Entry}
    (h : Within createFiles other place entry) (hlength : own.length = other.length) (hne : own ≠ other) :
    Beside own place entry := by
  rcases h with ⟨hway, rfl⟩ | ⟨below, hbelow, rfl, -⟩
  · exact ⟨fun hown => hne ((hown.trans hway).eq_of_length hlength), fun _ => rfl⟩
  · refine ⟨fun hown => hne ?_, fun hway => ?_⟩
    · have hboth := List.prefix_of_prefix_length_le hown (List.prefix_append other below)
        (Nat.le_of_eq hlength)
      exact hboth.eq_of_length hlength
    · have hshort := hway.length_le
      rw [List.length_append] at hshort
      exact absurd (List.length_eq_zero_iff.mp (by omega)) hbelow

namespace CreateOptions

/-- A tree is created with the same report when other entries have been added beside. -/
theorem exists_create_beside (options : CreateOptions) (hbase : .up ∉ Path.steps base)
    (hrooted : fs.Rooted) (hmore : Adds (Beside (Path.names base)) fs more) (tree : Node) :
    ∃ grown, options.create (m := StateM FileSystem) base tree more =
        ((options.create (m := StateM FileSystem) base tree fs).1, grown) ∧
      Joins (options.create (m := StateM FileSystem) base tree fs).2 more grown := by
  cases hdry : options.dryRun with
  | true =>
    rw [create_of_dryRun hdry]
    exact ⟨more, rfl, .of_extends hmore.toExtends⟩
  | false =>
    obtain ⟨createFiles, dryRun⟩ := options
    subst hdry
    obtain ⟨grown, hgrown, hjoins⟩ := (creates_createAll createFiles fs base [tree]).exists_beside hbase
      hrooted (List.prefix_refl _) hmore
    rw [create_apply, create_apply, hgrown.createAll_eq]
    exact ⟨grown, rfl, hjoins⟩

/-! ## Numbered directories -/

/-- The name of the directory of a number. -/
def numberedName (number : Nat) : String :=
  "tree_" ++ (if number < 10 then "0" else "") ++ toString number

/-- Different numbers have directories with different names. -/
theorem numberedName_injective : Function.Injective numberedName := by
  -- Read as digits, the letters behind the underscore are the number.
  have hdigits (number : Nat) :
      Nat.ofDigitChars 10 ((numberedName number).toList.drop 5) 0 = number := by
    have hchars : (numberedName number).toList.drop 5 =
        (if number < 10 then "0" else "").toList ++ (toString number).toList := by
      rw [numberedName, String.append_assoc, String.toList_append, String.toList_append]
      rfl
    rw [hchars]
    split
    · exact Text.ofDigitChars_toString number
    · exact Text.ofDigitChars_toString number
  intro number other h
  rw [← hdigits number, h, hdigits other]

/-- The directory of a number stands in the base. -/
theorem names_numberedBase (base : String) (number : Nat) :
    Path.names (numberedBase base number) = Path.names base ++ [numberedName number] :=
  Path.names_join (isSingleName_numbered number) base

theorem up_not_mem_steps_numberedBase (hbase : .up ∉ Path.steps base) (number : Nat) :
    .up ∉ Path.steps (numberedBase base number) :=
  Path.up_not_mem_steps_join (isSingleName_numbered number) hbase

/-- What is created in the directory of a number is beside the directory of another number. -/
theorem beside_numberedBase {number other : Nat} (hne : number ≠ other) {place : List String}
    {entry : Entry} (h : Within createFiles (Path.names (numberedBase base other)) place entry) :
    Beside (Path.names (numberedBase base number)) place entry := by
  refine h.beside (by simp [names_numberedBase]) fun heq => hne ?_
  rw [names_numberedBase, names_numberedBase] at heq
  exact numberedName_injective (List.cons.inj (List.append_cancel_left heq)).1

/-! ## Orders of creation -/

section

variable {m : Type → Type} [Monad m] [FileAccess m]

/-- Creates a tree in the directory of its number. -/
def createNumbered (options : CreateOptions) (base : String) (numbered : Node × Nat) : m CreationReport :=
  options.create (numberedBase base numbered.2) numbered.1

/-- Creates trees in the directories of their numbers, in the order of the list. -/
def createInOrder (options : CreateOptions) (base : String) (order : List (Node × Nat)) :
    m (List CreationReport) :=
  order.mapM (options.createNumbered base)

/-- Trees that are created together are created in the order of their numbers. -/
theorem createFrom_eq_createInOrder [LawfulMonad m] (options : CreateOptions) (base : String)
    (trees : List Node) (number : Nat) : options.createFrom (m := m) base number trees =
      options.createInOrder base (trees.zipIdx number) := by
  induction trees generalizing number with
  | nil => rw [createFrom, createInOrder, List.zipIdx_nil, List.mapM_nil]
  | cons tree rest ih =>
    rw [createFrom, ih, createInOrder, createInOrder, List.zipIdx_cons, List.mapM_cons, createNumbered]

end

/-- Creating one more tree first is creating it and then the others. -/
theorem createInOrder_cons_apply (options : CreateOptions) (first : Node × Nat)
    (rest : List (Node × Nat)) {report : CreationReport} {grown : FileSystem}
    (h : options.createNumbered (m := StateM FileSystem) base first more = (report, grown)) :
    options.createInOrder (m := StateM FileSystem) base (first :: rest) more =
      (report :: (options.createInOrder (m := StateM FileSystem) base rest grown).1,
        (options.createInOrder (m := StateM FileSystem) base rest grown).2) := by
  rw [createInOrder, List.mapM_cons, bind_apply, h]
  rfl

/-- In any order, trees with different numbers have the reports that they have alone, and what stands
afterwards is what stood before and what each of them adds alone. -/
theorem createInOrder_alone (options : CreateOptions) (hbase : .up ∉ Path.steps base)
    (hrooted : fs.Rooted) {order : List (Node × Nat)} (hnumbers : (order.map Prod.snd).Nodup)
    (hmore : ∀ numbered ∈ order, Adds (Beside (Path.names (numberedBase base numbered.2))) fs more) :
    let alone := fun numbered => options.createNumbered (m := StateM FileSystem) base numbered fs
    let together := options.createInOrder (m := StateM FileSystem) base order more
    together.1 = order.map (fun numbered => (alone numbered).1) ∧ more.Extends together.2 ∧
      ∀ place entry, together.2.find? place = some entry ↔ more.find? place = some entry ∨
        ∃ numbered ∈ order, (alone numbered).2.find? place = some entry := by
  induction order generalizing more with
  | nil => exact ⟨rfl, FileSystem.Extends.refl more, fun place entry => by simp; rfl⟩
  | cons first rest ih =>
    obtain ⟨hfirst, hrest⟩ := List.nodup_cons.mp hnumbers
    rw [List.forall_mem_cons] at hmore
    have hdown := up_not_mem_steps_numberedBase hbase first.2
    obtain ⟨grown, hgrown, hjoins⟩ := options.exists_create_beside hdown hrooted hmore.1 first.1
    -- For the trees that come later, what the first one has added is beside as well.
    have hbeside : ∀ numbered ∈ rest,
        Adds (Beside (Path.names (numberedBase base numbered.2))) fs grown := by
      intro numbered hmem
      have hne : numbered.2 ≠ first.2 := fun heq => hfirst (heq ▸ List.mem_map_of_mem hmem)
      have halone := (options.adds_create hdown first.1 fs).mono fun _ _ => beside_numberedBase hne
      exact hjoins.adds halone (hmore.2 numbered hmem)
    obtain ⟨hreports, hextends, hplaces⟩ := ih hrest hbeside
    rw [createInOrder_cons_apply options first rest hgrown]
    refine ⟨congrArg _ hreports, hjoins.right.trans hextends, fun place entry => ?_⟩
    have hjoined : grown.find? place = some entry ↔
        more.find? place = some entry ∨
          (options.createNumbered (m := StateM FileSystem) base first fs).2.find? place = some entry :=
      ⟨fun hentry => (hjoins.either hentry).symm, Or.rec hjoins.right.kept hjoins.left.kept⟩
    rw [hplaces, hjoined, List.exists_mem_cons_iff, or_assoc]

end CreateOptions

/-- The same stands at every place. Only the order in which it was added may differ. -/
structure FileSystem.Same (fs other : FileSystem) : Prop where
  pathLimit : fs.pathLimit = other.pathLimit
  find? : ∀ place, fs.find? place = other.find? place

/-- Trees that are created together have the reports that they have alone, each in the directory of its
number, and they may be created in any order. -/
theorem createMany_independent (options : CreateOptions) (hbase : .up ∉ Path.steps base)
    (hrooted : fs.Rooted) (trees : List Node) :
    let alone (tree : Node) (number : Nat) :=
      options.create (m := StateM FileSystem) (CreateOptions.numberedBase base number) tree fs
    let together := options.createMany (m := StateM FileSystem) base trees fs
    together.1 = trees.mapIdx (fun i tree => (alone tree (i + 1)).1) ∧
      ∀ order : List (Node × Nat), order.Perm (trees.zipIdx 1) →
        let reordered := options.createInOrder (m := StateM FileSystem) base order fs
        reordered.1 = order.map (fun (tree, number) => (alone tree number).1) ∧
          reordered.2.Same together.2 := by
  intro alone together
  have hmany : together = options.createInOrder (m := StateM FileSystem) base (trees.zipIdx 1) fs :=
    congrFun (options.createFrom_eq_createInOrder base trees 1) fs
  have hnumbers : ((trees.zipIdx 1).map Prod.snd).Nodup := by
    rw [List.zipIdx_map_snd]
    exact List.nodup_range'
  have hrun := options.createInOrder_alone hbase hrooted hnumbers fun _ _ => Adds.refl _ fs
  rw [hmany]
  refine ⟨?_, fun order horder => ?_⟩
  · rw [hrun.1, List.mapIdx_eq_zipIdx_map, List.zipIdx_succ, List.map_map]
    rfl
  · have hdistinct : (order.map Prod.snd).Nodup := (horder.map Prod.snd).nodup_iff.mpr hnumbers
    have hother := options.createInOrder_alone hbase hrooted hdistinct fun _ _ => Adds.refl _ fs
    refine ⟨hother.1, hother.2.1.pathLimit.trans hrun.2.1.pathLimit.symm, fun place => ?_⟩
    refine Option.ext fun entry => ?_
    rw [hother.2.2, hrun.2.2]
    simp only [horder.mem_iff]

/-- A file is in the way of the second of three trees, created together and in the opposite order. -/
theorem createMany_independent_clash :
    let fs := (FileSystem.empty.add ["out"] .directory).add ["out", "tree_02"] (.file .empty)
    let options := CreateOptions.mk true false
    let trees : List Node := [.directory "app" [.file "main"], .directory "app" [], .file "main"]
    let together := options.createMany (m := StateM FileSystem) "out" trees fs
    let backwards := options.createInOrder (m := StateM FileSystem) "out" (trees.zipIdx 1).reverse fs
    fs.Rooted ∧ together.1.map (·.succeeded) = [true, false, true] ∧
      together.1 = trees.mapIdx (fun i tree =>
        (options.create (m := StateM FileSystem) (CreateOptions.numberedBase "out" (i + 1)) tree fs).1) ∧
      backwards.1 = together.1.reverse ∧ backwards.2.Same together.2 := by
  have hout := FileSystem.rooted_empty.add [] "out" .directory rfl rfl
  have hrooted := hout.add ["out"] "tree_02" (.file .empty) rfl rfl
  have hbase : .up ∉ Path.steps "out" := by decide +kernel
  have hmain := createMany_independent ⟨true, false⟩ hbase hrooted
    [.directory "app" [.file "main"], .directory "app" [], .file "main"]
  exact ⟨hrooted, by decide +kernel, hmain.1, by decide +kernel, (hmain.2 _ (List.reverse_perm _)).2⟩

end TreeSketch
