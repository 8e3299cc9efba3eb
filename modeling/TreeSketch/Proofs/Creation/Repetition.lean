import TreeSketch.Proofs.Creation.Steps
import TreeSketch.Proofs.Files.Reaching

/-!
# Reports are true, and creating once more changes nothing

An entry that is reported as made shows at its path in the files that creation leaves, with the kind that is
reported (`Creates.status`). When the same trees are created again, every entry that was made is there, and
what stood in the way of an entry still stands there: so nothing changes and the report is the same
(`Creates.again`). The second part holds for any files that have grown since, which is the form that an
induction over the run needs, as the entries that come later add to what an entry has left.
-/

namespace TreeSketch

variable {createFiles : Bool} {fs made more : FileSystem} {base name : String} {nodes : List Node}
  {outcomes : List Outcome}

/-- The report on an entry that was tried to make is one on a success if it was made. -/
theorem Outcome.error_ofResult_eq_none_iff {kind : Kind} {path : String} {result : Except IoError Unit} :
    (Outcome.ofResult kind path result).error = none ↔ result = .ok () := by
  rcases result with fault | ⟨⟩
  · exact ⟨nofun, nofun⟩
  · exact ⟨fun _ => rfl, fun _ => rfl⟩

@[simp] theorem Outcome.path_ofResult (kind : Kind) (path : String) (result : Except IoError Unit) :
    (Outcome.ofResult kind path result).path = path := by
  rcases result with fault | ⟨⟩ <;> rfl

@[simp] theorem Outcome.kind_ofResult (kind : Kind) (path : String) (result : Except IoError Unit) :
    (Outcome.ofResult kind path result).kind = kind := by
  rcases result with fault | ⟨⟩ <;> rfl

/-- An outcome is true of a file system: what is reported as made shows there. -/
def Outcome.Shows (outcome : Outcome) (fs : FileSystem) : Prop :=
  outcome.error = none → fs.status outcome.path = outcome.kind.status

theorem Outcome.Shows.of_extends {outcome : Outcome} (h : outcome.Shows fs) (hmore : fs.Extends more) :
    outcome.Shows more := by
  intro hok
  have hstatus := h hok
  have hpresent : fs.status outcome.path ≠ .absent := by
    rw [hstatus]
    cases outcome.kind <;> exact nofun
  rw [FileSystem.status_eq_of_extends hmore hpresent, hstatus]

/-- What is reported on an entry is true when it was tried to make. -/
theorem shows_of_build {kind : Kind} {result : Except IoError Unit} (hname : Path.isSingleName name = true)
    (hbuild : fs.build kind (Path.join base name) = (result, made)) :
    (Outcome.ofResult kind (Path.join base name) result).Shows made := by
  intro hok
  rw [Outcome.path_ofResult, Outcome.kind_ofResult]
  rw [Outcome.error_ofResult_eq_none_iff.mp hok] at hbuild
  exact FileSystem.status_build hname hbuild

namespace Creates

/-- A run adds entries to directories, one after another. -/
theorem grows (h : Creates createFiles fs base nodes outcomes made) : fs.Grows made := by
  induction h with
  | nil => exact .refl _
  | skip _ _ ih => exact ih
  | refuse _ _ _ ih => exact ih
  | file _ hname hbuild _ ih => exact (FileSystem.grows_build hname hbuild).trans ih
  | directory hname hbuild _ _ ihbelow ih =>
    exact ((FileSystem.grows_build hname hbuild).trans ihbelow).trans ih

theorem toExtends (h : Creates createFiles fs base nodes outcomes made) : fs.Extends made :=
  h.grows.toExtends

/-- Every outcome of a run is true of the files that the run leaves. -/
theorem shows (h : Creates createFiles fs base nodes outcomes made) :
    ∀ outcome ∈ outcomes, outcome.Shows made := by
  induction h with
  | nil => exact nofun
  | skip _ _ ih => exact ih
  | refuse _ _ _ ih => exact List.forall_mem_cons.mpr ⟨nofun, ih⟩
  | file _ hname hbuild hrest ih =>
    exact List.forall_mem_cons.mpr ⟨(shows_of_build hname hbuild).of_extends hrest.toExtends, ih⟩
  | directory hname hbuild hbelow hrest ihbelow ih =>
    have hmade := (shows_of_build hname hbuild).of_extends (hbelow.toExtends.trans hrest.toExtends)
    rw [List.cons_append, List.forall_mem_cons, List.forall_mem_append]
    exact ⟨hmade, fun outcome hmem => (ihbelow outcome hmem).of_extends hrest.toExtends, ih⟩

/-- Creating trees once more changes nothing and has the same outcomes, whatever was added since. -/
theorem again (h : Creates createFiles fs base nodes outcomes made) (hbase : .up ∉ Path.steps base)
    (hrooted : fs.Rooted) (hmore : made.Extends more) :
    Creates createFiles more base nodes outcomes more := by
  -- What an entry has left grows into what the whole run leaves, and so into `more`.
  induction h with
  | nil => exact .nil
  | skip hfiles _ ih => exact .skip hfiles (ih hbase hrooted hmore)
  | refuse hwanted hname _ ih => exact .refuse hwanted hname (ih hbase hrooted hmore)
  | file hfiles hname hbuild hrest ih =>
    have hbuilds := FileSystem.builds_of_build_eq hname hbase hbuild
    have hgrown := hrest.toExtends.trans hmore
    exact .file hfiles hname (hbuilds.again hname hbase hrooted hgrown)
      (ih hbase (hrooted.of_grows (FileSystem.grows_build hname hbuild)) hmore)
  | directory hname hbuild hbelow hrest ihbelow ih =>
    have hinside := Path.up_not_mem_steps_join hname hbase
    have hbuilds := FileSystem.builds_of_build_eq hname hbase hbuild
    have hbuilt := hrooted.of_grows (FileSystem.grows_build hname hbuild)
    have hentered := hrest.toExtends.trans hmore
    have hgrown := hbelow.toExtends.trans hentered
    exact .directory hname (hbuilds.again hname hbase hrooted hgrown) (ihbelow hinside hbuilt hentered)
      (ih hbase (hbuilt.of_grows hbelow.grows) hmore)

end Creates

/-- What is reported as created is there, and creating it once more changes nothing and reports the same. -/
theorem create_shows_and_repeats (createFiles : Bool) (hbase : .up ∉ Path.steps base) (hrooted : fs.Rooted)
    (tree : Node) :
    let create := (CreateOptions.mk createFiles false).create (m := StateM FileSystem) base tree
    (∀ outcome ∈ (create fs).1.outcomes, outcome.error = none →
      (create fs).2.status outcome.path = outcome.kind.status) ∧
    create (create fs).2 = create fs := by
  have hrun := creates_createAll createFiles fs base [tree]
  have hagain := hrun.again hbase hrooted (FileSystem.Extends.refl _)
  dsimp only
  rw [CreateOptions.create_apply, CreateOptions.create_apply, hagain.createAll_eq]
  exact ⟨hrun.shows, rfl⟩

/-- A file is in the way of a directory, and what would stand in the directory is not created either. -/
theorem create_shows_and_repeats_clash :
    let fs := (FileSystem.empty.add ["out"] .directory).add ["out", "app"] (.file .empty)
    let create := (CreateOptions.mk true false).create (m := StateM FileSystem) "out"
      (.directory "app" [.file "main", .directory "main" []])
    fs.Rooted ∧ (create fs).1.failures.length = 3 ∧
      (∀ outcome ∈ (create fs).1.outcomes, outcome.error = none →
        (create fs).2.status outcome.path = outcome.kind.status) ∧
      create (create fs).2 = create fs := by
  have hout := FileSystem.rooted_empty.add [] "out" .directory rfl rfl
  have hrooted := hout.add ["out"] "app" (.file .empty) rfl rfl
  exact ⟨hrooted, by rfl, create_shows_and_repeats true (by decide +kernel) hrooted _⟩

end TreeSketch
