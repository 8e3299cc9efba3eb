import TreeSketch.Proofs.Creation.DryRun
import TreeSketch.Proofs.Creation.Steps
import TreeSketch.Proofs.Text.Decimal

/-!
# Creation stays below the base

Whatever the names in a tree are, creating it adds only directories on the way to the base and entries below
the base, and it loses nothing that was there (`creation_confined`). A name that could lead elsewhere is no
single name, and every other name leads one level down; so what an entry and the entries in it may add
(`Within`) is what the base may have added to it.
-/

namespace TreeSketch

open FileSystem (Adds)

/-- What may be added when trees are created in the directory that the names `base` lead to. -/
def Within (createFiles : Bool) (base place : List String) (entry : Entry) : Prop :=
  (place <+: base ∧ entry = .directory) ∨
    ∃ below ≠ [], place = base ++ below ∧ (entry = .directory ∨ createFiles = true ∧ entry = .file .empty)

/-- What may be added for a directory may be added for the directory that it stands in. -/
theorem Within.of_append {createFiles : Bool} {base place : List String} {name : String} {entry : Entry}
    (h : Within createFiles (base ++ [name]) place entry) : Within createFiles base place entry := by
  rcases h with ⟨hstart, hentry⟩ | ⟨below, -, hplace, hentry⟩
  · rcases List.prefix_concat_iff.mp hstart with rfl | hstart
    · exact .inr ⟨[name], List.cons_ne_nil _ _, rfl, .inl hentry⟩
    · exact .inl ⟨hstart, hentry⟩
  · exact .inr ⟨name :: below, List.cons_ne_nil _ _, by rw [hplace, List.append_assoc]; rfl, hentry⟩

variable {createFiles : Bool} {fs made : FileSystem} {base name : String}

/-- An entry with a single name is added below the base. -/
theorem adds_build (kind : Kind) (hname : Path.isSingleName name = true) (hbase : .up ∉ Path.steps base)
    (hwanted : kind = .file → createFiles = true) {result : Except IoError Unit}
    (hbuild : fs.build kind (Path.join base name) = (result, made)) :
    Adds (Within createFiles (Path.names base)) fs made := by
  have hbuilds := FileSystem.builds_of_build_eq hname hbase hbuild
  refine (hbuilds.adds hname hbase).mono fun place entry => ?_
  rintro (⟨hstart, hentry⟩ | ⟨hplace, hentry⟩)
  · exact .inl ⟨hstart, hentry⟩
  · refine .inr ⟨[name], List.cons_ne_nil _ _, hplace, ?_⟩
    cases kind with
    | directory => exact .inl hentry
    | file => exact .inr ⟨hwanted rfl, hentry⟩

/-- Trees are created below the base. -/
theorem Creates.adds {nodes : List Node} {outcomes : List Outcome}
    (h : Creates createFiles fs base nodes outcomes made) (hbase : .up ∉ Path.steps base) :
    Adds (Within createFiles (Path.names base)) fs made := by
  induction h with
  | nil => exact Adds.refl _ _
  | skip _ _ ih => exact ih hbase
  | refuse _ _ _ ih => exact ih hbase
  | file hfiles hname hbuild _ ih =>
    exact (adds_build .file hname hbase (fun _ => hfiles) hbuild).trans (ih hbase)
  | directory hname hbuild _ _ ihbelow ih =>
    have hbelow := ihbelow (Path.up_not_mem_steps_join hname hbase)
    rw [Path.names_join hname] at hbelow
    exact ((adds_build .directory hname hbase nofun hbuild).trans (hbelow.mono fun _ _ => Within.of_append)).trans
      (ih hbase)

/-- What creating trees in the directory that the names `base` lead to does to files. -/
structure Confined (options : CreateOptions) (base : List String) (fs made : FileSystem) : Prop where
  /-- What was there is there as it was. -/
  kept : ∀ {place entry}, fs.find? place = some entry → made.find? place = some entry
  /-- What is new is a directory on the way to the base, or stands below the base. -/
  located : ∀ {place entry}, fs.find? place = none → made.find? place = some entry →
    (place <+: base ∧ entry = .directory) ∨ (base <+: place ∧ place ≠ base)
  /-- New files are empty. -/
  blank : ∀ {place content}, fs.find? place = none → made.find? place = some (.file content) →
    content = .empty
  /-- There are new files only if files are wanted. -/
  wanted : options.createFiles = false → ∀ {place content}, fs.find? place = none →
    made.find? place ≠ some (.file content)
  /-- A dry run changes nothing. -/
  dry : options.dryRun = true → made = fs

/-- What adds nothing but what it may, and nothing at all in a dry run, is confined. -/
theorem confined_of_adds {options : CreateOptions} {base : List String}
    (h : Adds (Within options.createFiles base) fs made) (hdry : options.dryRun = true → made = fs) :
    Confined options base fs made where
  kept := h.kept
  located hnone hsome := by
    rcases h.added hnone hsome with hway | ⟨below, hne, hplace, -⟩
    · exact .inl hway
    · exact .inr ⟨hplace ▸ List.prefix_append _ _, fun heq => hne (by simpa [heq] using hplace)⟩
  blank hnone hsome := by
    rcases h.added hnone hsome with ⟨-, hentry⟩ | ⟨-, -, -, hentry | ⟨-, hentry⟩⟩
    · cases hentry
    · cases hentry
    · exact Entry.file.inj hentry
  wanted hfiles _ _ hnone hsome := by
    rcases h.added hnone hsome with ⟨-, hentry⟩ | ⟨-, -, -, hentry | ⟨hwanted, -⟩⟩
    · cases hentry
    · cases hentry
    · exact absurd (hfiles.symm.trans hwanted) nofun
  dry := hdry

namespace CreateOptions

/-- Creating a tree adds nothing but what it may. -/
theorem adds_create (options : CreateOptions) (hbase : .up ∉ Path.steps base) (tree : Node)
    (fs : FileSystem) : Adds (Within options.createFiles (Path.names base)) fs
      (options.create (m := StateM FileSystem) base tree fs).2 := by
  cases hdry : options.dryRun with
  | true =>
    rw [create_of_dryRun hdry]
    exact Adds.refl _ fs
  | false =>
    obtain ⟨createFiles, dryRun⟩ := options
    subst hdry
    rw [create_apply]
    exact (creates_createAll createFiles fs base [tree]).adds hbase

/-- The name of a numbered directory is a single name. -/
theorem isSingleName_numbered (number : Nat) : Path.isSingleName
    ("tree_" ++ (if number < 10 then "0" else "") ++ toString number) = true := by
  -- Behind the first letters come nothing but digits.
  have hdigits : ∀ c ∈ (toString number).toList, c.isDigit = true :=
    fun _ => Text.isDigit_of_mem_toString
  have hpad : ∀ c ∈ (if number < 10 then "0" else "").toList, c.isDigit = true := by
    split <;> simp
  generalize (if number < 10 then "0" else "") = pad at hpad
  generalize toString number = digits at hdigits
  have hchars : ("tree_" ++ pad ++ digits).toList =
      't' :: 'r' :: 'e' :: 'e' :: '_' :: (pad.toList ++ digits.toList) := by
    rw [String.append_assoc, String.toList_append, String.toList_append]
    rfl
  have hsafe : ∀ c, c.isDigit = false → c ∉ pad.toList ++ digits.toList := by
    intro c hc hmem
    rcases List.mem_append.mp hmem with h | h
    · exact absurd (hc.symm.trans (hpad c h)) nofun
    · exact absurd (hc.symm.trans (hdigits c h)) nofun
  rw [Path.isSingleName_iff, hchars]
  have hne : ∀ text : String, text.toList.head? ≠ some 't' → "tree_" ++ pad ++ digits ≠ text := by
    rintro text htext rfl
    exact htext (by rw [hchars]; rfl)
  exact ⟨hne "" (by simp), hne "." (by simp), hne ".." (by simp), by simp [hsafe '/' rfl],
    by simp [hsafe '\\' rfl]⟩

theorem adds_createFrom (options : CreateOptions) (hbase : .up ∉ Path.steps base) (trees : List Node)
    (number : Nat) (fs : FileSystem) : Adds (Within options.createFiles (Path.names base)) fs
      (options.createFrom (m := StateM FileSystem) base number trees fs).2 := by
  induction trees generalizing number fs with
  | nil => exact Adds.refl _ fs
  | cons tree rest ih =>
    have hname := isSingleName_numbered number
    have htree := options.adds_create (Path.up_not_mem_steps_join hname hbase) tree fs
    rw [Path.names_join hname] at htree
    exact (htree.mono fun _ _ => Within.of_append).trans (ih (number + 1) _)

end CreateOptions

/-- Creation is confined to the base. -/
theorem creation_confined (options : CreateOptions) (hbase : .up ∉ Path.steps base) (fs : FileSystem) :
    (∀ tree, Confined options (Path.names base) fs
      (options.create (m := StateM FileSystem) base tree fs).2) ∧
    ∀ trees, Confined options (Path.names base) fs
      (options.createMany (m := StateM FileSystem) base trees fs).2 := by
  refine ⟨fun tree => confined_of_adds (options.adds_create hbase tree fs) fun hdry => ?_,
    fun trees => confined_of_adds (options.adds_createFrom hbase trees 1 fs) fun hdry => ?_⟩
  · rw [CreateOptions.create_of_dryRun hdry]
    rfl
  · rw [CreateOptions.createMany_of_dryRun hdry]
    rfl

/-- Of a tree with names that lead out of the base, the rest is created in directories that are added for it. -/
theorem creation_confined_parent :
    let tree : Node := .directory "app" [.file "../notes", .directory ".." [.file "lost"], .file "main"]
    let made := ((CreateOptions.mk true false).create (m := StateM FileSystem) "home/out" tree .empty).2
    made.find? ["home", "out", "app", "main"] = some (.file .empty) ∧
      Confined ⟨true, false⟩ (Path.names "home/out") .empty made :=
  ⟨by decide +kernel, (creation_confined _ (by decide +kernel) .empty).1 _⟩

end TreeSketch
