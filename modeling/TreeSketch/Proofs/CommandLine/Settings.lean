import TreeSketch.Proofs.CommandLine.ReadOnly
import TreeSketch.Proofs.Settings.Layers

/-!
# Settings of an invocation

The settings of an invocation are layered key by key: what an option of the command says about a setting counts,
or else what the file says that is named, or else what the file of the project says, or else the default
(`exists_load_of_wellTyped`).
-/

namespace TreeSketch.CommandLine

variable {session : Session} {key : SettingKey} {invocation : Invocation}
  {project named : List (String × Setting)}

/-! ## Options -/

/-- What the options that commands share say about a setting. -/
def CreationFlags.flag? (flags : CreationFlags) : SettingKey → Option Scalar
  | .output => flags.output.map .string
  | .createFiles => if flags.noFiles then some (.boolean false) else none
  | .dryRun => if flags.dryRun then some (.boolean true) else none
  | .allTrees | .logFilter => none

/-- What the options of a command say about a setting. -/
def Command.flag? : Command → SettingKey → Option Scalar
  | createFromFile _ _ allTrees, .allTrees => if allTrees then some (.boolean true) else none
  | createFromFile _ flags _, key | createFromText _ flags _, key => flags.flag? key
  | inspect _ _ _, _ | listFormats, _ => none

/-- An option gives a value of the type of the setting. -/
theorem CreationFlags.takes_flag? {flags : CreationFlags} {value : Scalar} (h : flags.flag? key = some value) :
    key.Takes value := by
  cases key with
  | output =>
    obtain ⟨text, -, rfl⟩ := Option.map_eq_some_iff.mp h
    exact ⟨text, rfl⟩
  | createFiles => exact ⟨false, Option.some.inj (Option.ite_none_right_eq_some.mp h).2.symm⟩
  | dryRun => exact ⟨true, Option.some.inj (Option.ite_none_right_eq_some.mp h).2.symm⟩
  | allTrees | logFilter => cases h

theorem Command.takes_flag? {command : Command} {value : Scalar} (h : command.flag? key = some value) :
    key.Takes value := by
  cases command with
  | createFromFile path flags allTrees =>
    cases key with
    | allTrees => exact ⟨true, Option.some.inj (Option.ite_none_right_eq_some.mp h).2.symm⟩
    | output | createFiles | dryRun => exact CreationFlags.takes_flag? h
    | logFilter => cases h
  | createFromText argument flags toDiagram => exact CreationFlags.takes_flag? h
  | inspect input dialect format => cases h
  | listFormats => cases h

/-- A pin that may be wanted changes what stands at its key, and nothing else. -/
theorem at?_pinIf (isWanted : Bool) (pinned key : SettingKey) (value : Scalar) (setting : Setting) :
    ((pinIf isWanted pinned.home.key pinned.field value).foldl Setting.layPin setting).at? key =
      (if isWanted ∧ pinned = key then some (.scalar none value) else setting.at? key) := by
  cases isWanted with
  | false => rw [if_neg (by simp)]; rfl
  | true =>
    simp only [true_and]
    exact Setting.at?_layPin pinned key value setting

/-- The pins of the shared options change what stands at a key as the options say. -/
theorem CreationFlags.at?_pins (flags : CreationFlags) (key : SettingKey) (setting : Setting) :
    (flags.pins.foldl Setting.layPin setting).at? key =
      ((flags.flag? key).map (Setting.scalar none)).or (setting.at? key) := by
  have hpins : flags.pins =
      pinIf flags.output.isSome SettingKey.output.home.key SettingKey.output.field
          (.string (flags.output.getD "")) ++
        pinIf flags.noFiles SettingKey.createFiles.home.key SettingKey.createFiles.field (.boolean false) ++
        pinIf flags.dryRun SettingKey.dryRun.home.key SettingKey.dryRun.field (.boolean true) := rfl
  rw [hpins, List.foldl_append, List.foldl_append, at?_pinIf, at?_pinIf, at?_pinIf]
  obtain ⟨output, noFiles, dryRun, preview⟩ := flags
  cases key with
  | output => cases output <;> simp [CreationFlags.flag?]
  | createFiles => cases noFiles <;> simp [CreationFlags.flag?]
  | dryRun => cases dryRun <;> simp [CreationFlags.flag?]
  | allTrees | logFilter => simp [CreationFlags.flag?]

/-- The pins of a command change what stands at a key as its options say. -/
theorem Command.at?_pins (command : Command) (key : SettingKey) (setting : Setting) :
    (command.pins.foldl Setting.layPin setting).at? key =
      ((command.flag? key).map (Setting.scalar none)).or (setting.at? key) := by
  cases command with
  | createFromFile path flags allTrees =>
    have hpins : (createFromFile path flags allTrees).pins = flags.pins ++
        pinIf allTrees SettingKey.allTrees.home.key SettingKey.allTrees.field (.boolean true) := rfl
    rw [hpins, List.foldl_append, at?_pinIf, CreationFlags.at?_pins]
    cases key with
    | allTrees => cases allTrees <;> simp [Command.flag?, CreationFlags.flag?]
    | output | createFiles | dryRun | logFilter => simp [Command.flag?]
  | createFromText argument flags toDiagram => exact flags.at?_pins key setting
  | inspect input dialect format => rfl
  | listFormats => rfl

/-- Under the pins of a command, what its options say comes in the place of the values before. -/
theorem shows_foldl_layPin {setting : Setting} {values : SettingKey → Scalar} (h : setting.Shows values)
    (command : Command) :
    (command.pins.foldl Setting.layPin setting).Shows fun key =>
      (command.flag? key).getD (values key) := by
  intro key
  dsimp only
  rw [command.at?_pins]
  cases hflag : command.flag? key with
  | none => exact h key
  | some value => exact ⟨Command.takes_flag? hflag, none, rfl⟩

/-! ## Files -/

theorem files_foldl_pin (pins : List Pin) (loader : Loader) :
    (pins.foldl (fun loader pin => loader.pin pin.path pin.value) loader).files = loader.files := by
  induction pins generalizing loader with
  | nil => rfl
  | cons pin rest ih => exact ih (loader.pin pin.path pin.value)

/-- The settings come from the file of the project and the file that is named. -/
theorem files_loader (invocation : Invocation) :
    invocation.loader.files = ⟨projectFile, false⟩ :: invocation.config.toList.map (⟨·, true⟩) := by
  rw [Invocation.loader, files_foldl_pin]
  cases invocation.config <;> rfl

/-- The fields that the file of a path contributes; without a path they are none. -/
def Contributes (session : Session) (fields : List (String × Setting)) : Option String → Prop
  | none => fields = []
  | some path => ((⟨path, true⟩ : SettingsFile).read (m := StateM Session) session).1 = .ok fields

/-- Files that contribute fields contribute them one after another. -/
theorem readAll_eq_ok {files : List SettingsFile} {layers : List (List (String × Setting))}
    (h : List.Forall₂ (fun file fields => (file.read (m := StateM Session) session).1 = .ok fields) files layers) :
    (SettingsFile.readAll (m := StateM Session) files session).1 = .ok layers := by
  induction h with
  | nil => rfl
  | cons hfile _ ih =>
    rw [SettingsFile.readAll, (Session.looks_readFile _).bind_apply, hfile]
    dsimp only
    rw [(Session.looks_readAll _).bind_apply, ih]
    rfl

/-- Settings are taken from the fields of files. -/
theorem load_eq {loader : Loader} {layers : List (List (String × Setting))}
    (h : (SettingsFile.readAll (m := StateM Session) loader.files session).1 = .ok layers) :
    (loader.load (m := StateM Session) session).1 = Settings.ofLayers layers loader.pins := by
  rw [Loader.load, (Session.looks_readAll _).bind_apply, h]
  rfl

/-- With the files of an invocation read, its settings are taken from what they contribute. -/
theorem load_loader_eq (invocation : Invocation)
    (hproject : ((⟨projectFile, false⟩ : SettingsFile).read (m := StateM Session) session).1 = .ok project)
    (hnamed : Contributes session named invocation.config) :
    (invocation.loader.load (m := StateM Session) session).1 =
      Settings.ofLayers [project, named] invocation.command.pins := by
  have hfiles := files_loader invocation
  rw [← pins_loader]
  cases hconfig : invocation.config with
  | none =>
    rw [hconfig] at hfiles hnamed
    obtain rfl : named = [] := hnamed
    have hread : (SettingsFile.readAll (m := StateM Session) invocation.loader.files session).1 =
        .ok [project] := by
      rw [hfiles]
      exact readAll_eq_ok (.cons hproject .nil)
    rw [load_eq hread]
    rfl
  | some path =>
    rw [hconfig] at hfiles hnamed
    have hread : (SettingsFile.readAll (m := StateM Session) invocation.loader.files session).1 =
        .ok [project, named] := by
      rw [hfiles]
      exact readAll_eq_ok (.cons hproject (.cons hnamed .nil))
    exact load_eq hread

/-- Well-typed layers and the pins of a command make settings: at each key the pin counts, or else the last layer
that gives a value, or else the default. -/
theorem exists_ofLayers {layers : List (List (String × Setting))} (h : ∀ fields ∈ layers, WellTyped fields)
    (command : Command) :
    ∃ settings, Settings.ofLayers layers command.pins = .ok settings ∧
      ∀ key, settings.value key =
        (command.flag? key).getD
          (layers.foldl (fun value fields => (key.given? fields).getD value) key.usual) :=
  (shows_foldl_layPin (Setting.shows_defaults.foldl_layFields h) command).exists_decode

/-- A file that is found and is a text in the language of settings files contributes its fields. -/
theorem read_eq_ok {file : SettingsFile} {fields : List (String × Setting)} (path text origin : String)
    (hfind : (file.find? (m := StateM Session) session).1 = some path)
    (htext : (readText (m := StateM Session) path session).1 = .ok text)
    (horigin : Path.ofSteps (Path.isAbsolute path) (Path.moves path) = origin)
    (hparse : Toml.parse? (some origin) text = some fields) :
    (file.read (m := StateM Session) session).1 = .ok fields := by
  rw [SettingsFile.read, (Session.looks_find? _).bind_apply, hfind]
  dsimp only
  rw [(Session.looks_readText _).bind_apply, htext]
  dsimp only
  rw [horigin, hparse]
  rfl

/-- The settings of an invocation are layered key by key: an option of the command counts, or else the file that
is named, or else the file of the project, or else the default. And when a loader is made, it makes no difference
how the calls that pin settings stand among those that add files. -/
theorem exists_load_of_wellTyped
    (hproject : ((⟨projectFile, false⟩ : SettingsFile).read (m := StateM Session) session).1 = .ok project)
    (hnamed : Contributes session named invocation.config)
    (hprojectTyped : WellTyped project) (hnamedTyped : WellTyped named) :
    (∃ settings, (invocation.loader.load (m := StateM Session) session).1 = .ok settings ∧
      ∀ key : SettingKey, settings.value key =
        (invocation.command.flag? key).getD
          ((key.given? named).getD ((key.given? project).getD key.usual))) ∧
    ∀ {m : Type → Type} [Monad m] [FileAccess m] (loader : Loader) (calls others : List Loader.Call),
      calls.filter (·.isOverride) = others.filter (·.isOverride) →
      calls.filter (!·.isOverride) = others.filter (!·.isOverride) →
      loader.loadAfter (m := m) calls = loader.loadAfter others := by
  constructor
  · rw [load_loader_eq invocation hproject hnamed]
    refine exists_ofLayers ?_ invocation.command
    rw [List.forall_mem_cons, List.forall_mem_singleton]
    exact ⟨hprojectTyped, hnamedTyped⟩
  · intro m _ _ loader calls others hpins hfiles
    rw [Loader.loadAfter, Loader.callAll_eq_of_filter_eq hfiles hpins, Loader.loadAfter]

/-- The file of the project says where to create and that there is a dry run, the named file says that there is
none, and an option leaves files out. A table that is pinned before a file is added wins over it all the same. -/
theorem exists_load_of_wellTyped_three :
    let project := "[create]\noutput = \"out\"\ndry_run = true\n"
    let named := "[create]\ndry_run = false\n"
    let files := (FileSystem.empty.add [projectFile] (.file project.toUTF8)).add ["real.toml"] (.file named.toUTF8)
    let session := Session.start files ""
    let command := Command.createFromText "a > b" ⟨none, true, false, false⟩ false
    ((⟨some "real.toml", command⟩ : Invocation).loader.load (m := StateM Session) session).1 =
        .ok ⟨"out", ⟨false, false⟩, false, "warn"⟩ ∧
      Loader.empty.loadAfter (m := StateM Session)
          [.override "create" (.table none [("dry_run", Scalar.boolean true)]), .optionalFile projectFile] =
        Loader.empty.loadAfter
          [.optionalFile projectFile, .override "create" (.table none [("dry_run", Scalar.boolean true)])] := by
  intro project named files session command
  have hfields : ∀ projectFields ∈ Toml.parse? (some projectFile) project,
      ∀ namedFields ∈ Toml.parse? (some "real.toml") named,
        WellTyped projectFields ∧ WellTyped namedFields ∧ ∀ key : SettingKey,
          (command.flag? key).getD
              ((key.given? namedFields).getD ((key.given? projectFields).getD key.usual)) =
            Settings.value ⟨"out", ⟨false, false⟩, false, "warn"⟩ key := by decide +kernel
  obtain ⟨projectFields, hprojectFields⟩ := Option.isSome_iff_exists.mp
    (by decide +kernel : (Toml.parse? (some projectFile) project).isSome)
  obtain ⟨namedFields, hnamedFields⟩ := Option.isSome_iff_exists.mp
    (by decide +kernel : (Toml.parse? (some "real.toml") named).isSome)
  obtain ⟨hproject, hnamed, hexpected⟩ := hfields _ hprojectFields _ hnamedFields
  have hreadProject : ((⟨projectFile, false⟩ : SettingsFile).read (m := StateM Session) session).1 =
      .ok projectFields :=
    read_eq_ok projectFile project projectFile (by decide +kernel) (by decide +kernel) (by decide +kernel)
      hprojectFields
  have hreadNamed : Contributes session namedFields (some "real.toml") :=
    read_eq_ok "real.toml" named "real.toml" (by decide +kernel) (by decide +kernel) (by decide +kernel)
      hnamedFields
  have hconfig : Contributes session namedFields (⟨some "real.toml", command⟩ : Invocation).config := hreadNamed
  obtain ⟨⟨settings, hload, hvalues⟩, hmixed⟩ :=
    exists_load_of_wellTyped hreadProject hconfig hproject hnamed
  refine ⟨?_, hmixed Loader.empty _ _ rfl rfl⟩
  rw [hload, Settings.value_injective (funext fun key => (hvalues key).trans (hexpected key))]

end TreeSketch.CommandLine
