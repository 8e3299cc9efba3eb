import TreeSketch.CommandLine.Run
import TreeSketch.Proofs.Creation.DryRun
import TreeSketch.Proofs.Settings.Pins

/-!
# Runs that change no file

A run adds files only when it comes to creating trees. `ReadOnly` lists what keeps it from that: a command that
only shows something, a dry run, a user who objects to the preview, and settings or sources that cannot be read.
In all of these cases the files are the same afterwards (`run_files_eq`).

What is done before trees are created only looks at files (`Looks`), so every later step still sees the files
and the input of the start. A dry run that is asked for on the command line is one whatever the settings files
say, since what the command line says is laid over them (`dryRun_of_load`).
-/

namespace TreeSketch

namespace Session

variable {α β : Type} {action : StateM Session α} {next : α → StateM Session β}

/-! ## Actions that only look -/

/-- The action changes nothing. -/
def Looks (action : StateM Session α) : Prop :=
  ∀ session, (action session).2 = session

/-- The action changes no file. -/
def KeepsFiles (action : StateM Session α) : Prop :=
  ∀ session, (action session).2.files = session.files

theorem Looks.pure (a : α) : Looks (Pure.pure a) := fun _ => rfl

theorem Looks.bind (h : Looks action) (hnext : ∀ a, Looks (next a)) : Looks (action >>= next) := by
  intro session
  rw [TreeSketch.bind_apply, h session]
  exact hnext _ session

theorem KeepsFiles.bind (h : KeepsFiles action) (hnext : ∀ a, KeepsFiles (next a)) :
    KeepsFiles (action >>= next) := by
  intro session
  rw [TreeSketch.bind_apply, hnext, h session]

theorem Looks.keepsFiles (h : Looks action) : KeepsFiles action := fun session => by rw [h session]

/-- After an action that only looks, everything goes on with the session as it was. -/
theorem Looks.bind_apply (h : Looks action) (next : α → StateM Session β) (session : Session) :
    (action >>= next) session = next (action session).1 session := by
  rw [TreeSketch.bind_apply, h session]

theorem looks_status (path : String) : Looks (FileAccess.status (m := StateM Session) path) := fun _ => rfl

theorem looks_read (path : String) : Looks (FileAccess.read (m := StateM Session) path) := fun _ => rfl

theorem looks_isFile (path : String) : Looks (isFile (m := StateM Session) path) :=
  (looks_status path).bind fun _ => .pure _

theorem looks_readText (path : String) : Looks (readText (m := StateM Session) path) := by
  refine (looks_read path).bind fun result => ?_
  cases result with
  | error cause => exact .pure _
  | ok content =>
    dsimp only
    split <;> exact .pure _

theorem looks_find? (file : SettingsFile) : Looks (file.find? (m := StateM Session)) := by
  refine (looks_isFile file.path).bind fun found => ?_
  split
  · exact .pure _
  · dsimp only
    split
    · exact (looks_isFile _).bind fun _ => .pure _
    · exact .pure _

theorem looks_readFile (file : SettingsFile) : Looks (file.read (m := StateM Session)) := by
  refine (looks_find? file).bind fun found => ?_
  cases found with
  | none => exact .pure _
  | some path =>
    refine (looks_readText path).bind fun result => ?_
    cases result with
    | error cause => exact .pure _
    | ok text =>
      dsimp only
      split <;> exact .pure _

theorem looks_readAll (files : List SettingsFile) :
    Looks (SettingsFile.readAll (m := StateM Session) files) := by
  induction files with
  | nil => exact .pure _
  | cons file rest ih =>
    refine (looks_readFile file).bind fun result => ?_
    cases result with
    | error error => exact .pure _
    | ok fields =>
      refine ih.bind fun layers => ?_
      cases layers <;> exact .pure _

theorem looks_load (loader : Loader) : Looks (loader.load (m := StateM Session)) := by
  refine (looks_readAll loader.files).bind fun layers => ?_
  cases layers <;> exact .pure _

theorem looks_readDiagrams (path : String) : Looks (readDiagrams (m := StateM Session) path) := by
  refine (looks_readText path).bind fun result => ?_
  cases result <;> exact .pure _

theorem looks_resolve (argument : String) : Looks (Template.resolve (m := StateM Session) argument) := by
  refine (looks_status argument).bind fun status => ?_
  cases status with
  | absent => exact .pure _
  | directory => exact .pure _
  | file =>
    refine (looks_readText argument).bind fun result => ?_
    cases result <;> exact .pure _

theorem looks_presentFile (spec : Spec) (dialect : Dialect) (path : String) :
    Looks (spec.presentFile (m := StateM Session) dialect path) := by
  refine (looks_readText path).bind fun result => ?_
  cases result <;> exact .pure _

/-! ## Actions that talk -/

theorem keepsFiles_tell (text : String) : KeepsFiles (Console.tell (m := StateM Session) text) :=
  fun _ => rfl

theorem keepsFiles_complain (text : String) : KeepsFiles (Console.complain (m := StateM Session) text) :=
  fun _ => rfl

end Session

namespace CommandLine

open Session (Looks KeepsFiles keepsFiles_tell keepsFiles_complain)

variable {settings : Settings} {session : Session}

theorem keepsFiles_fail (text : String) : KeepsFiles (fail (m := StateM Session) text) :=
  (keepsFiles_complain text).bind fun _ => (Looks.pure _).keepsFiles

/-! ## Creating trees -/

/-- A dry run changes no file. -/
theorem keepsFiles_createTrees (hdry : settings.create.dryRun = true) (trees : List Node) :
    KeepsFiles (createTrees (m := StateM Session) settings trees) := by
  unfold createTrees
  split
  · rw [CreateOptions.create_of_dryRun hdry, pure_bind]
    exact (keepsFiles_tell _).bind fun _ => (Looks.pure _).keepsFiles
  · rw [CreateOptions.createMany_of_dryRun hdry, pure_bind]
    exact (keepsFiles_tell _).bind fun _ => (Looks.pure _).keepsFiles

/-- The user is asked first and does not agree. -/
def Objects (session : Session) (preview : Bool) : Prop :=
  preview = true ∧ session.nextLine.any isAgreement = false

/-- Trees are not created in a dry run, and not when the user objects. -/
theorem files_createConfirmed (shown : Option String) (trees : List Node)
    (h : settings.create.dryRun = true ∨ Objects session shown.isSome) :
    (createConfirmed (m := StateM Session) settings shown trees session).2.files = session.files := by
  cases shown with
  | none =>
    rcases h with hdry | ⟨hnone, -⟩
    · exact keepsFiles_createTrees hdry trees session
    · cases hnone
  | some text =>
    -- What is asked goes to the output, and the answer is still the first line of the input.
    change ((if session.nextLine.any isAgreement = true then _ else _ : StateM Session ExitStatus) _).2.files = _
    split
    · rename_i hagreed
      rcases h with hdry | ⟨-, hanswer⟩
      · exact keepsFiles_createTrees hdry trees _
      · exact absurd (hanswer.symm.trans hagreed) nofun
    · rfl

/-! ## Commands -/

theorem isSome_shown (preview : Bool) (shown : String) :
    (if preview then some shown else none).isSome = preview := by
  cases preview <;> rfl

/-- The trees of a file are created only if they can be read, and then only if creation is not refused. -/
theorem files_createFromFile (path : String) (preview : Bool)
    (h : ∀ text trees, (readDiagrams (m := StateM Session) path session).1 = .ok text →
      wantedTrees settings text = .ok trees → settings.create.dryRun = true ∨ Objects session preview) :
    (createFromFile (m := StateM Session) settings path preview session).2.files = session.files := by
  rw [createFromFile, (Session.looks_readDiagrams path).bind_apply]
  cases hread : (readDiagrams (m := StateM Session) path session).1 with
  | error error => exact keepsFiles_fail _ session
  | ok text =>
    dsimp only
    cases htrees : wantedTrees settings text with
    | error error => exact keepsFiles_fail _ session
    | ok trees =>
      refine files_createConfirmed _ trees ?_
      rw [isSome_shown]
      exact h text trees hread htrees

/-- So is the tree of declarative text, unless it is only shown. -/
theorem files_createFromText (argument : String) (preview toDiagram : Bool)
    (h : ∀ template tree, (Template.resolve (m := StateM Session) argument session).1 = .ok template →
      Declarative.parse template.text = .ok tree →
      toDiagram = true ∨ settings.create.dryRun = true ∨ Objects session preview) :
    (createFromText (m := StateM Session) settings argument preview toDiagram session).2.files =
      session.files := by
  rw [createFromText, (Session.looks_resolve argument).bind_apply]
  cases hread : (Template.resolve (m := StateM Session) argument session).1 with
  | error error => exact keepsFiles_fail _ session
  | ok template =>
    dsimp only
    cases htree : Declarative.parse template.text with
    | error error => exact keepsFiles_fail _ session
    | ok tree =>
      dsimp only
      split
      · exact ((keepsFiles_tell _).bind fun _ => (Looks.pure _).keepsFiles) session
      · refine files_createConfirmed _ [tree] ?_
        rw [isSome_shown]
        exact (h template tree hread htree).resolve_left ‹_›

theorem keepsFiles_inspect (input : String) (dialect : Option Dialect) (format : String) :
    KeepsFiles (inspect (m := StateM Session) input dialect format) := by
  rw [inspect]
  cases Spec.parse format with
  | error error => exact keepsFiles_fail _
  | ok spec =>
    refine (Session.looks_isFile input).keepsFiles.bind fun found => ?_
    split
    · refine (Session.looks_presentFile spec _ input).keepsFiles.bind fun shown => ?_
      cases shown with
      | error error => exact keepsFiles_fail _
      | ok text => exact (keepsFiles_tell _).bind fun _ => (Looks.pure _).keepsFiles
    · refine (Looks.pure _).keepsFiles.bind fun shown => ?_
      cases shown with
      | error error => exact keepsFiles_fail _
      | ok text => exact (keepsFiles_tell _).bind fun _ => (Looks.pure _).keepsFiles

/-! ## What the command line says of a dry run -/

/-- The key paths that commands pin settings at. -/
def pinnedPaths : List (List KeyStep) :=
  [[.name "create", .name "output"], [.name "create", .name "create_files"],
    [.name "create", .name "dry_run"], [.name "diagram", .name "all_trees"]]

theorem paths_pinIf_sublist (isWanted : Bool) (key field : String) (value : Scalar) :
    ((pinIf isWanted key field value).map (·.path)).Sublist [[.name key, .name field]] := by
  cases isWanted with
  | false => exact List.nil_sublist _
  | true => exact List.Sublist.refl _

theorem paths_pins_sublist (command : Command) :
    (command.pins.map (·.path)).Sublist pinnedPaths := by
  have hflags (flags : CreationFlags) : (flags.pins.map (·.path)).Sublist (pinnedPaths.take 3) := by
    rw [CreationFlags.pins, List.map_append, List.map_append]
    exact ((paths_pinIf_sublist _ _ _ _).append (paths_pinIf_sublist _ _ _ _)).append
      (paths_pinIf_sublist _ _ _ _)
  cases command with
  | createFromFile path flags allTrees =>
    rw [Command.pins, List.map_append]
    exact (hflags flags).append (paths_pinIf_sublist _ _ _ _)
  | createFromText argument flags toDiagram => exact (hflags flags).trans (List.take_sublist 3 pinnedPaths)
  | inspect input dialect format => exact List.nil_sublist _
  | listFormats => exact List.nil_sublist _

theorem isPlain_of_mem_pins {command : Command} {pin : Pin} (h : pin ∈ command.pins) : pin.IsPlain := by
  have hpath : pin.path ∈ pinnedPaths := (paths_pins_sublist command).subset (List.mem_map_of_mem h)
  simp only [pinnedPaths, List.mem_cons, List.not_mem_nil, or_false] at hpath
  rcases hpath with hpath | hpath | hpath | hpath <;>
    exact ⟨_, _, hpath, by decide +kernel, by decide +kernel⟩

/-- What a command pins is what the settings are pinned to. -/
theorem pins_loader (invocation : Invocation) : invocation.loader.pins = invocation.command.pins := by
  have hdistinct : (invocation.command.pins.map (·.path)).Nodup :=
    (paths_pins_sublist invocation.command).nodup (by decide)
  rw [Invocation.loader]
  cases invocation.config with
  | none => exact Loader.pins_foldl_pin _ _ hdistinct
  | some path => exact Loader.pins_foldl_pin _ _ hdistinct

/-- The options of a command that creates trees. -/
def Command.flags? : Command → Option CreationFlags
  | createFromFile _ flags _ | createFromText _ flags _ => some flags
  | inspect _ _ _ | listFormats => none

theorem mem_pins_of_dryRun {command : Command} {flags : CreationFlags} (h : command.flags? = some flags)
    (hdry : flags.dryRun = true) :
    ⟨[.name "create", .name "dry_run"], Scalar.boolean true⟩ ∈ command.pins := by
  have hmem : ⟨[.name "create", .name "dry_run"], Scalar.boolean true⟩ ∈ flags.pins := by
    rw [CreationFlags.pins, hdry]
    exact List.mem_append_right _ (List.mem_singleton_self _)
  cases command with
  | createFromFile path flags allTrees =>
    cases h
    exact List.mem_append_left _ hmem
  | createFromText argument flags toDiagram =>
    cases h
    exact hmem
  | inspect input dialect format => cases h
  | listFormats => cases h

/-- A dry run that is asked for on the command line is one, whatever the settings files say. -/
theorem dryRun_of_load {invocation : Invocation} {flags : CreationFlags}
    (hflags : invocation.command.flags? = some flags) (hdry : flags.dryRun = true)
    (hload : (invocation.loader.load (m := StateM Session) session).1 = .ok settings) :
    settings.create.dryRun = true := by
  rw [Loader.load, (Session.looks_readAll _).bind_apply] at hload
  cases hlayers : (SettingsFile.readAll (m := StateM Session) invocation.loader.files session).1 with
  | error error =>
    rw [hlayers] at hload
    cases hload
  | ok layers =>
    rw [hlayers] at hload
    have hdecode : Settings.ofLayers layers invocation.loader.pins = .ok settings := hload
    rw [pins_loader, Settings.ofLayers] at hdecode
    refine Settings.dryRun_of_holds (Setting.holds_foldl_layPin (fun pin => isPlain_of_mem_pins) ?_
      (mem_pins_of_dryRun hflags hdry) _) hdecode
    exact (paths_pins_sublist invocation.command).nodup (by decide)

/-! ## Whole runs -/

/-- A run that is not to change any file, and why. -/
inductive ReadOnly (invocation : Invocation) (session : Session) : Prop
  /-- The command shows a source. -/
  | inspect {input dialect format} (h : invocation.command = .inspect input dialect format)
  /-- The command lists formats. -/
  | listFormats (h : invocation.command = .listFormats)
  /-- The command only shows the tree. -/
  | toDiagram {argument flags} (h : invocation.command = .createFromText argument flags true)
  /-- The settings ask for a dry run. -/
  | dryRun {settings : Settings} (h : (invocation.loader.load (m := StateM Session) session).1 = .ok settings)
    (hdry : settings.create.dryRun = true)
  /-- The command line asks for a dry run. -/
  | dryRunOption {flags} (h : invocation.command.flags? = some flags) (hdry : flags.dryRun = true)
  /-- The user is asked first and does not agree. -/
  | objection {flags} (h : invocation.command.flags? = some flags) (hobjects : Objects session flags.preview)
  /-- There are no settings. -/
  | settings {error} (h : (invocation.loader.load (m := StateM Session) session).1 = .error error)
  /-- The file cannot be read. -/
  | fileUnread {path flags allTrees error} (h : invocation.command = .createFromFile path flags allTrees)
    (hread : (readDiagrams (m := StateM Session) path session).1 = .error error)
  /-- What is read from the file is no diagram. -/
  | fileUnparsed {path flags allTrees text error} {settings : Settings}
    (h : invocation.command = .createFromFile path flags allTrees)
    (hload : (invocation.loader.load (m := StateM Session) session).1 = .ok settings)
    (hread : (readDiagrams (m := StateM Session) path session).1 = .ok text)
    (hparse : wantedTrees settings text = .error error)
  /-- There is no declarative text. -/
  | textUnread {argument flags toDiagram error}
    (h : invocation.command = .createFromText argument flags toDiagram)
    (hread : (Template.resolve (m := StateM Session) argument session).1 = .error error)
  /-- The text is not declarative. -/
  | textUnparsed {argument flags toDiagram template error}
    (h : invocation.command = .createFromText argument flags toDiagram)
    (hread : (Template.resolve (m := StateM Session) argument session).1 = .ok template)
    (hparse : Declarative.parse template.text = .error error)

/-- A command changes no file when creation is refused. -/
theorem files_run_of_refused {command : Command} (h : ∀ flags, command.flags? = some flags →
    settings.create.dryRun = true ∨ Objects session flags.preview) :
    (command.run (m := StateM Session) settings session).2.files = session.files := by
  cases command with
  | createFromFile path flags allTrees => exact files_createFromFile path _ fun _ _ _ _ => h flags rfl
  | createFromText argument flags toDiagram =>
    exact files_createFromText argument _ _ fun _ _ _ _ => .inr (h flags rfl)
  | inspect input dialect format => exact keepsFiles_inspect input dialect format session
  | listFormats => exact ((keepsFiles_tell _).bind fun _ => (Looks.pure _).keepsFiles) session

/-- A run that is not to change any file changes none. -/
theorem files_run_of_readOnly {invocation : Invocation} (h : ReadOnly invocation session) :
    (invocation.run (m := StateM Session) session).2.files = session.files := by
  rw [Invocation.run, (Session.looks_load _).bind_apply]
  cases hload : (invocation.loader.load (m := StateM Session) session).1 with
  | error error => exact keepsFiles_fail _ session
  | ok settings =>
    change (invocation.command.run (m := StateM Session) settings session).2.files = _
    cases h with
    | inspect h =>
      rw [h]
      exact keepsFiles_inspect _ _ _ session
    | listFormats h => exact files_run_of_refused fun flags hflags => by rw [h] at hflags; cases hflags
    | toDiagram h =>
      rw [h]
      exact files_createFromText _ _ _ fun _ _ _ _ => .inl rfl
    | dryRun h hdry =>
      obtain rfl := Except.ok.inj (hload.symm.trans h)
      exact files_run_of_refused fun _ _ => .inl hdry
    | dryRunOption h hdry => exact files_run_of_refused fun _ _ => .inl (dryRun_of_load h hdry hload)
    | objection h hobjects =>
      refine files_run_of_refused fun flags hflags => .inr ?_
      rw [← Option.some.inj (h.symm.trans hflags)]
      exact hobjects
    | settings h => exact absurd (hload.symm.trans h) nofun
    | fileUnread h hread =>
      rw [h]
      exact files_createFromFile _ _ fun _ _ hok => absurd (hread.symm.trans hok) nofun
    | fileUnparsed h hloaded hread hparse =>
      rw [h]
      obtain rfl := Except.ok.inj (hload.symm.trans hloaded)
      refine files_createFromFile _ _ fun text trees hok htrees => ?_
      rw [← Except.ok.inj (hread.symm.trans hok), hparse] at htrees
      cases htrees
    | textUnread h hread =>
      rw [h]
      exact files_createFromText _ _ _ fun _ _ hok => absurd (hread.symm.trans hok) nofun
    | textUnparsed h hread hparse =>
      rw [h]
      refine files_createFromText _ _ _ fun template tree hok htree => ?_
      rw [← Except.ok.inj (hread.symm.trans hok), hparse] at htree
      cases htree

/-- Arguments change no file if what they ask for is not to change any. -/
theorem run_files_eq {arguments : List String}
    (h : ∀ invocation, Request.parse arguments = .perform invocation → ReadOnly invocation session) :
    (run (m := StateM Session) arguments session).2.files = session.files := by
  rw [run]
  cases hrequest : Request.parse arguments with
  | perform invocation => exact files_run_of_readOnly (h invocation hrequest)
  | halt reason => cases reason <;> rfl

/-- The settings file says that there is no dry run, and the command line asks for one. -/
theorem run_files_eq_option :
    let settings := "[create]\ndry_run = false\n".toUTF8
    let session := Session.start (FileSystem.empty.add [projectFile] (.file settings)) ""
    (run (m := StateM Session) ["from-syntax", "a > b", "--dry-run"] session).2.files = session.files := by
  refine run_files_eq fun invocation hparse => ?_
  have hrequest : Request.parse ["from-syntax", "a > b", "--dry-run"] =
      .perform ⟨none, .createFromText "a > b" ⟨none, false, true, false⟩ false⟩ := by decide +kernel
  rw [hrequest] at hparse
  obtain rfl := Request.perform.inj hparse
  exact .dryRunOption rfl rfl

end CommandLine

end TreeSketch
