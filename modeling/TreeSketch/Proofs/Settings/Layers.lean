import TreeSketch.Proofs.Settings.Pins

/-!
# What layers of settings amount to

Five settings matter to the program (`SettingKey`). What a file says about one of them is the last of the values
that it lays at the field of the setting (`SettingKey.given?`); a file is `WellTyped` if all of these values are
of the right type and no section is anything but a table. Other keys may stand in it as they like.

Laying a file over a setting changes every key on its own: a key that the file says nothing about keeps its
value, although other fields of the same table may change (`at?_layFields`). So settings that have a value at
every key (`Setting.Shows`) keep having one under each layer, and in the end they can be decoded
(`Setting.Shows.exists_decode`).
-/

namespace TreeSketch

namespace Scalar

/-- The value is a text. -/
def IsText (value : Scalar) : Prop :=
  ∃ text, value = string text

/-- The value is a truth value. -/
def IsTruth (value : Scalar) : Prop :=
  ∃ truth, value = boolean truth

instance (value : Scalar) : Decidable value.IsText :=
  match value with
  | string text => .isTrue ⟨text, rfl⟩
  | nil | boolean _ | integer _ | float _ => .isFalse nofun

instance (value : Scalar) : Decidable value.IsTruth :=
  match value with
  | boolean truth => .isTrue ⟨truth, rfl⟩
  | nil | string _ | integer _ | float _ => .isFalse nofun

end Scalar

/-- A setting of the program. -/
inductive SettingKey where
  | output
  | createFiles
  | dryRun
  | allTrees
  | logFilter
deriving Repr, DecidableEq

namespace SettingKey

/-- Every setting. -/
def all : List SettingKey :=
  [output, createFiles, dryRun, allTrees, logFilter]

theorem mem_all (key : SettingKey) : key ∈ all := by
  cases key <;> decide

instance (p : SettingKey → Prop) [DecidablePred p] : Decidable (∀ key, p key) :=
  decidable_of_iff (∀ key ∈ all, p key) ⟨fun h key => h key (mem_all key), fun h key _ => h key⟩

/-- The section that the setting stands in. -/
def home : SettingKey → Section
  | output | createFiles | dryRun => .create
  | allTrees => .diagram
  | logFilter => .log

/-- The key of the setting in its section. -/
def field : SettingKey → String
  | output => "output"
  | createFiles => "create_files"
  | dryRun => "dry_run"
  | allTrees => "all_trees"
  | logFilter => "filter"

/-- The value of the setting where nothing else is said. -/
def usual : SettingKey → Scalar
  | output => .string "."
  | createFiles => .boolean true
  | dryRun | allTrees => .boolean false
  | logFilter => .string "warn"

/-- The value is of the type of the setting. -/
def Takes (key : SettingKey) (value : Scalar) : Prop :=
  match key with
  | output | logFilter => value.IsText
  | createFiles | dryRun | allTrees => value.IsTruth

instance (key : SettingKey) (value : Scalar) : Decidable (key.Takes value) :=
  match key with
  | output | logFilter => inferInstanceAs (Decidable value.IsText)
  | createFiles | dryRun | allTrees => inferInstanceAs (Decidable value.IsTruth)

/-- The value of a file is of the type of the setting. -/
def Fits (key : SettingKey) (setting : Setting) : Prop :=
  ∃ origin value, setting = .scalar origin value ∧ key.Takes value

instance (key : SettingKey) (setting : Setting) : Decidable (key.Fits setting) :=
  match setting with
  | .scalar origin value =>
    decidable_of_iff (key.Takes value)
      ⟨fun h => ⟨origin, value, rfl, h⟩, fun ⟨_, _, heq, h⟩ => (Setting.scalar.inj heq).2 ▸ h⟩
  | .array _ _ | .table _ _ => .isFalse nofun

end SettingKey

/-- The value of a setting. -/
def Settings.value (settings : Settings) : SettingKey → Scalar
  | .output => .string settings.output
  | .createFiles => .boolean settings.create.createFiles
  | .dryRun => .boolean settings.create.dryRun
  | .allTrees => .boolean settings.allTrees
  | .logFilter => .string settings.logFilter

/-- Settings are what their values are. -/
theorem Settings.value_injective : Function.Injective Settings.value := by
  rintro ⟨output, ⟨createFiles, dryRun⟩, allTrees, filter⟩
    ⟨output', ⟨createFiles', dryRun'⟩, allTrees', filter'⟩ h
  obtain rfl : output = output' := Scalar.string.inj (congrFun h .output)
  obtain rfl : createFiles = createFiles' := Scalar.boolean.inj (congrFun h .createFiles)
  obtain rfl : dryRun = dryRun' := Scalar.boolean.inj (congrFun h .dryRun)
  obtain rfl : allTrees = allTrees' := Scalar.boolean.inj (congrFun h .allTrees)
  obtain rfl : filter = filter' := Scalar.string.inj (congrFun h .logFilter)
  rfl

variable {key : SettingKey} {setting value : Setting} {fields : List (String × Setting)}

/-! ## Entries of files -/

namespace Setting

/-- The key path that the key of an entry means. -/
def entryPath (name : String) : List KeyStep :=
  (KeyPath.parse? name).getD [.name name]

/-- The key of the table that an entry of a file is about. -/
def sort? (entry : String × Setting) : Option String :=
  match entryPath entry.1 with
  | .name sort :: _ => some (Text.lowercase sort)
  | _ => none

/-- The fields that an entry of a file lays over that table: those of a table, or a single one whose key path
is the key. -/
def part? (entry : String × Setting) : Option (List (String × Setting)) :=
  match entryPath entry.1, entry.2 with
  | [.name _], table _ fields => some fields
  | [.name _, .name field], value => some [(field, value)]
  | _, _ => none

/-- The values that fields lay at a key, in their order. -/
def valuesAt (name : String) (fields : List (String × Setting)) : List Setting :=
  (fields.filter fun field => Text.lowercase field.1 = name).map (·.2)

/-- The value, if it is a single one. -/
def scalar? : Setting → Option Scalar
  | scalar _ value => some value
  | _ => none

/-- What stands at the key of a setting of the program. -/
def at? (setting : Setting) (key : SettingKey) : Option Setting :=
  (setting.field? key.home.key).bind (field? key.field)

end Setting

open Setting

namespace SettingKey

/-- The values that an entry of a file lays at the key. -/
def said (key : SettingKey) (entry : String × Setting) : List Setting :=
  if sort? entry = some key.home.key then valuesAt key.field ((part? entry).getD []) else []

/-- What a file says about the key: its last word counts. -/
def given? (key : SettingKey) (fields : List (String × Setting)) : Option Scalar :=
  ((fields.flatMap key.said).getLast?).bind scalar?

end SettingKey

/-- What a file says about the settings of the program is well typed: sections are tables, and each setting in
them has a value of its type. -/
def WellTyped (fields : List (String × Setting)) : Prop :=
  ∀ entry ∈ fields, ∀ key : SettingKey, sort? entry = some key.home.key →
    ∃ part ∈ part? entry, ∀ value ∈ valuesAt key.field part, key.Fits value

instance (fields : List (String × Setting)) : Decidable (WellTyped fields) :=
  inferInstanceAs (Decidable (∀ entry ∈ fields, ∀ key : SettingKey, sort? entry = some key.home.key →
    ∃ part ∈ part? entry, ∀ value ∈ valuesAt key.field part, key.Fits value))

theorem SettingKey.Fits.isSome_scalar? (h : key.Fits value) : value.scalar?.isSome := by
  obtain ⟨origin, found, rfl, -⟩ := h
  rfl

namespace Setting

/-! ## Laying a file over a setting -/

theorem at?_putField_self (key : SettingKey) (value setting : Setting) :
    (putField key.home.key value setting).at? key = value.field? key.field := by
  rw [at?, field?_putField_self, Option.bind_some]

theorem at?_putField_of_ne {sort : String} (h : key.home.key ≠ sort) (value setting : Setting) :
    (putField sort value setting).at? key = setting.at? key := by
  rw [at?, field?_putField_of_ne h, at?]

theorem valuesAt_cons (name other : String) (value : Setting) (rest : List (String × Setting)) :
    valuesAt name ((other, value) :: rest) =
      if Text.lowercase other = name then value :: valuesAt name rest else valuesAt name rest := by
  by_cases hother : Text.lowercase other = name
  · simp [valuesAt, hother]
  · simp [valuesAt, hother]

/-- The last value that is laid at a key counts, and without one the value below. -/
theorem field?_mergeFields {name : String} (h : ∀ value ∈ valuesAt name fields, value.scalar?.isSome)
    (below : Setting) :
    (mergeFields below fields).field? name =
      ((valuesAt name fields).getLast?).or (below.field? name) := by
  induction fields generalizing below with
  | nil =>
    rw [mergeFields]
    rfl
  | cons entry rest ih =>
    obtain ⟨other, value⟩ := entry
    rw [mergeFields]
    rw [valuesAt_cons] at h ⊢
    split at h
    · rename_i hother
      rw [List.forall_mem_cons] at h
      obtain ⟨hvalue, hrest⟩ := h
      -- A single value replaces what was there.
      have hmerge : merge (below.field? name) value = value := by
        cases value with
        | scalar origin value => rw [merge]
        | array origin items => cases hvalue
        | table origin fields => cases hvalue
      rw [if_pos hother, ih hrest, hother, hmerge, field?_putField_self, List.getLast?_cons,
        Option.or_some, Option.some_or]
    · rename_i hother
      rw [if_neg hother, ih h, field?_putField_of_ne (Ne.symm hother)]

/-- The key path of an entry starts with a name. -/
theorem exists_entryPath_eq (name : String) : ∃ sort rest, entryPath name = .name sort :: rest := by
  rw [entryPath]
  cases hparse : KeyPath.parse? name with
  | none => exact ⟨_, _, rfl⟩
  | some path =>
    simp only [KeyPath.parse?, Option.bind_eq_bind, Option.bind_eq_some_iff, Option.pure_def,
      Option.some.injEq] at hparse
    obtain ⟨head, -, steps, -, rfl⟩ := hparse
    exact ⟨_, _, rfl⟩

/-- What is assigned behind a name changes one field. -/
theorem exists_assign_eq_putField (value : Setting) (sort : String) (rest : List KeyStep) (below : Setting) :
    ∃ new, assign value (.name sort :: rest) below = putField (Text.lowercase sort) new below := by
  cases rest with
  | nil => exact ⟨_, by rw [assign]⟩
  | cons step rest => exact ⟨_, by rw [assign]; exact List.cons_ne_nil step rest⟩

/-- A value is assigned to a name as the only field of a table is laid over another. -/
theorem assign_name (value : Setting) (name : String) (setting : Setting) :
    assign value [.name name] setting = mergeFields setting [(name, value)] := by
  rw [assign, mergeFields, mergeFields]

/-- The section that an entry is about gets the fields of the entry laid over what it has. -/
theorem at?_assign_of_part {entry : String × Setting} {part : List (String × Setting)}
    (hsort : sort? entry = some key.home.key) (hpart : part? entry = some part)
    (h : ∀ value ∈ valuesAt key.field part, value.scalar?.isSome) (below : Setting) :
    (assign entry.2 (entryPath entry.1) below).at? key =
      ((valuesAt key.field part).getLast?).or (below.at? key) := by
  have hlaid (setting : Setting)
      (hsetting : setting.field? key.field = (below.field? key.home.key).bind (field? key.field)) :
      (putField key.home.key (mergeFields setting part) below).at? key =
        ((valuesAt key.field part).getLast?).or (below.at? key) := by
    rw [at?_putField_self, field?_mergeFields h, hsetting, at?]
  obtain ⟨name, value⟩ := entry
  rw [sort?] at hsort
  rw [part?] at hpart
  dsimp only at hsort hpart ⊢
  split at hpart
  · rename_i sort origin fields hpath
    rw [hpath] at hsort ⊢
    cases hpart
    have hkey : Text.lowercase sort = key.home.key := Option.some.inj hsort
    rw [assign, hkey, merge]
    refine hlaid _ ?_
    cases below.field? key.home.key <;> rfl
  · rename_i sort field hpath
    rw [hpath] at hsort ⊢
    cases hpart
    have hkey : Text.lowercase sort = key.home.key := Option.some.inj hsort
    rw [assign, hkey, assign_name]
    · refine hlaid _ ?_
      cases below.field? key.home.key <;> rfl
    · exact List.cons_ne_nil _ _
  · cases hpart

/-- An entry changes what stands at a key as it says. -/
theorem at?_assign {entry : String × Setting}
    (h : sort? entry = some key.home.key →
      ∃ part ∈ part? entry, ∀ value ∈ valuesAt key.field part, key.Fits value)
    (below : Setting) :
    (assign entry.2 (entryPath entry.1) below).at? key = ((key.said entry).getLast?).or (below.at? key) := by
  rw [SettingKey.said]
  split
  · rename_i hsort
    obtain ⟨part, hpart, hfits⟩ := h hsort
    rw [hpart, Option.getD_some]
    exact at?_assign_of_part hsort hpart (fun value hvalue => (hfits value hvalue).isSome_scalar?) below
  · rename_i hsort
    obtain ⟨sort, rest, hpath⟩ := exists_entryPath_eq entry.1
    rw [sort?, hpath] at hsort
    obtain ⟨new, hnew⟩ := exists_assign_eq_putField entry.2 sort rest below
    have hne : key.home.key ≠ Text.lowercase sort := fun heq => hsort (congrArg some heq.symm)
    rw [hpath, hnew, at?_putField_of_ne hne]
    rfl

/-- A file changes what stands at a key as it says, whatever it says about others. -/
theorem at?_layFields (h : WellTyped fields) (below : Setting) :
    (below.layFields fields).at? key = ((fields.flatMap key.said).getLast?).or (below.at? key) := by
  induction fields generalizing below with
  | nil => rfl
  | cons entry rest ih =>
    obtain ⟨hentry, hrest⟩ := List.forall_mem_cons.mp h
    change (layFields (assign entry.2 (entryPath entry.1) below) rest).at? key = _
    rw [ih hrest, at?_assign (hentry key), List.flatMap_cons, List.getLast?_append, Option.or_assoc]

/-! ## Settings with a value at every key -/

/-- At every key there is a value of the type of the setting. -/
def Shows (setting : Setting) (values : SettingKey → Scalar) : Prop :=
  ∀ key, key.Takes (values key) ∧ ∃ origin, setting.at? key = some (scalar origin (values key))

theorem shows_defaults : Shows defaults SettingKey.usual := by
  intro key
  cases key <;> exact ⟨⟨_, rfl⟩, none, rfl⟩

example :
    let text := "[create]\noutput = \".\"\ncreate_files = true\ndry_run = false\n\n" ++
      "[diagram]\nall_trees = false\n\n[log]\nfilter = \"warn\"\n"
    ∀ key : SettingKey, key.given? ((Toml.parse? none text).getD []) = some key.usual := by
  decide +kernel

end Setting

/-- What a well-typed file lays at a key is of its type. -/
theorem WellTyped.fits (h : WellTyped fields) (hvalue : value ∈ fields.flatMap key.said) :
    key.Fits value := by
  obtain ⟨entry, hentry, hvalue⟩ := List.mem_flatMap.mp hvalue
  rw [SettingKey.said] at hvalue
  split at hvalue
  · rename_i hsort
    obtain ⟨part, hpart, hfits⟩ := h entry hentry key hsort
    rw [hpart] at hvalue
    exact hfits value hvalue
  · cases hvalue

namespace Setting

variable {values : SettingKey → Scalar}

/-- Under a file, the values that it gives come in the place of those before. -/
theorem Shows.layFields (h : setting.Shows values) (htyped : WellTyped fields) :
    (setting.layFields fields).Shows fun key => (key.given? fields).getD (values key) := by
  intro key
  dsimp only [SettingKey.given?]
  rw [at?_layFields htyped]
  cases hlast : (fields.flatMap key.said).getLast? with
  | none => exact h key
  | some value =>
    obtain ⟨origin, found, rfl, htakes⟩ := htyped.fits (List.mem_of_getLast? hlast)
    exact ⟨htakes, origin, rfl⟩

/-- Under any number of files, the last one that gives a value counts. -/
theorem Shows.foldl_layFields {layers : List (List (String × Setting))} (h : setting.Shows values)
    (htyped : ∀ fields ∈ layers, WellTyped fields) :
    (layers.foldl Setting.layFields setting).Shows fun key =>
      layers.foldl (fun value fields => (key.given? fields).getD value) (values key) := by
  induction layers generalizing setting values with
  | nil => exact h
  | cons fields rest ih =>
    obtain ⟨hfields, hrest⟩ := List.forall_mem_cons.mp htyped
    exact ih (h.layFields hfields) hrest

end Setting

/-! ## Pins -/

namespace SettingKey

/-- The pin of the setting. -/
def pin (key : SettingKey) (value : Scalar) : Pin :=
  ⟨[.name key.home.key, .name key.field], value⟩

theorem lowercase_home (key : SettingKey) : Text.lowercase key.home.key = key.home.key := by
  cases key <;> decide +kernel

theorem lowercase_field (key : SettingKey) : Text.lowercase key.field = key.field := by
  cases key <;> decide +kernel

theorem field_injective : Function.Injective field := by
  intro key other h
  cases key <;> cases other <;> first | rfl | exact absurd h (by decide)

end SettingKey

namespace Setting

/-- A pin changes what stands at its key, and nothing else. -/
theorem at?_layPin (pinned key : SettingKey) (value : Scalar) (setting : Setting) :
    (setting.layPin (pinned.pin value)).at? key =
      if pinned = key then some (scalar none value) else setting.at? key := by
  rw [SettingKey.pin, layPin_eq, merge, pinned.lowercase_home, pinned.lowercase_field]
  split
  · rename_i heq
    subst heq
    rw [at?_putField_self, field?_putField_self]
  · rename_i hne
    have hfield : key.field ≠ pinned.field := fun heq => hne (SettingKey.field_injective heq).symm
    by_cases hhome : key.home.key = pinned.home.key
    · -- The pin changes the same table, and there another field.
      rw [← hhome, at?_putField_self, field?_putField_of_ne hfield, at?]
      cases setting.field? key.home.key <;> rfl
    · rw [at?_putField_of_ne hhome]

/-! ## Taking settings -/

/-- What stands at a key stands in a section that is a table. -/
theorem exists_section_of_at? (h : setting.at? key = some value) :
    ∃ origin fields, setting.section? key.home = .ok (table origin fields) ∧
      fields.lookup key.field = some value := by
  obtain ⟨part, hpart, hvalue⟩ := Option.bind_eq_some_iff.mp h
  cases part with
  | scalar origin found => cases hvalue
  | array origin items => cases hvalue
  | table origin fields =>
    refine ⟨origin, fields, ?_, hvalue⟩
    rw [section?, hpart]
    rfl

/-- The value at a key can be read from its section. -/
theorem Shows.exists_read {α : Type} {decode : String → Setting → Except SettingsError α} {a : α}
    (h : setting.Shows values) (key : SettingKey) (number : Nat)
    (hnumber : key.home.fields[number]? = some key.field)
    (hdecode : ∀ name origin, decode name (scalar origin (values key)) = .ok a) :
    ∃ part, setting.section? key.home = .ok part ∧ key.home.read decode number part = .ok (some a) := by
  obtain ⟨-, origin, hat⟩ := h key
  obtain ⟨tableOrigin, fields, hsection, hlookup⟩ := exists_section_of_at? hat
  have hslot : key.home.slot? number (table tableOrigin fields) =
      some (key.home.key ++ "." ++ key.field, scalar origin (values key)) := by
    rw [Section.slot?, hnumber]
    change (fields.lookup key.field >>= _) = _
    rw [hlookup]
    rfl
  refine ⟨_, hsection, ?_⟩
  rw [Section.read, hslot]
  exact congrArg (Except.map some) (hdecode _ origin)

/-- Where there is a value of the right type at every key, the settings with these values are taken. -/
theorem Shows.exists_decode (h : setting.Shows values) :
    ∃ settings, Settings.decode setting = .ok settings ∧ ∀ key, settings.value key = values key := by
  obtain ⟨⟨output, houtput⟩, -⟩ := h .output
  obtain ⟨⟨createFiles, hcreateFiles⟩, -⟩ := h .createFiles
  obtain ⟨⟨dryRun, hdryRun⟩, -⟩ := h .dryRun
  obtain ⟨⟨allTrees, hallTrees⟩, -⟩ := h .allTrees
  obtain ⟨⟨filter, hfilter⟩, -⟩ := h .logFilter
  have htext (text name : String) (origin : Option String) :
      readText name (scalar origin (.string text)) = .ok text := rfl
  have htruth (truth : Bool) (name : String) (origin : Option String) :
      readTruth name (scalar origin (.boolean truth)) = .ok truth := rfl
  obtain ⟨create, hcreate, hreadOutput⟩ := h.exists_read .output 0 rfl (houtput ▸ htext output)
  obtain ⟨create₁, hcreate₁, hreadFiles⟩ := h.exists_read .createFiles 1 rfl (hcreateFiles ▸ htruth createFiles)
  obtain ⟨create₂, hcreate₂, hreadDryRun⟩ := h.exists_read .dryRun 2 rfl (hdryRun ▸ htruth dryRun)
  obtain ⟨diagram, hdiagram, hreadTrees⟩ := h.exists_read .allTrees 0 rfl (hallTrees ▸ htruth allTrees)
  obtain ⟨log, hlog, hreadFilter⟩ := h.exists_read .logFilter 0 rfl (hfilter ▸ htext filter)
  obtain rfl : create = create₁ := Except.ok.inj (hcreate.symm.trans hcreate₁)
  obtain rfl : create = create₂ := Except.ok.inj (hcreate.symm.trans hcreate₂)
  simp only [SettingKey.home] at hcreate hreadOutput hreadFiles hreadDryRun hdiagram hreadTrees hlog hreadFilter
  have hdecoded : Settings.decodeCreate create = .ok (output, ⟨createFiles, dryRun⟩) := by
    rw [Settings.decodeCreate, hreadOutput, hreadFiles, hreadDryRun]
    rfl
  refine ⟨⟨output, ⟨createFiles, dryRun⟩, allTrees, filter⟩, ?_, fun key => ?_⟩
  · refine bind_eq_ok_iff.mpr ⟨create, hcreate, bind_eq_ok_iff.mpr ⟨_, hdecoded, ?_⟩⟩
    refine bind_eq_ok_iff.mpr ⟨diagram, hdiagram, bind_eq_ok_iff.mpr ⟨_, hreadTrees, ?_⟩⟩
    refine bind_eq_ok_iff.mpr ⟨allTrees, rfl, bind_eq_ok_iff.mpr ⟨log, hlog, ?_⟩⟩
    exact bind_eq_ok_iff.mpr ⟨_, hreadFilter, rfl⟩
  · cases key <;> simp only [Settings.value, houtput, hcreateFiles, hdryRun, hallTrees, hfilter]

end Setting

namespace Loader

/-! ## Making a loader -/

/-- One of the calls that a loader is made with. -/
inductive Call where
  | file (path : String)
  | optionalFile (path : String)
  | override (key : String) (value : Setting)
deriving Repr

/-- The file that a call adds. -/
def Call.file? : Call → Option SettingsFile
  | file path => some ⟨path, true⟩
  | optionalFile path => some ⟨path, false⟩
  | override _ _ => none

/-- The call pins a setting. -/
def Call.isOverride : Call → Bool
  | file _ | optionalFile _ => false
  | override _ _ => true

/-- Makes a call, which fails if it pins something at no key path. -/
def call (loader : Loader) : Call → Except SettingsError Loader
  | .file path => .ok (loader.withFile path)
  | .optionalFile path => .ok (loader.withOptionalFile path)
  | .override key value => loader.pinKey key value

/-- Makes calls one after another. -/
def callAll (loader : Loader) (calls : List Call) : Except SettingsError Loader :=
  calls.foldlM call loader

/-- The settings of a loader on which calls are made first. -/
def loadAfter {m : Type → Type} [Monad m] [FileAccess m] (loader : Loader) (calls : List Call) :
    m (Except SettingsError Settings) :=
  match loader.callAll calls with
  | .error error => return .error error
  | .ok loader => loader.load

variable {loader : Loader} {calls others : List Call}

/-- Calls add their files, and pin what those among them pin that are overrides. -/
theorem callAll_eq (loader : Loader) (calls : List Call) :
    loader.callAll calls =
      ((⟨[], loader.pins⟩ : Loader).callAll (calls.filter (·.isOverride))).map fun pinned =>
        ⟨loader.files ++ calls.filterMap (·.file?), pinned.pins⟩ := by
  induction calls generalizing loader with
  | nil =>
    rw [List.filterMap_nil, List.append_nil]
    rfl
  | cons call rest ih =>
    rw [callAll, List.foldlM_cons]
    cases call with
    | file path =>
      change (loader.withFile path).callAll rest = _
      rw [ih, withFile, List.append_assoc]
      rfl
    | optionalFile path =>
      change (loader.withOptionalFile path).callAll rest = _
      rw [ih, withOptionalFile, List.append_assoc]
      rfl
    | override key value =>
      change (loader.pinKey key value >>= fun loader => loader.callAll rest) =
        Except.map _ ((⟨[], loader.pins⟩ : Loader).pinKey key value >>= fun pinned =>
          pinned.callAll (rest.filter (·.isOverride)))
      rw [pinKey, pinKey]
      cases KeyPath.parse? key with
      | none => rfl
      | some path => exact ih (loader.pin path value)

/-- Calls come to the same when the calls for files are the same and the overrides are. -/
theorem callAll_eq_of_filter_eq
    (hfiles : calls.filter (!·.isOverride) = others.filter (!·.isOverride))
    (hpins : calls.filter (·.isOverride) = others.filter (·.isOverride)) (loader : Loader) :
    loader.callAll calls = loader.callAll others := by
  have hfile? (calls : List Call) :
      (calls.filter (!·.isOverride)).filterMap (·.file?) = calls.filterMap (·.file?) := by
    rw [List.filterMap_filter]
    refine List.filterMap_congr fun call _ => ?_
    cases call <;> rfl
  rw [callAll_eq, callAll_eq loader others, hpins, ← hfile?, hfiles, hfile?]

end Loader

end TreeSketch
