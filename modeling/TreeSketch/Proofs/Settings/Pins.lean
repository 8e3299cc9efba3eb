import Mathlib.Data.List.Induction
import TreeSketch.Proofs.Except
import TreeSketch.Settings.Loader

/-!
# Pinned settings

A pinned setting is laid over everything that files say, so it holds whatever they say (`holds_foldl_layPin`),
and a dry run that is pinned is a dry run (`dryRun_of_holds`). Pins at other key paths do not disturb it,
although all of them change the same table.
-/

namespace TreeSketch

variable {setting value : Setting} {key other sort field : String} {fields : List (String × Setting)}

namespace Setting

/-! ## Fields -/

theorem lookup_setField_self (key : String) (value : Setting) (fields : List (String × Setting)) :
    (setField key value fields).lookup key = some value := by
  induction fields with
  | nil => rw [setField, List.lookup_cons_self]
  | cons entry rest ih =>
    obtain ⟨first, old⟩ := entry
    rw [setField]
    split
    · rw [List.lookup_cons_self]
    · rename_i hne
      rw [List.lookup_cons, beq_false_of_ne (Ne.symm hne), ih]

theorem lookup_setField_of_ne (h : other ≠ key) (value : Setting) (fields : List (String × Setting)) :
    (setField key value fields).lookup other = fields.lookup other := by
  induction fields with
  | nil => rw [setField, List.lookup_cons, beq_false_of_ne h]
  | cons entry rest ih =>
    obtain ⟨first, old⟩ := entry
    rw [setField]
    split
    · rename_i heq
      subst heq
      rw [List.lookup_cons, List.lookup_cons, beq_false_of_ne h]
    · rw [List.lookup_cons, List.lookup_cons, ih]

theorem field?_putField_self (key : String) (value setting : Setting) :
    field? key (putField key value setting) = some value := by
  cases setting with
  | table origin fields => exact lookup_setField_self key value fields
  | scalar origin old => exact lookup_setField_self key value []
  | array origin items => exact lookup_setField_self key value []

theorem field?_putField_of_ne (h : other ≠ key) (value setting : Setting) :
    field? other (putField key value setting) = field? other setting := by
  cases setting with
  | table origin fields => exact lookup_setField_of_ne h value fields
  | scalar origin old => exact lookup_setField_of_ne h value []
  | array origin items => exact lookup_setField_of_ne h value []

/-! ## Pins -/

/-- The table at a key of a setting has a value in a field. -/
def Holds (setting : Setting) (sort field : String) (value : Scalar) : Prop :=
  ∃ origin fields, setting.field? sort = some (table origin fields) ∧
    fields.lookup field = some (scalar none value)

/-- A pin puts its value into the field of a table, over what is there. -/
theorem layPin_eq (setting : Setting) (sort field : String) (value : Setting) :
    setting.layPin ⟨[.name sort, .name field], value⟩ =
      putField (Text.lowercase sort)
        (putField (Text.lowercase field)
          (merge (field? (Text.lowercase field) ((field? (Text.lowercase sort) setting).getD nil)) value)
          ((field? (Text.lowercase sort) setting).getD nil)) setting := by
  rw [layPin, assign, assign]
  exact nofun

/-- What a field is put into is a table. -/
theorem exists_putField_eq_table (key : String) (value setting : Setting) :
    ∃ origin fields, putField key value setting = table origin fields := by
  cases setting <;> exact ⟨_, _, rfl⟩

/-- A pinned setting holds. -/
theorem holds_layPin (hsort : Text.lowercase sort = sort) (hfield : Text.lowercase field = field)
    (setting : Setting) (value : Scalar) :
    (setting.layPin ⟨[.name sort, .name field], value⟩).Holds sort field value := by
  rw [layPin_eq, merge, hsort, hfield]
  obtain ⟨origin, fields, htable⟩ :=
    exists_putField_eq_table field (scalar none value) ((field? sort setting).getD nil)
  have hlookup := field?_putField_self field (scalar none value) ((field? sort setting).getD nil)
  rw [htable] at hlookup ⊢
  exact ⟨origin, fields, field?_putField_self sort _ setting, hlookup⟩

/-- A setting holds on when another one is pinned, whatever its value is. -/
theorem Holds.layPin {old : Scalar} (h : setting.Holds sort field old)
    (hne : (Text.lowercase other, Text.lowercase key) ≠ (sort, field)) :
    (setting.layPin ⟨[.name other, .name key], value⟩).Holds sort field old := by
  obtain ⟨origin, fields, htable, hlookup⟩ := h
  rw [layPin_eq]
  by_cases hother : Text.lowercase other = sort
  · -- The pin changes the same table, and there another field.
    rw [hother, htable, Option.getD_some]
    have hkey : field ≠ Text.lowercase key := fun heq => hne (by rw [hother, heq])
    exact ⟨origin, _, field?_putField_self sort _ setting,
      (lookup_setField_of_ne hkey _ fields).trans hlookup⟩
  · exact ⟨origin, fields, (field?_putField_of_ne (Ne.symm hother) _ setting).trans htable, hlookup⟩

end Setting

/-- The pin is one of a field in a section, with keys in lower case. -/
def Pin.IsPlain (pin : Pin) : Prop :=
  ∃ sort field, pin.path = [.name sort, .name field] ∧ Text.lowercase sort = sort ∧
    Text.lowercase field = field

namespace Setting

/-- Pins hold when all of them have been laid over a setting, if no two are at the same key path. -/
theorem holds_foldl_layPin {pins : List Pin} (hplain : ∀ pin ∈ pins, pin.IsPlain)
    (hdistinct : (pins.map (·.path)).Nodup) {value : Scalar}
    (hmem : ⟨[.name sort, .name field], .scalar none value⟩ ∈ pins) (setting : Setting) :
    (pins.foldl Setting.layPin setting).Holds sort field value := by
  -- The last pin is either the one that is asked for or at another key path, and nothing is laid over it.
  induction pins using List.reverseRecOn with
  | nil => exact absurd hmem List.not_mem_nil
  | append_singleton pins pin ih =>
    rw [List.forall_mem_append, List.forall_mem_singleton] at hplain
    obtain ⟨hbefore, last, key, hpath, hlast, hkey⟩ := hplain
    rw [List.map_append, List.map_singleton, List.nodup_append] at hdistinct
    obtain ⟨hnodup, -, hdisjoint⟩ := hdistinct
    obtain ⟨path, other⟩ := pin
    obtain rfl : path = [.name last, .name key] := hpath
    rw [List.foldl_append]
    rcases List.mem_append.mp hmem with hearlier | hnow
    · refine (ih hbefore hnodup hearlier).layPin ?_
      rw [hlast, hkey]
      rintro ⟨⟩
      have hpath : [.name sort, .name field] ∈ pins.map (·.path) := List.mem_map_of_mem hearlier
      exact hdisjoint _ hpath _ (List.mem_singleton_self _) rfl
    · obtain ⟨rfl, rfl⟩ : sort = last ∧ field = key := by
        simpa using congrArg Pin.path (List.mem_singleton.mp hnow)
      rw [← List.mem_singleton.mp hnow]
      exact holds_layPin hlast hkey _ value

end Setting

namespace Loader

/-- Pins at different key paths are all kept. -/
theorem pins_foldl_pin (pins : List Pin) (loader : Loader)
    (hdistinct : ((loader.pins ++ pins).map (·.path)).Nodup) :
    (pins.foldl (fun loader pin => loader.pin pin.path pin.value) loader).pins = loader.pins ++ pins := by
  induction pins generalizing loader with
  | nil => exact (List.append_nil _).symm
  | cons pin rest ih =>
    have hkept : (loader.pin pin.path pin.value).pins = loader.pins ++ [pin] := by
      rw [Loader.pin, List.filter_eq_self.mpr]
      intro old hold
      rw [List.map_append, List.map_cons, List.nodup_append] at hdistinct
      exact decide_eq_true (hdistinct.2.2 _ (List.mem_map_of_mem hold) _ List.mem_cons_self)
    have hsplit : loader.pins ++ pin :: rest = (loader.pin pin.path pin.value).pins ++ rest := by
      rw [hkept, List.append_assoc, List.singleton_append]
    rw [hsplit] at hdistinct ⊢
    exact ih _ hdistinct

end Loader

namespace Settings

/-- A section that says that there is a dry run is read so. -/
theorem dryRun_of_decodeCreate {origin : Option String}
    (hlookup : fields.lookup "dry_run" = some (.scalar none (.boolean true)))
    {result : String × CreateOptions} (h : decodeCreate (.table origin fields) = .ok result) :
    result.2.dryRun = true := by
  have hslot : Section.create.slot? 2 (.table origin fields) =
      some ("create.dry_run", .scalar none (.boolean true)) := by
    change (fields.lookup "dry_run" >>= _) = _
    rw [hlookup]
    rfl
  have hread : Section.create.read Setting.readTruth 2 (.table origin fields) = .ok (some true) := by
    rw [Section.read, hslot]
    rfl
  obtain ⟨output?, -, h⟩ := bind_eq_ok_iff.mp h
  obtain ⟨createFiles?, -, h⟩ := bind_eq_ok_iff.mp h
  obtain ⟨dryRun?, hdryRun, h⟩ := bind_eq_ok_iff.mp h
  obtain rfl : some true = dryRun? := Except.ok.inj (hread.symm.trans hdryRun)
  obtain ⟨output, -, h⟩ := bind_eq_ok_iff.mp h
  obtain ⟨createFiles, -, h⟩ := bind_eq_ok_iff.mp h
  obtain rfl : (output, ⟨createFiles, true⟩) = result := Except.ok.inj h
  rfl

/-- Settings in which a dry run holds are settings for a dry run. -/
theorem dryRun_of_holds {settings : Settings} (hholds : setting.Holds "create" "dry_run" (.boolean true))
    (h : decode setting = .ok settings) : settings.create.dryRun = true := by
  obtain ⟨origin, fields, htable, hlookup⟩ := hholds
  have hsection : setting.section? .create = .ok (.table origin fields) := by
    rw [Setting.section?, show setting.field? Section.create.key = _ from htable]
    rfl
  obtain ⟨create, hcreate, h⟩ := bind_eq_ok_iff.mp h
  obtain rfl : Setting.table origin fields = create := Except.ok.inj (hsection.symm.trans hcreate)
  obtain ⟨⟨output, create⟩, hcreate, h⟩ := bind_eq_ok_iff.mp h
  obtain ⟨diagram, -, h⟩ := bind_eq_ok_iff.mp h
  obtain ⟨allTrees?, -, h⟩ := bind_eq_ok_iff.mp h
  obtain ⟨allTrees, -, h⟩ := bind_eq_ok_iff.mp h
  obtain ⟨log, -, h⟩ := bind_eq_ok_iff.mp h
  obtain ⟨filter?, -, h⟩ := bind_eq_ok_iff.mp h
  obtain ⟨filter, -, h⟩ := bind_eq_ok_iff.mp h
  obtain rfl : ⟨output, create, allTrees, filter⟩ = settings := Except.ok.inj h
  exact dryRun_of_decodeCreate hlookup hcreate

end Settings

end TreeSketch
