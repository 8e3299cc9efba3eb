import Mathlib.Data.List.Induction
import Mathlib.Logic.Relation
import TreeSketch.Files.Access
import TreeSketch.Proofs.Except
import TreeSketch.Proofs.Path

/-!
# File systems that grow

Operations on files only add entries to directories, one after another (`Grows`). So what stands before stands
after (`Extends`), and a file system whose entries all stand in directories stays one (`Rooted.of_grows`);
`Adds` says as well what the new entries are. A file system that has grown answers as it did before, unless
something was missing then: `follow_eq_of_extends`, `newPlace_eq_of_extends` and `lookup_eq_of_extends` all
except `notFound` only.

Every operation on a path that ends in a name first finds the place of that name (`newPlace_eq_of_endsIn`);
what it does then depends on what stands at that place.
-/

namespace TreeSketch.FileSystem

open TreeSketch.Path (Step EndsIn)

variable {fs more most : FileSystem} {place : List String} {path name : String}

/-! ## Entries -/

@[simp] theorem find?_nil (fs : FileSystem) : fs.find? [] = some .directory := rfl

theorem find?_of_ne_nil (h : place ≠ []) : fs.find? place = fs.entries.lookup place :=
  if_neg h

theorem find?_add_self (h : place ≠ []) (entry : Entry) :
    (fs.add place entry).find? place = some entry := by
  rw [find?_of_ne_nil h, add, List.lookup_cons_self]

theorem find?_add_of_ne {other : List String} (h : other ≠ place) (entry : Entry) :
    (fs.add place entry).find? other = fs.find? other := by
  by_cases hnil : other = []
  · rw [hnil, find?_nil, find?_nil]
  · rw [find?_of_ne_nil hnil, find?_of_ne_nil hnil, add, List.lookup_cons, beq_false_of_ne h]

/-! ## Growth -/

/-- Everything that stands in `fs` stands in `more` as well. -/
structure Extends (fs more : FileSystem) : Prop where
  pathLimit : more.pathLimit = fs.pathLimit
  kept : ∀ {place entry}, fs.find? place = some entry → more.find? place = some entry

/-- Everything that stands in `fs` stands in `more` as well, and `may` allows every other entry. -/
structure Adds (may : List String → Entry → Prop) (fs more : FileSystem) : Prop
    extends Extends fs more where
  added : ∀ {place entry}, fs.find? place = none → more.find? place = some entry → may place entry

theorem Extends.refl (fs : FileSystem) : fs.Extends fs :=
  ⟨rfl, id⟩

theorem Extends.trans (h : fs.Extends more) (h' : more.Extends most) : fs.Extends most :=
  ⟨h'.pathLimit.trans h.pathLimit, fun hentry => h'.kept (h.kept hentry)⟩

theorem Adds.refl (may : List String → Entry → Prop) (fs : FileSystem) : Adds may fs fs :=
  ⟨Extends.refl fs, fun hnone hsome => absurd (hnone.symm.trans hsome) nofun⟩

theorem Adds.trans {may : List String → Entry → Prop} (h : Adds may fs more) (h' : Adds may more most) :
    Adds may fs most := by
  refine ⟨h.toExtends.trans h'.toExtends, fun {place entry} hnone hsome => ?_⟩
  cases hmore : more.find? place with
  | none => exact h'.added hmore hsome
  | some other =>
    have hother := h'.kept hmore
    rw [hsome] at hother
    rw [← Option.some.inj hother] at hmore
    exact h.added hnone hmore

theorem Adds.mono {may might : List String → Entry → Prop} (hle : ∀ place entry, may place entry →
    might place entry) (h : Adds may fs more) : Adds might fs more :=
  ⟨h.toExtends, fun hnone hsome => hle _ _ (h.added hnone hsome)⟩

/-- A new entry is the only one that is added. -/
theorem adds_add {entry : Entry} (h : fs.find? place = none) {may : List String → Entry → Prop}
    (hmay : may place entry) : Adds may fs (fs.add place entry) := by
  refine ⟨⟨rfl, fun {other _} hother => ?_⟩, fun {other found} hnone hsome => ?_⟩
  · have hne : other ≠ place := fun heq => absurd ((heq ▸ hother).symm.trans h) nofun
    rw [find?_add_of_ne hne, hother]
  · by_cases heq : other = place
    · subst heq
      have hne : other ≠ [] := fun hnil => absurd ((hnil ▸ hnone : fs.find? [] = none)) nofun
      rw [find?_add_self hne] at hsome
      exact Option.some.inj hsome ▸ hmay
    · rw [find?_add_of_ne heq, hnone] at hsome
      cases hsome

/-- Every entry stands in a directory. That is so at the start and whenever a file system has grown from there. -/
def Rooted (fs : FileSystem) : Prop :=
  ∀ place name, fs.find? (place ++ [name]) ≠ none → fs.find? place = some .directory

theorem rooted_empty : FileSystem.empty.Rooted := by
  intro place name hsome
  rw [find?_of_ne_nil (by simp)] at hsome
  exact absurd rfl hsome

/-- An entry that is added to a directory stands in a directory, and so does every other one. -/
theorem Rooted.add (h : fs.Rooted) (place : List String) (name : String) (entry : Entry)
    (hdirectory : fs.find? place = some .directory) (hnone : fs.find? (place ++ [name]) = none) :
    (fs.add (place ++ [name]) entry).Rooted := by
  have hkept {above : List String} (habove : fs.find? above = some .directory) :
      (fs.add (place ++ [name]) entry).find? above = some .directory := by
    rw [find?_add_of_ne _ entry, habove]
    rintro rfl
    exact absurd (habove.symm.trans hnone) nofun
  intro above last hsome
  by_cases heq : above ++ [last] = place ++ [name]
  · exact hkept (List.append_inj_left' heq rfl ▸ hdirectory)
  · rw [find?_add_of_ne heq] at hsome
    exact hkept (h above last hsome)

/-- A new entry is added to a directory. -/
inductive AddsOne (fs : FileSystem) : FileSystem → Prop
  | intro {place name entry} (hdirectory : fs.find? place = some .directory)
    (hnone : fs.find? (place ++ [name]) = none) : AddsOne fs (fs.add (place ++ [name]) entry)

/-- New entries are added to directories, one after another. -/
def Grows : FileSystem → FileSystem → Prop :=
  Relation.ReflTransGen AddsOne

theorem Grows.refl (fs : FileSystem) : fs.Grows fs :=
  Relation.ReflTransGen.refl

theorem Grows.single (h : AddsOne fs more) : fs.Grows more :=
  Relation.ReflTransGen.single h

theorem Grows.trans (h : fs.Grows more) (h' : more.Grows most) : fs.Grows most :=
  Relation.ReflTransGen.trans h h'

theorem AddsOne.toExtends (h : AddsOne fs more) : fs.Extends more := by
  obtain @⟨place, name, entry, -, hnone⟩ := h
  have hadds : Adds (fun _ _ => True) fs (fs.add (place ++ [name]) entry) := adds_add hnone trivial
  exact hadds.toExtends

theorem Grows.toExtends (h : fs.Grows more) : fs.Extends more := by
  induction h with
  | refl => exact Extends.refl fs
  | tail _ hstep ih => exact ih.trans hstep.toExtends

theorem Rooted.of_grows (hrooted : fs.Rooted) (h : fs.Grows more) : more.Rooted := by
  induction h with
  | refl => exact hrooted
  | tail _ hstep ih =>
    obtain ⟨hdirectory, hnone⟩ := hstep
    exact ih.add _ _ _ hdirectory hnone

/-! ## Walks -/

theorem enter_eq_ok_iff : fs.enter place = .ok () ↔ fs.find? place = some .directory := by
  rw [enter]
  cases fs.find? place with
  | none => exact ⟨nofun, nofun⟩
  | some entry =>
    cases entry with
    | file content => exact ⟨nofun, nofun⟩
    | directory => exact ⟨fun _ => rfl, fun _ => rfl⟩

theorem slot_eq_ok_iff {found : List String} : fs.slot place name = .ok found ↔
    fs.find? place = some .directory ∧ name.utf8ByteSize ≤ nameLimit ∧ found = place ++ [name] := by
  rw [slot, bind_eq_ok_iff, ← enter_eq_ok_iff]
  by_cases hlong : nameLimit < name.utf8ByteSize
  · simp [hlong, Nat.not_le_of_gt hlong]
  · simp only [hlong, if_false, Except.ok.injEq, Nat.le_of_not_lt hlong, true_and]
    constructor
    · rintro ⟨_, henter, hfound⟩
      exact ⟨henter, hfound.symm⟩
    · rintro ⟨henter, hfound⟩
      exact ⟨_, henter, hfound.symm⟩

theorem enter_eq_of_extends (h : fs.Extends more) (hfound : fs.enter place ≠ .error .notFound) :
    more.enter place = fs.enter place := by
  cases hplace : fs.find? place with
  | none => exact absurd (by rw [enter, hplace]) hfound
  | some entry => rw [enter, enter, hplace, h.kept hplace]

theorem slot_eq_of_extends (h : fs.Extends more) (hfound : fs.slot place name ≠ .error .notFound) :
    more.slot place name = fs.slot place name :=
  bind_eq_of_ne_error (enter_eq_of_extends h) (fun _ _ _ => rfl) hfound

theorem move_eq_of_extends (h : fs.Extends more) {step : Step}
    (hfound : fs.move place step ≠ .error .notFound) : more.move place step = fs.move place step := by
  cases step with
  | here => exact bind_eq_of_ne_error (enter_eq_of_extends h) (fun _ _ _ => rfl) hfound
  | up => exact bind_eq_of_ne_error (enter_eq_of_extends h) (fun _ _ _ => rfl) hfound
  | into name =>
    refine bind_eq_of_ne_error (slot_eq_of_extends h) (fun found _ hne => ?_) hfound
    cases hentry : fs.find? found with
    | none => exact absurd (by rw [hentry]; rfl) hne
    | some entry => rw [h.kept hentry]

/-- A walk is its first move and then the rest. -/
theorem follow_cons (fs : FileSystem) (place : List String) (step : Step) (rest : List Step) :
    fs.follow place (step :: rest) = fs.move place step >>= fun found => fs.follow found rest := rfl

theorem follow_append (fs : FileSystem) (place : List String) (walk rest : List Step) :
    fs.follow place (walk ++ rest) =
      fs.follow place walk >>= fun found => fs.follow found rest := by
  induction walk generalizing place with
  | nil => rfl
  | cons step walk ih => rw [List.cons_append, follow_cons, follow_cons, bind_assoc, funext ih]

/-- A walk through a file system that has grown ends as before, unless something was missing. -/
theorem follow_eq_of_extends (h : fs.Extends more) {walk : List Step}
    (hfound : fs.follow place walk ≠ .error .notFound) :
    more.follow place walk = fs.follow place walk := by
  induction walk generalizing place with
  | nil => rfl
  | cons step walk ih =>
    rw [follow_cons] at hfound
    rw [follow_cons, follow_cons]
    exact bind_eq_of_ne_error (move_eq_of_extends h) (fun _ _ hne => ih hne) hfound

/-- Staying at a place before another move makes no difference: the other move looks at the place too. -/
theorem enter_bind_move (fs : FileSystem) (place : List String) (step : Step) :
    (fs.enter place >>= fun _ => fs.move place step) = fs.move place step := by
  have henter : fs.enter place >>= (fun _ => fs.enter place) = fs.enter place := by
    cases fs.enter place <;> rfl
  cases step with
  | here => rw [move, ← bind_assoc, henter]
  | up => rw [move, ← bind_assoc, henter]
  | into name => rw [move, slot, ← bind_assoc, ← bind_assoc, henter]

/-- Staying where one is changes no walk, except for a walk that ends with it. -/
theorem follow_filter {walk : List Step} (h : walk.getLast? ≠ some .here) (fs : FileSystem)
    (place : List String) : fs.follow place (walk.filter (· ≠ .here)) = fs.follow place walk := by
  induction walk generalizing place with
  | nil => rfl
  | cons step rest ih =>
    cases rest with
    | nil =>
      have hstep : step ≠ .here := by simpa using h
      rw [List.filter_cons_of_pos (by simpa using hstep), List.filter_nil]
    | cons next rest =>
      have hrest : (next :: rest).getLast? ≠ some .here := by rwa [List.getLast?_cons_cons] at h
      by_cases hstep : step = .here
      · subst hstep
        rw [List.filter_cons_of_neg (by simp), ih hrest, follow_cons, follow_cons, move, bind_assoc]
        rw [← enter_bind_move, bind_assoc]
        rfl
      · rw [List.filter_cons_of_pos (by simpa using hstep), follow_cons, follow_cons, funext (ih hrest)]

/-- A walk that ends stands at the same place without the moves that stay there. -/
theorem follow_filter_of_ok {walk : List Step} {found : List String}
    (h : fs.follow place walk = .ok found) :
    fs.follow place (walk.filter (· ≠ .here)) = .ok found := by
  induction walk generalizing place with
  | nil => exact h
  | cons step rest ih =>
    rw [follow_cons, bind_eq_ok_iff] at h
    obtain ⟨next, hmove, hrest⟩ := h
    by_cases hstep : step = .here
    · subst hstep
      obtain ⟨_, -, hnext⟩ := bind_eq_ok_iff.mp hmove
      rw [List.filter_cons_of_neg (by simp), Except.ok.inj hnext]
      exact ih hrest
    · rw [List.filter_cons_of_pos (by simpa using hstep), follow_cons, bind_eq_ok_iff]
      exact ⟨next, hmove, ih hrest⟩

/-- A way down through names ends at the place that they make up, where something stands. -/
theorem follow_down {names : List String} {found : List String}
    (h : fs.follow place (names.map .into) = .ok found) (hplace : fs.find? place ≠ none) :
    found = place ++ names ∧ fs.find? found ≠ none := by
  induction names generalizing place with
  | nil =>
    obtain rfl : place = found := Except.ok.inj h
    exact ⟨(List.append_nil place).symm, hplace⟩
  | cons name rest ih =>
    rw [List.map_cons, follow_cons, bind_eq_ok_iff] at h
    obtain ⟨next, hmove, hrest⟩ := h
    obtain ⟨slotted, hslot, hfound⟩ := bind_eq_ok_iff.mp hmove
    obtain ⟨-, -, rfl⟩ := slot_eq_ok_iff.mp hslot
    split at hfound
    · cases hfound
    · obtain rfl : place ++ [name] = next := Except.ok.inj hfound
      obtain ⟨heq, hsome⟩ := ih hrest fun hnone => absurd (Option.isNone_iff_eq_none.mpr hnone) ‹_›
      exact ⟨by rw [heq, List.append_assoc, List.singleton_append], hsome⟩

/-- In a file system whose entries stand in directories, nothing is missing on the way to an entry. -/
theorem Rooted.follow_ne_notFound (h : fs.Rooted) {names : List String}
    (hsome : fs.find? names ≠ none) : fs.follow [] (names.map .into) ≠ .error .notFound := by
  induction names using List.reverseRecOn with
  | nil => exact nofun
  | append_singleton names name ih =>
    have hdirectory := h names name hsome
    have habove := ih (by rw [hdirectory]; exact nofun)
    rw [List.map_append, List.map_singleton, follow_append]
    cases hfollow : fs.follow [] (names.map .into) with
    | error fault =>
      rw [hfollow] at habove
      exact habove
    | ok place =>
      obtain ⟨rfl, -⟩ := follow_down hfollow nofun
      change (fs.move place (.into name) >>= fun found => fs.follow found []) ≠ _
      rw [move, slot, enter_eq_ok_iff.mpr hdirectory]
      by_cases hlong : nameLimit < name.utf8ByteSize
      · simp [hlong, bind, Except.bind]
      · simp [hlong, hsome, bind, Except.bind, follow]

/-- Moves lead from the root to a directory. -/
structure Leads (fs : FileSystem) (walk : List Step) (place : List String) : Prop where
  follow : fs.follow [] walk = .ok place
  directory : fs.find? place = some .directory

theorem Leads.of_extends {walk : List Step} (hleads : fs.Leads walk place) (h : fs.Extends more) :
    more.Leads walk place :=
  ⟨(follow_eq_of_extends h (by rw [hleads.follow]; exact nofun)).trans hleads.follow,
    h.kept hleads.directory⟩

/-- One more move leads to the entry of its name, if there is one. -/
theorem Leads.follow_into {walk : List Step} (h : fs.Leads walk place)
    (hshort : name.utf8ByteSize ≤ nameLimit) : fs.follow [] (walk ++ [.into name]) =
      if (fs.find? (place ++ [name])).isNone = true then .error .notFound else .ok (place ++ [name]) := by
  have hslot : fs.slot place name = .ok (place ++ [name]) :=
    slot_eq_ok_iff.mpr ⟨h.directory, hshort, rfl⟩
  rw [follow_append, h.follow]
  change (fs.slot place name >>= fun found => _) >>= _ = _
  rw [hslot]
  change (if (fs.find? (place ++ [name])).isNone = true then _ else _) >>= _ = _
  split <;> rfl

/-- A directory in a directory is led to by one more move. -/
theorem Leads.into {walk : List Step} (h : fs.Leads walk place) (hshort : name.utf8ByteSize ≤ nameLimit)
    (hdirectory : fs.find? (place ++ [name]) = some .directory) :
    fs.Leads (walk ++ [.into name]) (place ++ [name]) := by
  refine ⟨?_, hdirectory⟩
  rw [h.follow_into hshort, hdirectory]
  rfl

/-- A name of which there is no entry leads nowhere. -/
theorem Leads.follow_missing {walk : List Step} (h : fs.Leads walk place)
    (hshort : name.utf8ByteSize ≤ nameLimit) (hnone : fs.find? (place ++ [name]) = none) :
    fs.follow [] (walk ++ [.into name]) = .error .notFound := by
  rw [h.follow_into hshort, hnone]
  rfl

/-- A name that is too long leads nowhere. -/
theorem Leads.follow_tooLong {walk : List Step} (h : fs.Leads walk place)
    (hlong : nameLimit < name.utf8ByteSize) :
    fs.follow [] (walk ++ [.into name]) = .error .nameTooLong := by
  rw [follow_append, h.follow]
  change (fs.move place (.into name) >>= fun found => fs.follow found []) = _
  rw [move, slot, enter_eq_ok_iff.mpr h.directory]
  change ((if nameLimit < name.utf8ByteSize then _ else _) >>= _) >>= _ = _
  rw [if_pos hlong]
  rfl

/-! ## Paths -/

/-- The path holds no zero and is not too long. -/
structure Fits (fs : FileSystem) (path : String) : Prop where
  noZero : '\x00' ∉ path.toList
  short : ∀ limit ∈ fs.pathLimit, path.utf8ByteSize ≤ limit

/-- A path is taken if it fits and is not empty. -/
theorem stepsOf_eq_ok_iff {steps : List Step} : fs.stepsOf path = .ok steps ↔
    fs.Fits path ∧ path ≠ "" ∧ steps = Path.steps path := by
  have hfits : fs.Fits path ↔ '\x00' ∉ path.toList ∧ ∀ limit ∈ fs.pathLimit, path.utf8ByteSize ≤ limit :=
    ⟨fun h => ⟨h.noZero, h.short⟩, fun h => ⟨h.1, h.2⟩⟩
  rw [stepsOf, hfits]
  by_cases hzero : '\x00' ∈ path.toList
  · simp [hzero]
  · by_cases hempty : path = ""
    · simp [hempty]
    · cases fs.pathLimit with
      | none => simp [hzero, hempty, eq_comm]
      | some limit =>
        by_cases hlimit : limit < path.utf8ByteSize
        · simp [hzero, hempty, hlimit, Nat.not_le_of_gt hlimit]
        · simp [hzero, hempty, hlimit, Nat.le_of_not_lt hlimit, eq_comm]

theorem Fits.of_extends (hfits : fs.Fits path) (h : fs.Extends more) : more.Fits path :=
  ⟨hfits.noZero, h.pathLimit ▸ hfits.short⟩

/-- No path but the empty one is missing before it is looked for. -/
theorem stepsOf_ne_notFound (h : path ≠ "") (fs : FileSystem) : fs.stepsOf path ≠ .error .notFound := by
  rw [stepsOf, if_neg h]
  split
  · exact nofun
  · split <;> exact nofun

/-- The start of a path that fits does so too. -/
theorem Fits.of_isPrefix (h : fs.Fits path) {start : String} (hstart : start.toList <+: path.toList) :
    fs.Fits start := by
  obtain ⟨rest, hrest⟩ := hstart
  have hpath : path = start ++ String.ofList rest := by
    rw [← String.toList_inj, String.toList_append, String.toList_ofList, hrest]
  refine ⟨fun hzero => h.noZero (hrest ▸ List.mem_append_left rest hzero), fun limit hlimit => ?_⟩
  have hshort := h.short limit hlimit
  rw [hpath, String.utf8ByteSize_append] at hshort
  omega

/-- So does the path of all pieces but the last. -/
theorem Fits.above {piece : List Char} {above : List (List Char)}
    (h : fs.Fits (Path.ofPieces (piece :: above).reverse)) : fs.Fits (Path.ofPieces above.reverse) := by
  rw [List.reverse_cons] at h
  exact h.of_isPrefix (Path.toList_ofPieces_isPrefix _ _)

/-- Whether a path is taken depends on nothing but the limit for paths. -/
theorem stepsOf_eq_of_extends (h : fs.Extends more) (path : String) :
    more.stepsOf path = fs.stepsOf path := by
  rw [stepsOf, stepsOf, h.pathLimit]

theorem stepsOf_cases (fs : FileSystem) (path : String) :
    fs.stepsOf path = .ok (Path.steps path) ∨ ∃ fault, fs.stepsOf path = .error fault := by
  cases hsteps : fs.stepsOf path with
  | error fault => exact .inr ⟨fault, rfl⟩
  | ok steps => exact .inl (congrArg _ (stepsOf_eq_ok_iff.mp hsteps).2.2)

/-- The place where a path adds an entry is that of a name in a directory. -/
theorem exists_of_newPlace {whenDirectory : IoError} {found : List String}
    (h : fs.newPlace path whenDirectory = .ok found) :
    ∃ place name, found = place ++ [name] ∧ fs.find? place = some .directory := by
  obtain ⟨steps, -, h⟩ := bind_eq_ok_iff.mp h
  split at h
  · obtain ⟨place, -, hslot⟩ := bind_eq_ok_iff.mp h
    obtain ⟨hdirectory, -, hfound⟩ := slot_eq_ok_iff.mp hslot
    exact ⟨place, _, hfound, hdirectory⟩
  · obtain ⟨_, -, h⟩ := bind_eq_ok_iff.mp h
    cases h

/-- What is added where a path adds an entry is added to a directory. -/
theorem grows_add {whenDirectory : IoError} {found : List String}
    (h : fs.newPlace path whenDirectory = .ok found) (hfound : fs.find? found = none) (entry : Entry) :
    fs.Grows (fs.add found entry) := by
  obtain ⟨place, name, rfl, hdirectory⟩ := exists_of_newPlace h
  exact .single ⟨hdirectory, hfound⟩

/-- What an operation on a path that ends in a name starts with: it finds the place of that name. -/
theorem newPlace_eq_of_endsIn {above : List Step} (h : EndsIn path above name) (fs : FileSystem)
    (whenDirectory : IoError) : fs.newPlace path whenDirectory =
      fs.stepsOf path >>= fun _ => fs.follow [] above >>= fun found => fs.slot found name := by
  have hmoves : (Path.steps path).filter (· ≠ .here) = above ++ [.into name] := h.moves
  rw [newPlace]
  rcases stepsOf_cases fs path with hsteps | ⟨fault, hsteps⟩
  · rw [hsteps]
    dsimp only [bind, Except.bind]
    rw [hmoves, List.getLast?_concat, List.dropLast_concat]
  · rw [hsteps]
    rfl

/-- A place that was found is found again when the file system has grown, and so is every fault but one. -/
theorem newPlace_eq_of_extends {above : List Step} (hend : EndsIn path above name) (h : fs.Extends more)
    {whenDirectory : IoError} (hfound : fs.newPlace path whenDirectory ≠ .error .notFound) :
    more.newPlace path whenDirectory = fs.newPlace path whenDirectory := by
  rw [newPlace_eq_of_endsIn hend] at hfound
  rw [newPlace_eq_of_endsIn hend, newPlace_eq_of_endsIn hend]
  refine bind_eq_of_ne_error (fun _ => stepsOf_eq_of_extends h path) (fun _ _ hwalk => ?_) hfound
  exact bind_eq_of_ne_error (follow_eq_of_extends h) (fun _ _ => slot_eq_of_extends h) hwalk

/-- The place of the last name of a path lies in a directory. -/
theorem newPlace_eq_ok_iff {above : List Step} (hend : EndsIn path above name)
    {whenDirectory : IoError} {found : List String} : fs.newPlace path whenDirectory = .ok found ↔
      fs.stepsOf path = .ok (Path.steps path) ∧ ∃ place, fs.follow [] above = .ok place ∧
        fs.find? place = some .directory ∧ name.utf8ByteSize ≤ nameLimit ∧ found = place ++ [name] := by
  rw [newPlace_eq_of_endsIn hend, bind_eq_ok_iff]
  simp only [bind_eq_ok_iff, slot_eq_ok_iff]
  constructor
  · rintro ⟨steps, hsteps, hwalk⟩
    obtain rfl := (stepsOf_eq_ok_iff.mp hsteps).2.2
    exact ⟨hsteps, hwalk⟩
  · rintro ⟨hsteps, hwalk⟩
    exact ⟨_, hsteps, hwalk⟩

/-- A path ends in a name only if it is not empty. -/
theorem ne_empty_of_endsIn {above : List Step} (hend : EndsIn path above name) : path ≠ "" := by
  rintro rfl
  have hmoves := hend.moves
  rw [show Path.moves "" = [] from rfl] at hmoves
  simp at hmoves

/-- The place of a name is missing when a directory on the way down to it is missing. -/
theorem newPlace_eq_notFound {names : List String} (hend : EndsIn path (names.map .into) name)
    {whenDirectory : IoError} (h : fs.newPlace path whenDirectory = .error .notFound) :
    fs.Fits path ∧ fs.follow [] (names.map .into) = .error .notFound := by
  rw [newPlace_eq_of_endsIn hend] at h
  rcases stepsOf_cases fs path with hsteps | ⟨fault, hsteps⟩
  · refine ⟨(stepsOf_eq_ok_iff.mp hsteps).1, ?_⟩
    rw [hsteps] at h
    change (fs.follow [] (names.map .into) >>= fun found => fs.slot found name) = _ at h
    cases hfollow : fs.follow [] (names.map .into) with
    | error fault =>
      rw [hfollow] at h
      exact h
    | ok place =>
      -- What the walk has reached is there, so the name can be looked for.
      obtain ⟨-, hsome⟩ := follow_down hfollow nofun
      rw [hfollow] at h
      change (fs.enter place >>= fun _ => _) = _ at h
      obtain ⟨entry, hentry⟩ := Option.ne_none_iff_exists'.mp hsome
      rw [enter, hentry] at h
      cases entry with
      | file content => cases h
      | directory =>
        change (if nameLimit < name.utf8ByteSize then _ else _) = _ at h
        split at h <;> cases h
  · rw [hsteps] at h
    obtain rfl : fault = .notFound := Except.error.inj h
    exact absurd hsteps (stepsOf_ne_notFound (ne_empty_of_endsIn hend) fs)

/-- Of a path that fits, the walk above the last name comes first. -/
theorem newPlace_of_fits {walk : List Step} (hend : EndsIn path walk name) (hfits : fs.Fits path)
    (whenDirectory : IoError) : fs.newPlace path whenDirectory =
      fs.follow [] walk >>= fun place => fs.slot place name := by
  rw [newPlace_eq_of_endsIn hend, stepsOf_eq_ok_iff.mpr ⟨hfits, ne_empty_of_endsIn hend, rfl⟩]
  rfl

/-- When the place of the last name is found although something is missing, the last entry is missing. -/
theorem exists_newPlace_of_missing {walk : List Step} (hend : EndsIn path walk name)
    (hfits : fs.Fits path) {whenDirectory : IoError}
    (hplace : fs.newPlace path whenDirectory ≠ .error .notFound)
    (hmissing : fs.follow [] (walk ++ [.into name]) = .error .notFound) :
    ∃ found, fs.newPlace path whenDirectory = .ok found ∧ fs.find? found = none := by
  rw [newPlace_of_fits hend hfits] at hplace ⊢
  rw [follow_append] at hmissing
  cases hfollow : fs.follow [] walk with
  | error fault =>
    rw [hfollow] at hmissing hplace
    exact absurd hmissing hplace
  | ok place =>
    rw [hfollow] at hmissing hplace
    change (fs.slot place name >>= fun found =>
      if (fs.find? found).isNone = true then _ else _) >>= _ = _ at hmissing
    change fs.slot place name ≠ _ at hplace
    change ∃ found, fs.slot place name = _ ∧ _
    cases hslot : fs.slot place name with
    | error fault =>
      rw [hslot] at hmissing hplace
      exact absurd hmissing hplace
    | ok found =>
      refine ⟨found, rfl, ?_⟩
      cases hfound : fs.find? found with
      | none => rfl
      | some entry =>
        rw [hslot] at hmissing
        change (if (fs.find? found).isNone = true then _ else _) >>= _ = _ at hmissing
        rw [hfound] at hmissing
        cases hmissing

/-- Where a path leads into a directory, the place of its last name is found if the name is not too long. -/
theorem newPlace_of_leads {walk : List Step} (hend : EndsIn path walk name) (hfits : fs.Fits path)
    (hleads : fs.Leads walk place) (whenDirectory : IoError) : fs.newPlace path whenDirectory =
      if nameLimit < name.utf8ByteSize then .error .nameTooLong else .ok (place ++ [name]) := by
  rw [newPlace_of_fits hend hfits, hleads.follow]
  change (fs.enter place >>= fun _ => _) = _
  rw [enter_eq_ok_iff.mpr hleads.directory]
  rfl

/-- Where a path leads into a directory, nothing is missing but perhaps the last entry itself. -/
theorem newPlace_ne_notFound {walk : List Step} (hend : EndsIn path walk name)
    (hleads : fs.Leads walk place) (whenDirectory : IoError) :
    fs.newPlace path whenDirectory ≠ .error .notFound := by
  rcases stepsOf_cases fs path with hsteps | ⟨fault, hsteps⟩
  · rw [newPlace_of_leads hend (stepsOf_eq_ok_iff.mp hsteps).1 hleads]
    split <;> exact nofun
  · rw [newPlace_eq_of_endsIn hend, hsteps]
    intro h
    obtain rfl : fault = .notFound := Except.error.inj h
    exact stepsOf_ne_notFound (ne_empty_of_endsIn hend) fs hsteps

/-- What stands at a path that ends in a name is what stands at the place of that name. -/
theorem lookup_eq_of_endsIn {above : List Step} (h : EndsIn path above name) (fs : FileSystem)
    (whenDirectory : IoError) : fs.lookup path = fs.newPlace path whenDirectory >>= fs.entryAt := by
  have hmoves : (Path.steps path).filter (· ≠ .here) = above ++ [.into name] := h.moves
  rw [newPlace_eq_of_endsIn h, lookup]
  rcases stepsOf_cases fs path with hsteps | ⟨fault, hsteps⟩
  · rw [hsteps]
    change (fs.follow [] (Path.steps path) >>= fs.entryAt) =
      ((fs.follow [] above >>= fun found => fs.slot found name) >>= fs.entryAt)
    rw [← follow_filter h.last, hmoves, follow_append, bind_assoc, bind_assoc]
    refine congrArg (fs.follow [] above >>= ·) (funext fun found => ?_)
    rw [follow_cons, move, bind_assoc, bind_assoc]
    refine congrArg (fs.slot found name >>= ·) (funext fun slotted => ?_)
    -- Nothing at the place is noticed by the move before it is noticed by the look at the place.
    cases hslotted : fs.find? slotted with
    | none => rw [entryAt, hslotted]; rfl
    | some entry => rfl
  · rw [hsteps]
    rfl

/-- What stands at a path when the file system has grown is what stood there before. -/
theorem lookup_eq_of_extends (h : fs.Extends more) (hfound : fs.lookup path ≠ .error .notFound) :
    more.lookup path = fs.lookup path := by
  refine bind_eq_of_ne_error (fun _ => stepsOf_eq_of_extends h path) (fun _ _ hwalk => ?_) hfound
  refine bind_eq_of_ne_error (follow_eq_of_extends h) (fun found _ hentry => ?_) hwalk
  cases hplace : fs.find? found with
  | none => exact absurd (by rw [entryAt, hplace]) hentry
  | some entry => rw [entryAt, entryAt, hplace, h.kept hplace]

end TreeSketch.FileSystem
