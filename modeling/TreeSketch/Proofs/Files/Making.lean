import TreeSketch.Proofs.Files.System
import TreeSketch.Tree.Kind

/-!
# Adding files and directories

One entry is added by `put`, whatever its kind: `settle_touch` says so of files and `secure_eq_put` of
directories. Putting an entry adds no other one (`put_adds`), afterwards it shows at its path (`status_put`),
and putting it again changes nothing (`put_of_extends`).

Directories above an entry are made from the end of its path: the last one is tried first, and when something
is missing the ones above it are made before it is tried again. On a path that only goes down, `Makes` and
`Builds` say this with one rule for each case, and an induction over the rules gives what is added, that a
way whose directories were all made leads to the last one, and that a second attempt changes nothing and ends
as the first one did (`Makes.again`, `Builds.again`). The last is not obvious where the first attempt failed:
it may have made some of the directories, so that the second one meets another obstacle first.
`Makes.blocked` says that the only such obstacle is a name that is too long, with the same fault.
-/

namespace TreeSketch

open TreeSketch.Path (Step EndsIn Down)

/-- What is added for an entry of a kind. -/
def Kind.blank : Kind → Entry
  | .directory => .directory
  | .file => .file .empty

/-- Why an entry of a kind is not added where something of the other kind stands. -/
def Kind.clash : Kind → IoError
  | .directory => .alreadyExists
  | .file => .isADirectory

/-- What the entry is. -/
def Entry.kind : Entry → Kind
  | .directory => .directory
  | .file _ => .file

/-- How an entry of a kind shows. -/
def Kind.status : Kind → Status
  | .directory => .directory
  | .file => .file

@[simp] theorem Kind.kind_blank (kind : Kind) : kind.blank.kind = kind := by
  cases kind <;> rfl

namespace FileSystem

variable {fs more : FileSystem} {path name : String} {kind : Kind}

/-! ## One entry -/

/-- Adds an entry of a kind at a path, unless one of that kind stands there already. -/
def put (fs : FileSystem) (kind : Kind) (path : String) : Except IoError Unit × FileSystem :=
  match fs.newPlace path kind.clash with
  | .error fault => (.error fault, fs)
  | .ok found =>
    match fs.find? found with
    | none => (.ok (), fs.add found kind.blank)
    | some entry => (if entry.kind = kind then .ok () else .error kind.clash, fs)

theorem put_of_error {fault : IoError} (h : fs.newPlace path kind.clash = .error fault) :
    fs.put kind path = (.error fault, fs) := by
  rw [put, h]

theorem put_of_none {found : List String} (h : fs.newPlace path kind.clash = .ok found)
    (hfound : fs.find? found = none) : fs.put kind path = (.ok (), fs.add found kind.blank) := by
  rw [put, h]
  dsimp only
  rw [hfound]

theorem put_of_some {found : List String} {entry : Entry}
    (h : fs.newPlace path kind.clash = .ok found) (hfound : fs.find? found = some entry) :
    fs.put kind path = (if entry.kind = kind then .ok () else .error kind.clash, fs) := by
  rw [put, h]
  dsimp only
  rw [hfound]

/-- Adding a file is putting one. -/
theorem settle_touch (fs : FileSystem) (path : String) :
    fs.settle (fs.touch path) = fs.put .file path := by
  rw [touch]
  cases hplace : fs.newPlace path .isADirectory with
  | error fault =>
    rw [put_of_error hplace]
    rfl
  | ok found =>
    dsimp only [bind, Except.bind]
    cases hfound : fs.find? found with
    | none =>
      rw [put_of_none hplace hfound]
      rfl
    | some entry =>
      rw [put_of_some hplace hfound]
      cases entry <;> rfl

/-- Tries to add a directory. One that is there already is no failure. -/
def secure (fs : FileSystem) (path : String) : Except IoError Unit × FileSystem :=
  match fs.makeDirectory path with
  | .ok made => (.ok (), made)
  | .error fault => (if fs.status path = .directory then .ok () else .error fault, fs)

theorem makeDirectory_of_error {fault : IoError} (h : fs.newPlace path .alreadyExists = .error fault) :
    fs.makeDirectory path = .error fault := by
  rw [makeDirectory, h]
  rfl

theorem makeDirectory_of_none {found : List String} (h : fs.newPlace path .alreadyExists = .ok found)
    (hfound : fs.find? found = none) : fs.makeDirectory path = .ok (fs.add found .directory) := by
  rw [makeDirectory, h]
  dsimp only [bind, Except.bind]
  rw [hfound]

theorem makeDirectory_of_some {found : List String} {entry : Entry}
    (h : fs.newPlace path .alreadyExists = .ok found) (hfound : fs.find? found = some entry) :
    fs.makeDirectory path = .error .alreadyExists := by
  rw [makeDirectory, h]
  dsimp only [bind, Except.bind]
  rw [hfound]

/-- Nothing shows at a path that ends in a name of which there is no place. -/
theorem status_of_error {above : List Step} (hend : EndsIn path above name) {whenDirectory fault : IoError}
    (h : fs.newPlace path whenDirectory = .error fault) : fs.status path = .absent := by
  rw [status, lookup_eq_of_endsIn hend fs whenDirectory, h]
  rfl

/-- At a path that ends in a name shows what stands at the place of that name. -/
theorem status_of_some {above : List Step} (hend : EndsIn path above name) {whenDirectory : IoError}
    {found : List String} {entry : Entry} (h : fs.newPlace path whenDirectory = .ok found)
    (hfound : fs.find? found = some entry) : fs.status path = entry.kind.status := by
  have hentry : fs.entryAt found = .ok entry := by rw [entryAt, hfound]
  have hlookup : fs.lookup path = .ok entry := by
    rw [lookup_eq_of_endsIn hend fs whenDirectory, h]
    exact hentry
  rw [status, hlookup]
  cases entry <;> rfl

/-- What shows at a path shows there when the file system has grown. -/
theorem status_eq_of_extends (h : fs.Extends more) (hstatus : fs.status path ≠ .absent) :
    more.status path = fs.status path := by
  have hfound : fs.lookup path ≠ .error .notFound := fun heq => hstatus (by rw [status, heq])
  rw [status, status, lookup_eq_of_extends h hfound]

/-- To secure a directory is to put one. -/
theorem secure_eq_put {above : List Step} (hend : EndsIn path above name) (fs : FileSystem) :
    fs.secure path = fs.put .directory path := by
  rw [secure]
  cases hplace : fs.newPlace path .alreadyExists with
  | error fault =>
    rw [makeDirectory_of_error hplace, status_of_error hend hplace, put_of_error hplace]
    rfl
  | ok found =>
    cases hfound : fs.find? found with
    | none => rw [makeDirectory_of_none hplace hfound, put_of_none hplace hfound, Kind.blank]
    | some entry =>
      rw [makeDirectory_of_some hplace hfound, status_of_some hend hplace hfound,
        put_of_some hplace hfound]
      cases entry <;> rfl

/-- Putting an entry adds at most that entry. -/
theorem put_adds (fs : FileSystem) (kind : Kind) (path : String) :
    Adds (fun place entry => fs.newPlace path kind.clash = .ok place ∧ entry = kind.blank) fs
      (fs.put kind path).2 := by
  cases hplace : fs.newPlace path kind.clash with
  | error fault => exact put_of_error hplace ▸ Adds.refl _ fs
  | ok found =>
    cases hfound : fs.find? found with
    | none => exact put_of_none hplace hfound ▸ adds_add hfound ⟨rfl, rfl⟩
    | some entry => exact put_of_some hplace hfound ▸ Adds.refl _ fs

/-- The place of a name on a way down is made up of the names. -/
theorem newPlace_down {names found : List String} (hend : EndsIn path (names.map .into) name)
    {whenDirectory : IoError} (h : fs.newPlace path whenDirectory = .ok found) : found = names ++ [name] := by
  obtain ⟨-, above, hfollow, -, -, rfl⟩ := (newPlace_eq_ok_iff hend).mp h
  rw [(follow_down hfollow nofun).1, List.nil_append]

/-- On a way down, an entry is put at the place that the names make up. -/
theorem put_adds_down {names : List String} (hend : EndsIn path (names.map .into) name) (fs : FileSystem)
    (kind : Kind) :
    Adds (fun place entry => place = names ++ [name] ∧ entry = kind.blank) fs (fs.put kind path).2 :=
  (put_adds fs kind path).mono fun _ _ hmay => ⟨newPlace_down hend hmay.1, hmay.2⟩

theorem grows_put (fs : FileSystem) (kind : Kind) (path : String) : fs.Grows (fs.put kind path).2 := by
  cases hplace : fs.newPlace path kind.clash with
  | error fault => exact put_of_error hplace ▸ .refl fs
  | ok found =>
    cases hfound : fs.find? found with
    | none => exact put_of_none hplace hfound ▸ grows_add hplace hfound _
    | some entry => exact put_of_some hplace hfound ▸ .refl fs

theorem grows_secure (fs : FileSystem) (path : String) : fs.Grows (fs.secure path).2 := by
  rw [secure]
  cases hplace : fs.newPlace path .alreadyExists with
  | error fault => exact makeDirectory_of_error hplace ▸ .refl fs
  | ok found =>
    cases hfound : fs.find? found with
    | none => exact makeDirectory_of_none hplace hfound ▸ grows_add hplace hfound _
    | some entry => exact makeDirectory_of_some hplace hfound ▸ .refl fs

/-- A directory that was put is one that its path leads to. -/
theorem leads_put {walk : List Step} (hend : EndsIn path walk name)
    (hok : (fs.put .directory path).1 = .ok ()) : ∃ place,
      (fs.put .directory path).2.Leads walk place ∧
      (fs.put .directory path).2.Leads (walk ++ [.into name]) (place ++ [name]) := by
  have hextends := (put_adds fs .directory path).toExtends
  cases hplace : fs.newPlace path Kind.directory.clash with
  | error fault =>
    rw [put_of_error hplace] at hok
    cases hok
  | ok found =>
    obtain ⟨-, place, hfollow, hdirectory, hshort, rfl⟩ := (newPlace_eq_ok_iff hend).mp hplace
    have hleads := Leads.of_extends ⟨hfollow, hdirectory⟩ hextends
    refine ⟨place, hleads, hleads.into hshort ?_⟩
    cases hfound : fs.find? (place ++ [name]) with
    | none =>
      rw [put_of_none hplace hfound]
      exact find?_add_self (by simp) _
    | some entry =>
      rw [put_of_some hplace hfound] at hok ⊢
      cases entry with
      | directory => exact hfound
      | file content => cases hok

/-- On a way down, it is one that the names lead to. -/
theorem leads_put_down {names : List String} (hend : EndsIn path (names.map .into) name)
    (hok : (fs.put .directory path).1 = .ok ()) :
    (fs.put .directory path).2.Leads ((names ++ [name]).map .into) (names ++ [name]) := by
  obtain ⟨place, habove, hleads⟩ := leads_put hend hok
  obtain ⟨rfl, -⟩ := follow_down habove.follow nofun
  rw [List.map_append]
  exact hleads

/-- What was put shows at its path. -/
theorem status_put {above : List Step} (hend : EndsIn path above name)
    (hok : (fs.put kind path).1 = .ok ()) : (fs.put kind path).2.status path = kind.status := by
  cases hplace : fs.newPlace path kind.clash with
  | error fault =>
    rw [put_of_error hplace] at hok
    cases hok
  | ok found =>
    cases hfound : fs.find? found with
    | none =>
      have hagain := newPlace_eq_of_extends hend (put_adds fs kind path).toExtends (by rw [hplace]; exact nofun)
      obtain ⟨-, above, -, -, -, rfl⟩ := (newPlace_eq_ok_iff hend).mp hplace
      rw [put_of_none hplace hfound] at hagain ⊢
      rw [status_of_some hend (hagain.trans hplace) (find?_add_self (by simp) _), Kind.kind_blank]
    | some entry =>
      rw [put_of_some hplace hfound] at hok ⊢
      rw [status_of_some hend hplace hfound]
      split at hok
      · rw [‹entry.kind = kind›]
      · cases hok

/-- Putting an entry once more changes nothing and has the same outcome, whatever was added since. -/
theorem put_of_extends {above : List Step} (hend : EndsIn path above name)
    (hfound : fs.newPlace path kind.clash ≠ .error .notFound) (h : (fs.put kind path).2.Extends more) :
    more.put kind path = ((fs.put kind path).1, more) := by
  have hgrown : fs.Extends more := (put_adds fs kind path).toExtends.trans h
  have hagain := newPlace_eq_of_extends hend hgrown hfound
  cases hplace : fs.newPlace path kind.clash with
  | error fault => rw [put_of_error hplace, put_of_error (hagain.trans hplace)]
  | ok found =>
    cases hentry : fs.find? found with
    | none =>
      obtain ⟨-, above, -, -, -, rfl⟩ := (newPlace_eq_ok_iff hend).mp hplace
      rw [put_of_none hplace hentry] at h ⊢
      have hblank := h.kept (find?_add_self (by simp) kind.blank)
      rw [put_of_some (hagain.trans hplace) hblank, Kind.kind_blank, if_pos rfl]
    | some entry =>
      rw [put_of_some hplace hentry, put_of_some (hagain.trans hplace) (hgrown.kept hentry)]

/-! ## Directories on the way -/

/-- Adds the directory at the path of pieces, given from the last to the first, and those above it. -/
def makeAll (fs : FileSystem) (pieces : List (List Char)) : Except IoError Unit × FileSystem :=
  makeDirectories (m := StateM FileSystem) pieces fs

variable {piece : List Char} {above : List (List Char)}

theorem makeAll_of_not_isMove (h : Path.isMove piece = false) (fs : FileSystem) :
    fs.makeAll (piece :: above) = fs.makeAll above := by
  rw [makeAll, makeDirectories, if_neg (by simp [h])]
  rfl

/-- Trying to add a directory, and forgiving that it is there, is securing it. -/
theorem forgive_makeDirectory (fs : FileSystem) (path : String) :
    forgive (m := StateM FileSystem) path (fs.settle (fs.makeDirectory path)).1
      (fs.settle (fs.makeDirectory path)).2 = fs.secure path := by
  rw [secure]
  cases fs.makeDirectory path with
  | ok made => rfl
  | error fault =>
    refine Prod.ext ?_ rfl
    change (if (decide (fs.status path = .directory)) = true then Except.ok () else .error fault) = _
    simp only [decide_eq_true_eq]

theorem makeDirectory_apply (fs : FileSystem) (path : String) :
    FileAccess.makeDirectory (m := StateM FileSystem) path fs = fs.settle (fs.makeDirectory path) := rfl

/-- If nothing is missing above a directory, it is secured by itself. -/
theorem makeAll_of_ne_notFound (hmove : Path.isMove piece = true)
    (h : fs.makeDirectory (Path.ofPieces (piece :: above).reverse) ≠ .error .notFound) :
    fs.makeAll (piece :: above) = fs.secure (Path.ofPieces (piece :: above).reverse) := by
  rw [makeAll, makeDirectories, if_pos hmove, bind_apply, makeDirectory_apply, ← forgive_makeDirectory]
  cases hmake : fs.makeDirectory (Path.ofPieces (piece :: above).reverse) with
  | ok made => rfl
  | error fault =>
    cases fault with
    | notFound => exact absurd hmake h
    | _ => rfl

/-- If something is missing above a directory, the directories above it come first. -/
theorem makeAll_of_notFound (hmove : Path.isMove piece = true)
    (h : fs.makeDirectory (Path.ofPieces (piece :: above).reverse) = .error .notFound) :
    fs.makeAll (piece :: above) =
      match fs.makeAll above with
      | (.error fault, made) => (.error fault, made)
      | (.ok (), made) => made.secure (Path.ofPieces (piece :: above).reverse) := by
  rw [makeAll, makeDirectories, if_pos hmove, bind_apply, makeDirectory_apply, h]
  change (makeDirectories (m := StateM FileSystem) above >>= _) fs = _
  rw [bind_apply, makeAll]
  rcases makeDirectories (m := StateM FileSystem) above fs with ⟨fault | ⟨⟩, made⟩
  · rfl
  · exact forgive_makeDirectory made _

theorem makeDirectory_eq_notFound_iff (fs : FileSystem) (path : String) :
    fs.makeDirectory path = .error .notFound ↔ fs.newPlace path .alreadyExists = .error .notFound := by
  cases hplace : fs.newPlace path .alreadyExists with
  | error fault => simp [makeDirectory_of_error hplace]
  | ok found =>
    cases hfound : fs.find? found with
    | none => simp [makeDirectory_of_none hplace hfound]
    | some entry => simp [makeDirectory_of_some hplace hfound]

theorem makeAll_of_newPlace (hmove : Path.isMove piece = true) {walk : List Step}
    (hend : EndsIn (Path.ofPieces (piece :: above).reverse) walk name)
    (h : fs.newPlace (Path.ofPieces (piece :: above).reverse) .alreadyExists ≠ .error .notFound) :
    fs.makeAll (piece :: above) = fs.put .directory (Path.ofPieces (piece :: above).reverse) := by
  rw [makeAll_of_ne_notFound hmove ((makeDirectory_eq_notFound_iff fs _).not.mpr h), secure_eq_put hend]

theorem grows_makeAll (fs : FileSystem) (pieces : List (List Char)) : fs.Grows (fs.makeAll pieces).2 := by
  induction pieces with
  | nil => exact .refl fs
  | cons piece above ih =>
    cases hmove : Path.isMove piece with
    | false => rwa [makeAll_of_not_isMove hmove]
    | true =>
      by_cases hmissing : fs.makeDirectory (Path.ofPieces (piece :: above).reverse) = .error .notFound
      · rw [makeAll_of_notFound hmove hmissing]
        rcases hall : fs.makeAll above with ⟨fault | ⟨⟩, made⟩
        · rw [hall] at ih
          exact ih
        · rw [hall] at ih
          exact ih.trans (grows_secure made _)
      · rw [makeAll_of_ne_notFound hmove hmissing]
        exact grows_secure fs _

/-- How the directories on a way down are made: one after another, each when those above it are there.
The rules follow the pieces of the path from the last one up. -/
inductive Makes (fs : FileSystem) :
    List (List Char) → List String → Except IoError Unit → FileSystem → Prop
  /-- There is no directory to make. -/
  | root : Makes fs [] [] (.ok ()) fs
  /-- The piece is no move. -/
  | skip {piece above names outcome made} (hmove : Path.isMove piece = false)
    (habove : Makes fs above names outcome made) : Makes fs (piece :: above) names outcome made
  /-- Nothing is missing above the directory. -/
  | last {piece above names name} (hmove : Path.isMove piece = true)
    (hend : EndsIn (Path.ofPieces (piece :: above).reverse) (names.map .into) name)
    (hplace : fs.newPlace (Path.ofPieces (piece :: above).reverse) .alreadyExists ≠ .error .notFound) :
    Makes fs (piece :: above) (names ++ [name])
      (fs.put .directory (Path.ofPieces (piece :: above).reverse)).1
      (fs.put .directory (Path.ofPieces (piece :: above).reverse)).2
  /-- Something is missing above the directory and cannot be made. -/
  | fail {piece above names name fault made} (hmove : Path.isMove piece = true)
    (hend : EndsIn (Path.ofPieces (piece :: above).reverse) (names.map .into) name)
    (hplace : fs.newPlace (Path.ofPieces (piece :: above).reverse) .alreadyExists = .error .notFound)
    (habove : Makes fs above names (.error fault) made) :
    Makes fs (piece :: above) (names ++ [name]) (.error fault) made
  /-- What is missing above the directory is made first. -/
  | next {piece above names name made} (hmove : Path.isMove piece = true)
    (hend : EndsIn (Path.ofPieces (piece :: above).reverse) (names.map .into) name)
    (hplace : fs.newPlace (Path.ofPieces (piece :: above).reverse) .alreadyExists = .error .notFound)
    (habove : Makes fs above names (.ok ()) made) :
    Makes fs (piece :: above) (names ++ [name])
      (made.put .directory (Path.ofPieces (piece :: above).reverse)).1
      (made.put .directory (Path.ofPieces (piece :: above).reverse)).2

/-- The directories on a way down are made by these rules. -/
theorem makes_makeAll (fs : FileSystem) {pieces : List (List Char)} {names : List String}
    (h : Down pieces names) : fs.Makes pieces names (fs.makeAll pieces).1 (fs.makeAll pieces).2 := by
  induction pieces generalizing names with
  | nil =>
    obtain rfl : names = [] := by simpa using h.moves.symm
    exact .root
  | cons piece above ih =>
    cases hmove : Path.isMove piece with
    | false =>
      rw [makeAll_of_not_isMove hmove]
      exact .skip hmove (ih (h.of_not_isMove hmove))
    | true =>
      obtain ⟨before, name, rfl, habove, hend⟩ := h.of_isMove hmove
      have hmade := ih habove
      by_cases hplace :
          fs.newPlace (Path.ofPieces (piece :: above).reverse) .alreadyExists = .error .notFound
      · rw [makeAll_of_notFound hmove ((makeDirectory_eq_notFound_iff fs _).mpr hplace)]
        rcases hall : fs.makeAll above with ⟨fault | ⟨⟩, made⟩
        · rw [hall] at hmade
          exact .fail hmove hend hplace hmade
        · rw [hall] at hmade
          change fs.Makes _ _ (made.secure _).1 (made.secure _).2
          rw [secure_eq_put hend]
          exact .next hmove hend hplace hmade
      · rw [makeAll_of_newPlace hmove hend hplace]
        exact .last hmove hend hplace

namespace Makes

variable {made : FileSystem} {pieces : List (List Char)} {names : List String}
  {outcome : Except IoError Unit}

/-- What the rules allow is what happens. -/
theorem makeAll_eq (h : fs.Makes pieces names outcome made) : fs.makeAll pieces = (outcome, made) := by
  induction h with
  | root => rfl
  | skip hmove _ ih => rw [makeAll_of_not_isMove hmove, ih]
  | last hmove hend hplace => rw [makeAll_of_newPlace hmove hend hplace]
  | fail hmove _ hplace _ ih =>
    rw [makeAll_of_notFound hmove ((makeDirectory_eq_notFound_iff fs _).mpr hplace), ih]
  | next hmove hend hplace _ ih =>
    rw [makeAll_of_notFound hmove ((makeDirectory_eq_notFound_iff fs _).mpr hplace), ih]
    exact secure_eq_put hend _

/-- Only directories on the way are added. -/
theorem adds (h : fs.Makes pieces names outcome made) :
    Adds (fun place entry => place <+: names ∧ entry = .directory) fs made := by
  have hlast {names : List String} {name : String} : ∀ place entry,
      place = names ++ [name] ∧ entry = Entry.directory → place <+: names ++ [name] ∧ entry = .directory :=
    fun _ _ hmay => ⟨hmay.1 ▸ List.prefix_refl _, hmay.2⟩
  have hlonger {names : List String} {name : String} : ∀ place entry,
      place <+: names ∧ entry = Entry.directory → place <+: names ++ [name] ∧ entry = .directory :=
    fun _ _ hmay => ⟨hmay.1.trans (List.prefix_append _ _), hmay.2⟩
  induction h with
  | root => exact Adds.refl _ fs
  | skip _ _ ih => exact ih
  | last _ hend _ => exact (put_adds_down hend fs .directory).mono hlast
  | fail _ _ _ _ ih => exact ih.mono hlonger
  | next _ hend _ _ ih => exact (ih.mono hlonger).trans ((put_adds_down hend _ .directory).mono hlast)

/-- When all directories are made, the way leads to a directory. -/
theorem leads (h : fs.Makes pieces names outcome made) (hok : outcome = .ok ()) :
    made.Leads (names.map .into) names := by
  induction h with
  | root => exact ⟨rfl, rfl⟩
  | skip _ _ ih => exact ih hok
  | last _ hend _ => exact leads_put_down hend hok
  | fail _ _ _ _ _ => cases hok
  | next _ hend _ _ _ => exact leads_put_down hend hok

/-- If a directory is missing on the way and not all of them can be made, a name is too long, and then it
stays in the way. -/
theorem blocked (h : fs.Makes pieces names outcome made) (hrooted : fs.Rooted) {fault : IoError}
    (herror : outcome = .error fault) (hfits : fs.Fits (Path.ofPieces pieces.reverse))
    (hmissing : fs.follow [] (names.map .into) = .error .notFound) :
    fault = .nameTooLong ∧ ∀ {more : FileSystem}, made.Extends more →
      more.follow [] (names.map .into) = .error .nameTooLong := by
  induction h with
  | root => cases herror
  | skip _ _ ih => exact ih herror hfits.above hmissing
  | last _ hend hplace =>
    rw [List.map_append] at hmissing
    obtain ⟨found, hfound, hnone⟩ := exists_newPlace_of_missing hend hfits hplace hmissing
    rw [put_of_none hfound hnone] at herror
    cases herror
  | fail _ hend hplace _ ih =>
    obtain ⟨rfl, hblocked⟩ := ih herror hfits.above (newPlace_eq_notFound hend hplace).2
    refine ⟨rfl, fun hmore => ?_⟩
    rw [List.map_append, follow_append, hblocked hmore]
    rfl
  | @next piece above names name made _ hend hplace hmade _ =>
    have hleads := hmade.leads rfl
    have hfound := newPlace_of_leads hend (hfits.of_extends hmade.adds.toExtends) hleads .alreadyExists
    by_cases hlong : nameLimit < name.utf8ByteSize
    · rw [if_pos hlong] at hfound
      rw [put_of_error hfound] at herror
      refine ⟨(Except.error.inj herror).symm, fun hmore => ?_⟩
      rw [put_of_error hfound] at hmore
      rw [List.map_append]
      exact (hleads.of_extends hmore).follow_tooLong hlong
    · -- Nothing can stand at a place whose directory was missing, nor was it put there since.
      rw [if_neg hlong] at hfound
      have hbefore : fs.find? (names ++ [name]) = none := by
        by_contra hsome
        have hdirectory := hrooted names name hsome
        exact hrooted.follow_ne_notFound (by rw [hdirectory]; exact nofun)
          (newPlace_eq_notFound hend hplace).2
      have hnone : made.find? (names ++ [name]) = none := by
        by_contra hsome
        obtain ⟨entry, hentry⟩ := Option.ne_none_iff_exists'.mp hsome
        have hlength := (hmade.adds.added hbefore hentry).1.length_le
        rw [List.length_append, List.length_singleton] at hlength
        omega
      rw [put_of_none hfound hnone] at herror
      cases herror

/-- Making directories once more changes nothing and has the same outcome, whatever was added since. -/
theorem again (h : fs.Makes pieces names outcome made) (hrooted : fs.Rooted) {more : FileSystem}
    (hmore : made.Extends more) : more.makeAll pieces = (outcome, more) := by
  induction h with
  | root => rfl
  | skip hmove _ ih => rw [makeAll_of_not_isMove hmove, ih hmore]
  | last hmove hend hplace =>
    have hgrown := (put_adds fs .directory _).toExtends.trans hmore
    have hagain := newPlace_eq_of_extends hend hgrown hplace
    rw [makeAll_of_newPlace hmove hend (hagain ▸ hplace), put_of_extends hend hplace hmore]
  | fail hmove hend hplace hmade _ =>
    obtain ⟨hfits, hmissing⟩ := newPlace_eq_notFound hend hplace
    obtain ⟨rfl, hblocked⟩ := hmade.blocked hrooted rfl hfits.above hmissing
    -- The name that is too long is now the first obstacle on the whole way.
    have hgrown := hmade.adds.toExtends.trans hmore
    have hagain := newPlace_of_fits hend (hfits.of_extends hgrown) .alreadyExists
    rw [hblocked hmore] at hagain
    rw [makeAll_of_newPlace hmove hend (by rw [hagain]; exact nofun),
      put_of_error hagain]
  | @next piece above names name made hmove hend hplace hmade _ =>
    have hne : made.newPlace (Path.ofPieces (piece :: above).reverse) .alreadyExists ≠ .error .notFound :=
      newPlace_ne_notFound hend (hmade.leads rfl) .alreadyExists
    have hagain := newPlace_eq_of_extends hend ((put_adds made .directory _).toExtends.trans hmore) hne
    rw [makeAll_of_newPlace hmove hend (hagain ▸ hne), put_of_extends hend hne hmore]

end Makes

/-! ## Entries with the directories above them -/

/-- Adds an entry of a kind at a path, and the directories above it that are missing. -/
def build (fs : FileSystem) (kind : Kind) (path : String) : Except IoError Unit × FileSystem :=
  match kind with
  | .directory => makePath (m := StateM FileSystem) path fs
  | .file => makeFile (m := StateM FileSystem) path fs

/-- A directory is made as the last one on its way. -/
theorem build_directory (fs : FileSystem) (path : String) :
    fs.build .directory path = fs.makeAll (Path.pieces path).reverse := rfl

/-- A file is put when the directories above it are made. -/
theorem build_file (hpath : (Path.pieces path).reverse = piece :: above)
    (hmove : Path.isMove piece = true) (fs : FileSystem) : fs.build .file path =
      match fs.makeAll above with
      | (.error fault, made) => (.error fault, made)
      | (.ok (), made) => made.put .file path := by
  rw [build, makeFile, hpath, List.dropWhile_cons_of_neg (by simp [hmove]), List.tail_cons, bind_apply,
    makeAll]
  rcases makeDirectories (m := StateM FileSystem) above fs with ⟨fault | ⟨⟩, made⟩
  · rfl
  · exact settle_touch made path

theorem grows_build {outcome : Except IoError Unit} {made : FileSystem}
    (hname : Path.isSingleName name = true) {base : String}
    (h : fs.build kind (Path.join base name) = (outcome, made)) : fs.Grows made := by
  obtain ⟨above, hpath, -⟩ := Path.exists_above_join hname base
  obtain rfl : (fs.build kind (Path.join base name)).2 = made := congrArg Prod.snd h
  cases kind with
  | directory =>
    rw [build_directory]
    exact grows_makeAll fs _
  | file =>
    have habove := grows_makeAll fs above
    rw [build_file hpath (Path.isMove_of_isSingleName hname)]
    rcases hall : fs.makeAll above with ⟨fault | ⟨⟩, made⟩
    · rw [hall] at habove
      exact habove
    · rw [hall] at habove
      exact habove.trans (grows_put made .file _)

/-- How an entry with a single name is made behind a path that leads down. -/
inductive Builds (fs : FileSystem) (base name : String) :
    Kind → Except IoError Unit → FileSystem → Prop
  /-- A directory is the last one on its way. -/
  | directory {above outcome made}
    (hpath : (Path.pieces (Path.join base name)).reverse = name.toList :: above)
    (hmade : Makes fs (name.toList :: above) (Path.names base ++ [name]) outcome made) :
    Builds fs base name .directory outcome made
  /-- The directories above a file cannot be made. -/
  | fail {above fault made}
    (hpath : (Path.pieces (Path.join base name)).reverse = name.toList :: above)
    (hmade : Makes fs above (Path.names base) (.error fault) made) :
    Builds fs base name .file (.error fault) made
  /-- A file comes after the directories above it. -/
  | file {above made}
    (hpath : (Path.pieces (Path.join base name)).reverse = name.toList :: above)
    (hmade : Makes fs above (Path.names base) (.ok ()) made) :
    Builds fs base name .file (made.put .file (Path.join base name)).1
      (made.put .file (Path.join base name)).2

/-- Entries with a single name are made by these rules. -/
theorem builds_build {base : String} (hname : Path.isSingleName name = true)
    (hbase : .up ∉ Path.steps base) (fs : FileSystem) (kind : Kind) :
    fs.Builds base name kind (fs.build kind (Path.join base name)).1
      (fs.build kind (Path.join base name)).2 := by
  obtain ⟨above, hpath, hdown⟩ := Path.exists_down_join hname hbase
  cases kind with
  | directory =>
    rw [build_directory, hpath]
    exact .directory hpath (makes_makeAll fs (hdown.cons hname))
  | file =>
    have hmade := makes_makeAll fs hdown
    rw [build_file hpath (Path.isMove_of_isSingleName hname)]
    rcases hall : fs.makeAll above with ⟨fault | ⟨⟩, made⟩
    · rw [hall] at hmade
      exact .fail hpath hmade
    · rw [hall] at hmade
      exact .file hpath hmade

theorem builds_of_build_eq {base : String} (hname : Path.isSingleName name = true)
    (hbase : .up ∉ Path.steps base) {outcome : Except IoError Unit} {made : FileSystem}
    (h : fs.build kind (Path.join base name) = (outcome, made)) : fs.Builds base name kind outcome made := by
  have hbuilds := builds_build hname hbase fs kind
  rwa [h] at hbuilds

namespace Builds

variable {base : String} {outcome : Except IoError Unit} {made : FileSystem}

/-- What the rules allow is what happens. -/
theorem build_eq (h : fs.Builds base name kind outcome made) (hname : Path.isSingleName name = true) :
    fs.build kind (Path.join base name) = (outcome, made) := by
  cases h with
  | directory hpath hmade => rw [build_directory, hpath, hmade.makeAll_eq]
  | fail hpath hmade => rw [build_file hpath (Path.isMove_of_isSingleName hname), hmade.makeAll_eq]
  | file hpath hmade => rw [build_file hpath (Path.isMove_of_isSingleName hname), hmade.makeAll_eq]

/-- An entry is made below the base, with nothing but directories on the way to it. -/
theorem adds (h : fs.Builds base name kind outcome made) (hname : Path.isSingleName name = true)
    (hbase : .up ∉ Path.steps base) :
    Adds (fun place entry => place <+: Path.names base ∧ entry = .directory ∨
      place = Path.names base ++ [name] ∧ entry = kind.blank) fs made := by
  cases h with
  | directory _ hmade =>
    refine hmade.adds.mono fun place entry => ?_
    rintro ⟨hstart, rfl⟩
    rcases List.prefix_concat_iff.mp hstart with heq | hstart
    · exact .inr ⟨heq, rfl⟩
    · exact .inl ⟨hstart, rfl⟩
  | fail _ hmade => exact hmade.adds.mono fun _ _ hmay => .inl hmay
  | @file _ made _ hmade =>
    have hend := Path.moves_eq_map_names hbase ▸ Path.endsIn_join hname base
    exact (hmade.adds.mono fun _ _ hmay => .inl hmay).trans
      ((put_adds_down hend made .file).mono fun _ _ hmay => .inr hmay)

/-- Making an entry once more changes nothing and has the same outcome, whatever was added since. -/
theorem again (h : fs.Builds base name kind outcome made) (hname : Path.isSingleName name = true)
    (hbase : .up ∉ Path.steps base) (hrooted : fs.Rooted) {more : FileSystem} (hmore : made.Extends more) :
    more.build kind (Path.join base name) = (outcome, more) := by
  have hmove := Path.isMove_of_isSingleName hname
  cases h with
  | directory hpath hmade => rw [build_directory, hpath, hmade.again hrooted hmore]
  | fail hpath hmade => rw [build_file hpath hmove, hmade.again hrooted hmore]
  | @file above made hpath hmade =>
    have hend := Path.moves_eq_map_names hbase ▸ Path.endsIn_join hname base
    have hgrown := (put_adds made .file _).toExtends.trans hmore
    have hne := newPlace_ne_notFound hend (hmade.leads rfl) Kind.file.clash
    rw [build_file hpath hmove, hmade.again hrooted hgrown]
    exact put_of_extends hend hne hmore

end Builds

end FileSystem

end TreeSketch
