import TreeSketch.Proofs.Files.Making

/-!
# Growing side by side

Two file systems that have grown from one may be put together to one that holds what stands in either
(`Joins`). Making an entry commutes with growth beside it: when `more` holds what `fs` holds and what was
added does not get in the way, then what is made in `fs` is made in `more` with the same outcome, and the
result joins the two (`Builds.exists_beside`).

Not in the way are entries that do not stand at or below the place `own`, if those above it are directories
(`Beside`). A part of the way to an entry may so be there in `more` and missing in `fs`, and then the same
directories are made by other rules of `Makes`. Where the way is complete, nothing more is made
(`Makes.eq_of_follow_ne`); where it cannot be completed, what is in the way is in the way in both
(`Makes.blocked`).
-/

namespace TreeSketch.FileSystem

open TreeSketch.Path (Step EndsIn Down)

variable {fs more made grown : FileSystem} {own names : List String} {path name base : String}
  {kind : Kind} {outcome : Except IoError Unit} {may : List String → Entry → Prop}

/-! ## Putting file systems together -/

/-- What stands in `whole` is what stands in `one` and what stands in `other`. -/
structure Joins (one other whole : FileSystem) : Prop where
  left : one.Extends whole
  right : other.Extends whole
  either : ∀ {place entry}, whole.find? place = some entry →
    one.find? place = some entry ∨ other.find? place = some entry

theorem Joins.of_extends (h : fs.Extends more) : Joins fs more more :=
  ⟨h, Extends.refl more, .inr⟩

/-- What has grown and is joined with a join holds what was joined before. -/
theorem Joins.trans {most last : FileSystem} (h : Joins made more grown) (hmost : made.Extends most)
    (h' : Joins most grown last) : Joins most more last := by
  refine ⟨h'.left, h.right.trans h'.right, fun hlast => ?_⟩
  rcases h'.either hlast with hentry | hentry
  · exact .inl hentry
  · exact (h.either hentry).imp_left hmost.kept

/-- A join holds nothing new but what is new in one of its parts. -/
theorem Joins.adds {one other whole : FileSystem} (h : Joins one other whole) (hone : Adds may fs one)
    (hother : Adds may fs other) : Adds may fs whole := by
  refine ⟨hone.toExtends.trans h.left, fun hnone hsome => ?_⟩
  rcases h.either hsome with hentry | hentry
  · exact hone.added hnone hentry
  · exact hother.added hnone hentry

/-- What a join adds to one part is what the other part has added. -/
theorem Joins.adds_left (h : Joins made more grown) (hmade : fs.Extends made) (hmore : Adds may fs more) :
    Adds may made grown := by
  refine ⟨h.left, fun {place entry} hnone hsome => ?_⟩
  rcases h.either hsome with hentry | hentry
  · rw [hnone] at hentry
    cases hentry
  · refine hmore.added ?_ hentry
    by_contra hfound
    obtain ⟨found, hfound⟩ := Option.ne_none_iff_exists'.mp hfound
    rw [hmade.kept hfound] at hnone
    cases hnone

/-- An entry is not in the way of what is made at and below the place `own`. -/
def Beside (own place : List String) (entry : Entry) : Prop :=
  ¬ own <+: place ∧ (place <+: own → entry = .directory)

/-! ## One entry -/

/-- An entry that is added in one file system and was added in the other is nothing new there. -/
theorem Extends.of_add {place : List String} {entry : Entry} (h : fs.Extends more)
    (hnone : fs.find? place = none) (hentry : more.find? place = some entry) :
    (fs.add place entry).Extends more := by
  refine ⟨h.pathLimit, fun {other found} hfound => ?_⟩
  have hadds : Adds (fun place entry => more.find? place = some entry) fs (fs.add place entry) :=
    adds_add hnone hentry
  cases hbefore : fs.find? other with
  | none => exact hadds.added hbefore hfound
  | some before =>
    rw [hadds.kept hbefore] at hfound
    exact h.kept (hbefore.trans hfound)

/-- An entry that is added in both file systems is added in their join. -/
theorem Joins.of_add {place : List String} {entry : Entry} (h : fs.Extends more)
    (hnone : more.find? place = none) (hne : place ≠ []) :
    Joins (fs.add place entry) more (more.add place entry) := by
  have hadds : Adds (fun other found => other = place ∧ found = entry) more (more.add place entry) :=
    adds_add hnone ⟨rfl, rfl⟩
  refine ⟨⟨h.pathLimit, fun {other found} hfound => ?_⟩, hadds.toExtends, fun {other found} hfound => ?_⟩
  · by_cases heq : other = place
    · subst heq
      rwa [find?_add_self hne] at hfound ⊢
    · rw [find?_add_of_ne heq] at hfound
      exact hadds.kept (h.kept hfound)
  · cases hother : more.find? other with
    | none =>
      obtain ⟨rfl, rfl⟩ := hadds.added hother hfound
      exact .inl (find?_add_self hne found)
    | some before => exact .inr ((hadds.kept hother).symm.trans hfound)

/-- An entry is put with the same outcome when others have been added, if nothing else was added at its
place. -/
theorem exists_put_beside (hend : EndsIn path (names.map .into) name) (hmore : Adds may fs more)
    (hmay : ∀ entry, may (names ++ [name]) entry → entry = kind.blank)
    (hplace : fs.newPlace path kind.clash ≠ .error .notFound) :
    ∃ grown, more.put kind path = ((fs.put kind path).1, grown) ∧
      Joins (fs.put kind path).2 more grown := by
  have hagain := newPlace_eq_of_extends hend hmore.toExtends hplace
  cases hnew : fs.newPlace path kind.clash with
  | error fault =>
    rw [hnew] at hagain
    rw [put_of_error hnew, put_of_error hagain]
    exact ⟨more, rfl, .of_extends hmore.toExtends⟩
  | ok found =>
    rw [hnew] at hagain
    cases hfound : fs.find? found with
    | some entry =>
      rw [put_of_some hnew hfound, put_of_some hagain (hmore.kept hfound)]
      exact ⟨more, rfl, .of_extends hmore.toExtends⟩
    | none =>
      obtain rfl := newPlace_down hend hnew
      rw [put_of_none hnew hfound]
      cases hother : more.find? (names ++ [name]) with
      | none =>
        rw [put_of_none hagain hother]
        exact ⟨_, rfl, .of_add hmore.toExtends hother (by simp)⟩
      | some entry =>
        obtain rfl := hmay entry (hmore.added hfound hother)
        rw [put_of_some hagain hother, Kind.kind_blank, if_pos rfl]
        exact ⟨more, rfl, .of_extends (hmore.toExtends.of_add hfound hother)⟩

/-! ## Directories on the way -/

namespace Makes

variable {pieces : List (List Char)}

/-- Where nothing is missing on the way, no directory is made. -/
theorem eq_of_follow_ne (h : fs.Makes pieces names outcome made)
    (hway : fs.follow [] (names.map .into) ≠ .error .notFound) : made = fs := by
  -- A way on which something is missing before its last name is no such way.
  have habsurd {names : List String} {name : String}
      (hway : fs.follow [] ((names ++ [name]).map .into) ≠ .error .notFound)
      (hmissing : fs.follow [] (names.map .into) = .error .notFound) : False := by
    rw [List.map_append, follow_append, hmissing] at hway
    exact hway rfl
  induction h with
  | root => rfl
  | skip _ _ ih => exact ih hway
  | @last piece above names name _ hend _ =>
    cases hnew : fs.newPlace (Path.ofPieces (piece :: above).reverse) .alreadyExists with
    | error fault => rw [put_of_error hnew]
    | ok found =>
      cases hfound : fs.find? found with
      | some entry => rw [put_of_some hnew hfound]
      | none =>
        obtain ⟨-, place, hfollow, hdirectory, hshort, rfl⟩ := (newPlace_eq_ok_iff hend).mp hnew
        rw [List.map_append] at hway
        exact absurd (Leads.follow_missing ⟨hfollow, hdirectory⟩ hshort hfound) hway
  | fail _ hend hplace _ _ => exact (habsurd hway (newPlace_eq_notFound hend hplace).2).elim
  | next _ hend hplace _ _ => exact (habsurd hway (newPlace_eq_notFound hend hplace).2).elim

/-- Nor is one made above a name whose place is found. -/
theorem eq_of_newPlace_ne (h : fs.Makes pieces names outcome made)
    (hend : EndsIn path (names.map .into) name) (hfits : fs.Fits path)
    (hplace : fs.newPlace path .alreadyExists ≠ .error .notFound) : made = fs := by
  apply h.eq_of_follow_ne
  intro hway
  apply hplace
  rw [newPlace_of_fits hend hfits, hway]
  rfl

/-- Directories are made with the same outcome when others have been added, if only directories were added
on the way. -/
theorem exists_beside (h : fs.Makes pieces names outcome made) (hrooted : fs.Rooted)
    (hmore : Adds may fs more)
    (hmay : ∀ place entry, may place entry → place <+: names → entry = .directory) :
    ∃ grown, more.Makes pieces names outcome grown ∧ Joins made more grown := by
  induction h with
  | root => exact ⟨more, .root, .of_extends hmore.toExtends⟩
  | skip hmove _ ih =>
    obtain ⟨grown, hgrown, hjoins⟩ := ih hmay
    exact ⟨grown, .skip hmove hgrown, hjoins⟩
  | last hmove hend hplace =>
    obtain ⟨grown, hput, hjoins⟩ := exists_put_beside hend hmore
      (fun entry hentry => show entry = Kind.directory.blank from hmay _ entry hentry (List.prefix_refl _))
      hplace
    have hlast := Makes.last hmove hend (newPlace_eq_of_extends hend hmore.toExtends hplace ▸ hplace)
    rw [hput] at hlast
    exact ⟨grown, hlast, hjoins⟩
  | @fail piece above names name fault made hmove hend hplace hmade ih =>
    obtain ⟨grown, hgrown, hjoins⟩ := ih fun place entry hentry hway =>
      hmay place entry hentry (hway.trans (List.prefix_append names [name]))
    by_cases hagain : more.newPlace (Path.ofPieces (piece :: above).reverse) .alreadyExists =
        .error .notFound
    · exact ⟨grown, .fail hmove hend hagain hgrown, hjoins⟩
    · -- What was missing has been added, up to the name that is too long.
      obtain ⟨hfits, hmissing⟩ := newPlace_eq_notFound hend hplace
      obtain ⟨rfl, hblocked⟩ := hmade.blocked hrooted rfl hfits.above hmissing
      have hstill := hfits.of_extends hmore.toExtends
      obtain rfl := hgrown.eq_of_newPlace_ne hend hstill hagain
      have hnew := newPlace_of_fits hend hstill .alreadyExists
      rw [hblocked hjoins.left] at hnew
      have hlast := Makes.last hmove hend hagain
      rw [put_of_error hnew] at hlast
      exact ⟨_, hlast, hjoins⟩
  | @next piece above names name made hmove hend hplace hmade ih =>
    obtain ⟨grown, hgrown, hjoins⟩ := ih fun place entry hentry hway =>
      hmay place entry hentry (hway.trans (List.prefix_append names [name]))
    obtain ⟨most, hput, hmost⟩ := exists_put_beside hend (hjoins.adds_left hmade.adds.toExtends hmore)
      (fun entry hentry => show entry = Kind.directory.blank from hmay _ entry hentry (List.prefix_refl _))
      (newPlace_ne_notFound hend (hmade.leads rfl) Kind.directory.clash)
    have hjoined := hjoins.trans (put_adds made .directory _).toExtends hmost
    by_cases hagain : more.newPlace (Path.ofPieces (piece :: above).reverse) .alreadyExists =
        .error .notFound
    · have hnext := Makes.next hmove hend hagain hgrown
      rw [hput] at hnext
      exact ⟨most, hnext, hjoined⟩
    · -- What was missing has been added.
      have hfits := (newPlace_eq_notFound hend hplace).1
      obtain rfl := hgrown.eq_of_newPlace_ne hend (hfits.of_extends hmore.toExtends) hagain
      have hlast := Makes.last hmove hend hagain
      rw [hput] at hlast
      exact ⟨most, hlast, hjoined⟩

end Makes

/-! ## Entries with the directories above them -/

/-- What is not in the way stands on no way that leads to the place `own`, except for directories. -/
theorem Beside.eq_directory {place : List String} {entry : Entry} (h : Beside own place entry)
    (hown : own <+: names) (hway : place <+: names) : entry = .directory :=
  h.2 ((List.prefix_or_prefix_of_prefix hway hown).resolve_right h.1)

/-- An entry at or below the place `own` is made with the same outcome when others have been added beside. -/
theorem Builds.exists_beside (h : fs.Builds base name kind outcome made)
    (hname : Path.isSingleName name = true) (hbase : .up ∉ Path.steps base) (hrooted : fs.Rooted)
    (hown : own <+: Path.names base) (hmore : Adds (Beside own) fs more) :
    ∃ grown, more.Builds base name kind outcome grown ∧ Joins made more grown := by
  have hway : own <+: Path.names base ++ [name] := hown.trans (List.prefix_append _ _)
  cases h with
  | directory hpath hmade =>
    obtain ⟨grown, hgrown, hjoins⟩ := hmade.exists_beside hrooted hmore
      fun _ _ hbeside => hbeside.eq_directory hway
    exact ⟨grown, .directory hpath hgrown, hjoins⟩
  | fail hpath hmade =>
    obtain ⟨grown, hgrown, hjoins⟩ := hmade.exists_beside hrooted hmore
      fun _ _ hbeside => hbeside.eq_directory hown
    exact ⟨grown, .fail hpath hgrown, hjoins⟩
  | @file above made hpath hmade =>
    obtain ⟨grown, hgrown, hjoins⟩ := hmade.exists_beside hrooted hmore
      fun _ _ hbeside => hbeside.eq_directory hown
    have hend := Path.moves_eq_map_names hbase ▸ Path.endsIn_join hname base
    obtain ⟨most, hput, hmost⟩ := exists_put_beside hend (hjoins.adds_left hmade.adds.toExtends hmore)
      (fun entry hbeside => absurd hway hbeside.1)
      (newPlace_ne_notFound hend (hmade.leads rfl) Kind.file.clash)
    have hfile := Builds.file hpath hgrown
    rw [hput] at hfile
    exact ⟨most, hfile, hjoins.trans (put_adds made .file _).toExtends hmost⟩

end TreeSketch.FileSystem
