import TreeSketch.Proofs.Files.Making

/-!
# Directories that paths lead to

A path may go up on its way, so it can lead to a directory that its last name does not stand for. Whatever
the way, a directory shows at a path exactly when the moves of the path lead to one (`leads_of_status`,
`status_of_leads`), making the directories on the way to it changes nothing (`makeAll_of_leads`), and when
directories have been made all along a way, it leads to one (`leads_of_makeAll`).

A base that `Stands` is a directory in which an entry can be made; `build_of_stands` says what that adds, and
`build_of_makePath` that it makes no difference whether the base is made before the first entry in it or
along with it.
-/

namespace TreeSketch.FileSystem

open TreeSketch.Path (Step EndsIn movesOf)

variable {fs more made : FileSystem} {path base name : String} {place : List String}
  {piece : List Char} {above parts : List (List Char)} {kind : Kind}

/-! ## Ways with moves up -/

theorem status_eq_directory_iff : fs.status path = .directory ↔ fs.lookup path = .ok .directory := by
  rw [status]
  split
  · simp [*]
  · simp [*]
  · simp [*]

/-- Where a directory shows, the moves of the path lead to one. -/
theorem leads_of_status (h : fs.status path = .directory) :
    fs.Fits path ∧ ∃ place, fs.Leads (Path.moves path) place := by
  obtain ⟨steps, hsteps, hwalk⟩ := bind_eq_ok_iff.mp (status_eq_directory_iff.mp h)
  obtain ⟨place, hfollow, hentry⟩ := bind_eq_ok_iff.mp hwalk
  obtain ⟨hfits, -, rfl⟩ := stepsOf_eq_ok_iff.mp hsteps
  refine ⟨hfits, place, follow_filter_of_ok hfollow, ?_⟩
  rw [entryAt] at hentry
  split at hentry
  · rw [‹fs.find? place = _›, Except.ok.inj hentry]
  · cases hentry

/-- The walk along a path that leads to a directory ends there. -/
theorem Leads.eq_of_follow {found : List String} (h : fs.Leads (Path.moves path) found)
    (hfollow : fs.follow [] (Path.steps path) = .ok place) : found = place :=
  Except.ok.inj (h.follow.symm.trans (follow_filter_of_ok hfollow))

/-- Where the moves of a path lead to a directory, one shows. -/
theorem status_of_leads (hfits : fs.Fits path) (hne : path ≠ "")
    (hlast : (Path.steps path).getLast? ≠ some .here) (h : fs.Leads (Path.moves path) place) :
    fs.status path = .directory := by
  have hfollow : fs.follow [] (Path.steps path) = .ok place := by
    rw [← follow_filter hlast]
    exact h.follow
  rw [status_eq_directory_iff, lookup, stepsOf_eq_ok_iff.mpr ⟨hfits, hne, rfl⟩]
  change fs.follow [] (Path.steps path) >>= fs.entryAt = _
  rw [hfollow]
  change fs.entryAt place = _
  rw [entryAt, h.directory]

/-- No entry can be added at a path that does not end in a name. -/
theorem newPlace_of_not_name (h : ∀ name, (Path.moves path).getLast? ≠ some (.into name))
    (fs : FileSystem) (whenDirectory : IoError) : fs.newPlace path whenDirectory =
      fs.stepsOf path >>= fun steps => fs.follow [] steps >>= fun _ => .error whenDirectory := by
  rw [newPlace]
  rcases stepsOf_cases fs path with hsteps | ⟨fault, hsteps⟩
  · rw [hsteps]
    dsimp only [bind, Except.bind]
    split
    · exact absurd ‹_› (h _)
    · rfl
  · rw [hsteps]
    rfl

/-- A path whose last move goes into a name ends in it, or else there is no such name. -/
theorem endsIn_or_not_name (hlast : (Path.steps path).getLast? ≠ some .here) :
    (∃ above name, EndsIn path above name) ∨
      ∀ name, (Path.moves path).getLast? ≠ some (.into name) := by
  by_cases h : ∃ name, (Path.moves path).getLast? = some (.into name)
  · obtain ⟨name, hname⟩ := h
    obtain ⟨above, hmoves⟩ := List.getLast?_eq_some_iff.mp hname
    exact .inl ⟨above, name, hmoves, hlast⟩
  · exact .inr (not_exists.mp h)

/-- A directory that shows is not made again. -/
theorem makeDirectory_of_status (hlast : (Path.steps path).getLast? ≠ some .here)
    (h : fs.status path = .directory) : fs.makeDirectory path = .error .alreadyExists := by
  have hlookup := status_eq_directory_iff.mp h
  rcases endsIn_or_not_name hlast with ⟨above, name, hend⟩ | hname
  · rw [lookup_eq_of_endsIn hend fs .alreadyExists] at hlookup
    obtain ⟨found, hplace, hentry⟩ := bind_eq_ok_iff.mp hlookup
    rw [entryAt] at hentry
    split at hentry
    · exact makeDirectory_of_some hplace ‹_›
    · cases hentry
  · obtain ⟨steps, hsteps, hwalk⟩ := bind_eq_ok_iff.mp hlookup
    obtain ⟨found, hfollow, -⟩ := bind_eq_ok_iff.mp hwalk
    refine makeDirectory_of_error ?_
    rw [newPlace_of_not_name hname, hsteps]
    change fs.follow [] steps >>= _ = _
    rw [hfollow]
    rfl

/-- Securing a directory that shows changes nothing. -/
theorem secure_of_status (hlast : (Path.steps path).getLast? ≠ some .here)
    (h : fs.status path = .directory) : fs.secure path = (.ok (), fs) := by
  rw [secure, makeDirectory_of_status hlast h]
  exact congrArg (·, fs) (if_pos h)

/-- A directory that was secured shows. -/
theorem status_secure (hlast : (Path.steps path).getLast? ≠ some .here)
    (hok : (fs.secure path).1 = .ok ()) : (fs.secure path).2.status path = .directory := by
  rcases endsIn_or_not_name hlast with ⟨above, name, hend⟩ | hname
  · rw [secure_eq_put hend] at hok ⊢
    exact status_put hend hok
  · have hfault : ∃ fault, fs.newPlace path .alreadyExists = .error fault := by
      rw [newPlace_of_not_name hname]
      cases fs.stepsOf path with
      | error fault => exact ⟨fault, rfl⟩
      | ok steps =>
        change ∃ fault, fs.follow [] steps >>= _ = _
        cases fs.follow [] steps with
        | error fault => exact ⟨fault, rfl⟩
        | ok found => exact ⟨.alreadyExists, rfl⟩
    obtain ⟨fault, hplace⟩ := hfault
    rw [secure, makeDirectory_of_error hplace] at hok ⊢
    dsimp only at hok ⊢
    split at hok
    · assumption
    · cases hok

/-! ## Directories along a way -/

/-- What is known of the path of pieces, given from the last to the first, of which the last is a move. -/
structure Turns (parts : List (List Char)) (path : String) : Prop where
  moves : Path.moves path = movesOf parts.reverse
  last : (Path.steps path).getLast? ≠ some .here
  ne_empty : path ≠ ""
  mem_toList : ∀ {c}, c ≠ '/' → (c ∈ path.toList ↔ ∃ piece ∈ parts, c ∈ piece)

theorem turns_ofPieces (hslash : ∀ part ∈ piece :: above, '/' ∉ part) (hmove : Path.isMove piece = true) :
    Turns (piece :: above) (Path.ofPieces (piece :: above).reverse) := by
  have hpieces := Path.pieces_ofPieces_reverse hslash
  have hlast : (Path.pieces (Path.ofPieces (piece :: above).reverse)).getLast? = some piece := by
    rw [hpieces, List.getLast?_concat]
  refine ⟨by rw [Path.moves_eq_movesOf, hpieces, List.reverse_cons], ?_, fun hempty => ?_, fun hc => ?_⟩
  · exact Path.getLast?_steps_ne_here hlast hmove
  · rw [hempty] at hlast
    obtain rfl : [] = piece := Option.some.inj hlast
    cases hmove
  · simp only [Path.mem_toList_ofPieces hc, List.mem_reverse]

/-- The last step of making the directories along a way secures the one at its end. -/
theorem exists_secure_of_makeAll (hmove : Path.isMove piece = true)
    (h : fs.makeAll (piece :: above) = (.ok (), made)) :
    ∃ before : FileSystem, before.secure (Path.ofPieces (piece :: above).reverse) = (.ok (), made) := by
  by_cases hmissing : fs.makeDirectory (Path.ofPieces (piece :: above).reverse) = .error .notFound
  · rw [makeAll_of_notFound hmove hmissing] at h
    rcases hall : fs.makeAll above with ⟨fault | ⟨⟩, before⟩
    · rw [hall] at h
      cases h
    · rw [hall] at h
      exact ⟨before, h⟩
  · rw [makeAll_of_ne_notFound hmove hmissing] at h
    exact ⟨fs, h⟩

/-- Directories that have been made along a way lead to the one at its end. -/
theorem leads_of_makeAll (hslash : ∀ part ∈ parts, '/' ∉ part) (h : fs.makeAll parts = (.ok (), made)) :
    (∃ place, made.Leads (movesOf parts.reverse) place) ∧ ∀ part ∈ parts, '\x00' ∉ part := by
  induction parts generalizing made with
  | nil =>
    obtain rfl : fs = made := congrArg Prod.snd h
    exact ⟨⟨[], rfl, rfl⟩, nofun⟩
  | cons piece above ih =>
    have habove : ∀ part ∈ above, '/' ∉ part := fun part hpart => hslash part (List.mem_cons_of_mem _ hpart)
    cases hmove : Path.isMove piece with
    | false =>
      rw [makeAll_of_not_isMove hmove] at h
      obtain ⟨hleads, hzero⟩ := ih habove h
      rw [List.reverse_cons, Path.movesOf_append, Path.movesOf_of_not_isMove hmove, List.append_nil]
      refine ⟨hleads, List.forall_mem_cons.mpr ⟨?_, hzero⟩⟩
      rcases Path.eq_or_eq_of_not_isMove hmove with rfl | rfl <;> simp
    | true =>
      have hturns := turns_ofPieces hslash hmove
      obtain ⟨before, hsecure⟩ := exists_secure_of_makeAll hmove h
      have hstatus := status_secure hturns.last (congrArg Prod.fst hsecure)
      rw [hsecure] at hstatus
      obtain ⟨hfits, hleads⟩ := leads_of_status hstatus
      rw [hturns.moves] at hleads
      exact ⟨hleads, fun part hpart hzero =>
        hfits.noZero ((hturns.mem_toList (by decide)).mpr ⟨part, hpart, hzero⟩)⟩

/-- Making the directories along a way that leads to one changes nothing. -/
theorem makeAll_of_leads (hslash : ∀ part ∈ parts, '/' ∉ part) (hzero : ∀ part ∈ parts, '\x00' ∉ part)
    (hunlimited : fs.pathLimit = none) (h : fs.Leads (movesOf parts.reverse) place) :
    fs.makeAll parts = (.ok (), fs) := by
  induction parts with
  | nil => rfl
  | cons piece above ih =>
    cases hmove : Path.isMove piece with
    | false =>
      rw [makeAll_of_not_isMove hmove]
      rw [List.reverse_cons, Path.movesOf_append, Path.movesOf_of_not_isMove hmove, List.append_nil] at h
      exact ih (fun part hpart => hslash part (List.mem_cons_of_mem _ hpart))
        (fun part hpart => hzero part (List.mem_cons_of_mem _ hpart)) h
    | true =>
      have hturns := turns_ofPieces hslash hmove
      rw [← hturns.moves] at h
      have hfits : fs.Fits (Path.ofPieces (piece :: above).reverse) := by
        refine ⟨fun hmem => ?_, by simp [hunlimited]⟩
        obtain ⟨part, hpart, hnul⟩ := (hturns.mem_toList (by decide)).mp hmem
        exact hzero part hpart hnul
      have hstatus := status_of_leads hfits hturns.ne_empty hturns.last h
      rw [makeAll_of_ne_notFound hmove (by rw [makeDirectory_of_status hturns.last hstatus]; exact nofun),
        secure_of_status hturns.last hstatus]

/-! ## Entries behind any base -/

/-- A slash at the end of a base makes no difference when the base is made. -/
theorem makePath_eq_makeAll
    (h : (Path.pieces base).reverse = above ∨ (Path.pieces base).reverse = [] :: above) (fs : FileSystem) :
    makePath (m := StateM FileSystem) base fs = fs.makeAll above := by
  change fs.makeAll (Path.pieces base).reverse = _
  rcases h with heq | heq
  · rw [heq]
  · rw [heq, makeAll_of_not_isMove rfl]

/-- What was made shows at its path. -/
theorem status_build (hname : Path.isSingleName name = true)
    (h : fs.build kind (Path.join base name) = (.ok (), made)) :
    made.status (Path.join base name) = kind.status := by
  obtain ⟨above, hpath, -⟩ := Path.exists_above_join hname base
  have hend := Path.endsIn_join hname base
  have hmove := Path.isMove_of_isSingleName hname
  cases kind with
  | directory =>
    rw [build_directory, hpath] at h
    obtain ⟨before, hsecure⟩ := exists_secure_of_makeAll hmove h
    rw [Path.ofPieces_reverse hpath, secure_eq_put hend] at hsecure
    have hstatus := status_put hend (congrArg Prod.fst hsecure)
    rwa [hsecure] at hstatus
  | file =>
    rw [build_file hpath hmove] at h
    rcases hall : fs.makeAll above with ⟨fault | ⟨⟩, before⟩
    · rw [hall] at h
      cases h
    · rw [hall] at h
      have hstatus := status_put hend (congrArg Prod.fst h)
      exact (congrArg (·.2.status (Path.join base name)) h).symm.trans hstatus

/-! ## Entries in a base -/

/-- A name that an entry of a directory can have. -/
structure IsEntryName (name : String) : Prop where
  single : Path.isSingleName name = true
  short : name.utf8ByteSize ≤ nameLimit
  noZero : '\x00' ∉ name.toList

instance (name : String) : Decidable (IsEntryName name) :=
  decidable_of_iff
    (Path.isSingleName name = true ∧ name.utf8ByteSize ≤ nameLimit ∧ '\x00' ∉ name.toList)
    ⟨fun h => ⟨h.1, h.2.1, h.2.2⟩, fun h => ⟨h.single, h.short, h.noZero⟩⟩

/-- The base is a directory, and paths behind it can be as long as names make them. -/
structure Stands (fs : FileSystem) (base : String) (place : List String) : Prop where
  leads : fs.Leads (Path.moves base) place
  noZero : '\x00' ∉ base.toList
  unlimited : fs.pathLimit = none

theorem Stands.of_extends (hbase : fs.Stands base place) (h : fs.Extends more) : more.Stands base place :=
  ⟨hbase.leads.of_extends h, hbase.noZero, h.pathLimit.trans hbase.unlimited⟩

/-- The path of an entry in a base fits. -/
theorem Stands.fits_join (h : fs.Stands base place) (hname : IsEntryName name) :
    fs.Fits (Path.join base name) := by
  refine ⟨fun hzero => ?_, by simp [h.unlimited]⟩
  rcases Path.mem_or_mem_of_mem_join (by decide) hzero with hzero | hzero
  · exact h.noZero hzero
  · exact hname.noZero hzero

/-- A directory in a base is a base. -/
theorem Stands.into (h : fs.Stands base place) (hname : IsEntryName name)
    (hdirectory : fs.find? (place ++ [name]) = some .directory) :
    fs.Stands (Path.join base name) (place ++ [name]) := by
  refine ⟨?_, (h.fits_join hname).noZero, h.unlimited⟩
  rw [(Path.endsIn_join hname.single base).moves]
  exact h.leads.into hname.short hdirectory

/-- The place of an entry in a base. -/
theorem Stands.newPlace_join (h : fs.Stands base place) (hname : IsEntryName name)
    (whenDirectory : IoError) : fs.newPlace (Path.join base name) whenDirectory = .ok (place ++ [name]) := by
  rw [newPlace_of_leads (Path.endsIn_join hname.single base) (h.fits_join hname) h.leads,
    if_neg (Nat.not_lt_of_le hname.short)]

theorem extends_of_makePath {outcome : Except IoError Unit}
    (h : makePath (m := StateM FileSystem) base fs = (outcome, made)) : fs.Extends made := by
  obtain rfl : (fs.makeAll (Path.pieces base).reverse).2 = made := congrArg Prod.snd h
  exact (grows_makeAll fs _).toExtends

/-- When a base is made, it is one in which entries can be made. -/
theorem stands_of_makePath (hunlimited : fs.pathLimit = none)
    (h : makePath (m := StateM FileSystem) base fs = (.ok (), made)) : ∃ place, made.Stands base place := by
  have hslash : ∀ part ∈ (Path.pieces base).reverse, '/' ∉ part :=
    fun part hpart => Path.not_mem_of_mem_splitAt (List.mem_reverse.mp hpart)
  obtain ⟨⟨place, hleads⟩, hzero⟩ := leads_of_makeAll hslash h
  rw [List.reverse_reverse, ← Path.moves_eq_movesOf] at hleads
  refine ⟨place, hleads, ?_, ?_⟩
  · rw [← Path.ofPieces_pieces base, Path.mem_toList_ofPieces (by decide)]
    rintro ⟨part, hpart, hnul⟩
    exact hzero part (List.mem_reverse.mpr hpart) hnul
  · exact (extends_of_makePath h).pathLimit.trans hunlimited

/-- Making the directories above an entry in a base changes nothing. -/
theorem Stands.makeAll_above (h : fs.Stands base place) (hparts : ∀ part ∈ above, part ∈ Path.pieces base)
    (hmoves : movesOf above.reverse = Path.moves base) : fs.makeAll above = (.ok (), fs) := by
  have hslash : ∀ part ∈ above, '/' ∉ part := fun part hpart => Path.not_mem_of_mem_splitAt (hparts part hpart)
  have hzero : ∀ part ∈ above, '\x00' ∉ part := by
    intro part hpart hnul
    have hmem := (Path.mem_toList_ofPieces (by decide) (Path.pieces base)).mpr ⟨part, hparts part hpart, hnul⟩
    exact h.noZero (Path.ofPieces_pieces base ▸ hmem)
  exact makeAll_of_leads hslash hzero h.unlimited (hmoves ▸ h.leads)

/-- Making the base before an entry in it makes no difference. -/
theorem build_of_makePath (hunlimited : fs.pathLimit = none) (hname : IsEntryName name)
    (h : makePath (m := StateM FileSystem) base fs = (.ok (), made)) (kind : Kind) :
    fs.build kind (Path.join base name) = made.put kind (Path.join base name) := by
  obtain ⟨place, hstands⟩ := stands_of_makePath hunlimited h
  obtain ⟨above, hpath, hparts, hmoves, hpieces⟩ := Path.exists_above_join hname.single base
  rw [makePath_eq_makeAll hpieces] at h
  have hmove := Path.isMove_of_isSingleName hname.single
  cases kind with
  | file => rw [build_file hpath hmove, h]
  | directory =>
    have hjoin := Path.ofPieces_reverse hpath
    have hend := hjoin ▸ Path.endsIn_join hname.single base
    rw [build_directory, hpath, ← hjoin]
    by_cases hmissing : fs.makeDirectory (Path.ofPieces (name.toList :: above).reverse) = .error .notFound
    · rw [makeAll_of_notFound hmove hmissing, h, ← secure_eq_put hend]
    · -- Nothing is missing above the entry, so the base was there before it was made.
      rw [makeDirectory_eq_notFound_iff] at hmissing
      have hagain := newPlace_eq_of_extends hend (h ▸ (grows_makeAll fs above).toExtends) hmissing
      rw [hjoin, hstands.newPlace_join hname, ← hjoin] at hagain
      obtain ⟨-, found, hfollow, hdirectory, -⟩ := (newPlace_eq_ok_iff hend).mp hagain.symm
      have hthere : fs.Stands base found := by
        refine ⟨⟨hfollow, hdirectory⟩, hstands.noZero, hunlimited⟩
      obtain rfl : fs = made := congrArg Prod.snd ((hthere.makeAll_above hparts hmoves).symm.trans h)
      exact makeAll_of_newPlace hmove hend hmissing

/-- An entry is made in a base by itself. -/
theorem Stands.build_join (h : fs.Stands base place) (hname : IsEntryName name) (kind : Kind) :
    fs.build kind (Path.join base name) = fs.put kind (Path.join base name) := by
  obtain ⟨above, -, hparts, hmoves, hpieces⟩ := Path.exists_above_join hname.single base
  have hmake := (makePath_eq_makeAll hpieces fs).trans (h.makeAll_above hparts hmoves)
  exact build_of_makePath h.unlimited hname hmake kind

/-- What is made in a base where nothing stands is there, and nothing else is new. -/
theorem Stands.build_of_none (h : fs.Stands base place) (hname : IsEntryName name)
    (hnone : fs.find? (place ++ [name]) = none) (kind : Kind) :
    fs.build kind (Path.join base name) = (.ok (), fs.add (place ++ [name]) kind.blank) := by
  rw [h.build_join hname, put_of_none (h.newPlace_join hname kind.clash) hnone]

end TreeSketch.FileSystem
