import TreeSketch.Path

/-!
# Pieces and moves of a path

A path and its pieces say the same (`ofPieces_pieces`, `pieces_ofPieces`), so a path can be cut down piece by
piece and read again. `movesOf` says which moves pieces stand for. A single name adds one move to a path, into
the entry of that name (`endsIn_join`), and leaves the path itself as what stands above it
(`exists_pieces_join`).
-/

namespace TreeSketch.Path

/-! ## Cutting and joining -/

theorem splitAt_ne_nil (separator : Char) (cs : List Char) : splitAt separator cs ≠ [] := by
  cases cs with
  | nil => exact List.cons_ne_nil _ _
  | cons c cs =>
    rw [splitAt]
    split
    · exact List.cons_ne_nil _ _
    · split <;> exact List.cons_ne_nil _ _

/-- A text without separators is one piece. -/
theorem splitAt_of_not_mem {separator : Char} {cs : List Char} (h : separator ∉ cs) :
    splitAt separator cs = [cs] := by
  induction cs with
  | nil => rfl
  | cons c cs ih =>
    rw [List.mem_cons, not_or] at h
    rw [splitAt, if_neg (Ne.symm h.1), ih h.2]

/-- A separator ends a piece. -/
theorem splitAt_append (separator : Char) (cs ds : List Char) :
    splitAt separator (cs ++ separator :: ds) = splitAt separator cs ++ splitAt separator ds := by
  induction cs with
  | nil =>
    rw [List.nil_append, splitAt.eq_2, if_pos rfl]
    rfl
  | cons c cs ih =>
    rw [List.cons_append, splitAt, splitAt, ih]
    split
    · rfl
    · cases hp : splitAt separator cs with
      | nil => exact absurd hp (splitAt_ne_nil separator cs)
      | cons piece rest => rfl

/-- Pieces without separators are found again. -/
theorem splitAt_intercalate {separator : Char} {pieces : List (List Char)} (hne : pieces ≠ [])
    (h : ∀ piece ∈ pieces, separator ∉ piece) :
    splitAt separator ([separator].intercalate pieces) = pieces := by
  induction pieces with
  | nil => exact absurd rfl hne
  | cons piece rest ih =>
    rw [List.forall_mem_cons] at h
    cases rest with
    | nil => simpa using splitAt_of_not_mem h.1
    | cons next rest =>
      rw [List.intercalate_cons_cons, List.append_assoc, List.singleton_append, splitAt_append,
        splitAt_of_not_mem h.1, ih (List.cons_ne_nil _ _) h.2, List.singleton_append]

/-- Cutting a text at its separators and putting them back gives the text. -/
theorem intercalate_splitAt (separator : Char) (cs : List Char) :
    [separator].intercalate (splitAt separator cs) = cs := by
  induction cs with
  | nil => rfl
  | cons c cs ih =>
    rw [splitAt]
    cases hp : splitAt separator cs with
    | nil => exact absurd hp (splitAt_ne_nil separator cs)
    | cons piece rest =>
      rw [hp] at ih
      split
      · rename_i hc
        rw [List.intercalate_cons_cons, ih, hc]
        rfl
      · cases rest with
        | nil => simpa using ih
        | cons next rest => simpa [List.intercalate_cons_cons] using ih

/-- No piece holds a separator. -/
theorem not_mem_of_mem_splitAt {separator : Char} {cs piece : List Char}
    (h : piece ∈ splitAt separator cs) : separator ∉ piece := by
  induction cs generalizing piece with
  | nil =>
    rw [List.mem_singleton.mp h]
    exact List.not_mem_nil
  | cons c cs ih =>
    rw [splitAt] at h
    cases hp : splitAt separator cs with
    | nil => exact absurd hp (splitAt_ne_nil separator cs)
    | cons first rest =>
      rw [hp] at h ih
      split at h
      · rcases List.mem_cons.mp h with rfl | h
        · exact List.not_mem_nil
        · exact ih h
      · rename_i hc
        rcases List.mem_cons.mp h with rfl | h
        · rw [List.mem_cons, not_or]
          exact ⟨Ne.symm hc, ih List.mem_cons_self⟩
        · exact ih (List.mem_cons_of_mem first h)

/-- A path is the path of its pieces. -/
theorem ofPieces_pieces (path : String) : ofPieces (pieces path) = path := by
  rw [ofPieces, pieces, intercalate_splitAt, String.ofList_toList]

/-- The pieces of a path are found again. -/
theorem pieces_ofPieces {parts : List (List Char)} (hne : parts ≠ [])
    (h : ∀ piece ∈ parts, '/' ∉ piece) : pieces (ofPieces parts) = parts := by
  rw [ofPieces, pieces, String.toList_ofList, splitAt_intercalate hne h]

/-- The pieces of a path are found again when they are given from the last to the first. -/
theorem pieces_ofPieces_reverse {piece : List Char} {above : List (List Char)}
    (h : ∀ part ∈ piece :: above, '/' ∉ part) :
    pieces (ofPieces (piece :: above).reverse) = above.reverse ++ [piece] := by
  rw [pieces_ofPieces (by simp) fun part hpart => h part (List.mem_reverse.mp hpart), List.reverse_cons]

theorem ofPieces_reverse {path : String} {parts : List (List Char)} (h : (pieces path).reverse = parts) :
    ofPieces parts.reverse = path := by
  rw [← h, List.reverse_reverse, ofPieces_pieces]

/-- The path of the first pieces stands at the start of the path of all. -/
theorem toList_ofPieces_isPrefix (parts more : List (List Char)) :
    (ofPieces parts).toList <+: (ofPieces (parts ++ more)).toList := by
  rw [ofPieces, ofPieces, String.toList_ofList, String.toList_ofList]
  induction parts with
  | nil => exact List.nil_prefix
  | cons piece rest ih =>
    cases rest with
    | cons next rest =>
      rw [List.cons_append, List.cons_append, List.intercalate_cons_cons, List.intercalate_cons_cons]
      exact (List.prefix_append_right_inj _).mpr ih
    | nil =>
      cases more with
      | nil => exact List.prefix_refl _
      | cons next more =>
        rw [List.singleton_append, List.intercalate_cons_cons, List.intercalate_singleton, List.append_assoc]
        exact List.prefix_append _ _

/-- A path holds the characters of its pieces, and slashes. -/
theorem mem_toList_ofPieces {c : Char} (hc : c ≠ '/') (parts : List (List Char)) :
    c ∈ (ofPieces parts).toList ↔ ∃ piece ∈ parts, c ∈ piece := by
  rw [ofPieces, String.toList_ofList]
  induction parts with
  | nil => simp
  | cons piece rest ih =>
    cases rest with
    | nil => simp
    | cons next rest => simp [List.intercalate_cons_cons, List.mem_append, ih, hc]

/-- A path with a name behind it holds no other characters than the two, and slashes. -/
theorem mem_or_mem_of_mem_join {c : Char} (hc : c ≠ '/') {base name : String}
    (h : c ∈ (join base name).toList) : c ∈ base.toList ∨ c ∈ name.toList := by
  rw [join] at h
  split at h
  · exact .inr h
  · split at h
    · simpa using h
    · simpa [hc] using h

/-! ## Moves -/

/-- The moves that pieces stand for and that change the place. -/
def movesOf (parts : List (List Char)) : List Step :=
  (parts.filterMap stepOf).filter (· ≠ .here)

@[simp] theorem movesOf_nil : movesOf [] = [] := rfl

theorem movesOf_append (parts more : List (List Char)) :
    movesOf (parts ++ more) = movesOf parts ++ movesOf more := by
  rw [movesOf, List.filterMap_append, List.filter_append, movesOf, movesOf]

/-- The moves of a path are those of its pieces; the slash at its end changes no place. -/
theorem moves_eq_movesOf (path : String) : moves path = movesOf (pieces path) := by
  rw [moves, steps]
  split
  · rw [List.filter_append]
    simp [movesOf]
  · rfl

/-- What the pieces are that are no moves. -/
theorem eq_or_eq_of_not_isMove {piece : List Char} (h : isMove piece = false) :
    piece = [] ∨ piece = ['.'] := by
  rwa [isMove, Bool.and_eq_false_iff, decide_eq_false_iff_not, decide_eq_false_iff_not,
    Decidable.not_not, Decidable.not_not] at h

/-- A piece that is no move changes no place. -/
theorem movesOf_of_not_isMove {piece : List Char} (h : isMove piece = false) :
    movesOf [piece] = [] := by
  rcases eq_or_eq_of_not_isMove h with rfl | rfl <;> rfl

/-- A piece that is a move stands for one that changes the place. -/
theorem exists_stepOf_of_isMove {piece : List Char} (h : isMove piece = true) :
    ∃ step, stepOf piece = some step ∧ step ≠ .here := by
  obtain ⟨hne, hdot⟩ : piece ≠ [] ∧ piece ≠ ['.'] := by simpa [isMove] using h
  by_cases hup : piece = ['.', '.']
  · exact ⟨.up, by rw [stepOf, if_neg hne, if_neg hdot, if_pos hup], nofun⟩
  · exact ⟨.into (String.ofList piece), by rw [stepOf, if_neg hne, if_neg hdot, if_neg hup], nofun⟩

/-- What the piece of a move stands for. -/
theorem movesOf_of_isMove {piece : List Char} {step : Step} (h : stepOf piece = some step)
    (hstep : step ≠ .here) : movesOf [piece] = [step] := by
  rw [movesOf, List.filterMap_cons_some h, List.filterMap_nil, List.filter_cons_of_pos (by simpa using hstep),
    List.filter_nil]

/-- A path that ends in a name: its last move goes into the entry `name`, behind the moves `above`. -/
structure EndsIn (path : String) (above : List Step) (name : String) : Prop where
  moves : moves path = above ++ [.into name]
  last : (steps path).getLast? ≠ some .here

/-- The steps of a path that does not end in a slash. -/
theorem steps_of_getLast? {path : String} {piece : List Char}
    (h : (pieces path).getLast? = some piece) (hne : piece ≠ []) :
    steps path = (pieces path).filterMap stepOf := by
  rw [steps, if_neg]
  simp [h, hne]

/-- A path whose last piece is a move does not end by staying where it is. -/
theorem getLast?_steps_ne_here {path : String} {piece : List Char}
    (h : (pieces path).getLast? = some piece) (hpiece : isMove piece = true) :
    (steps path).getLast? ≠ some .here := by
  obtain ⟨step, hstep, hne⟩ := exists_stepOf_of_isMove hpiece
  obtain ⟨above, habove⟩ := List.getLast?_eq_some_iff.mp h
  have hnil : piece ≠ [] := fun hnil => by simp [hnil, isMove] at hpiece
  rw [steps_of_getLast? h hnil, habove, List.filterMap_append, List.filterMap_cons_some hstep,
    List.filterMap_nil, List.getLast?_concat]
  exact fun heq => hne (Option.some.inj heq)

/-- A path ends in the name that its last piece is. -/
theorem endsIn_of_pieces {path : String} {above : List (List Char)} {piece : List Char} {name : String}
    (h : pieces path = above ++ [piece]) (hpiece : stepOf piece = some (.into name)) :
    EndsIn path (movesOf above) name := by
  have hmove : isMove piece = true := by
    cases hmove : isMove piece with
    | true => rfl
    | false => rcases eq_or_eq_of_not_isMove hmove with rfl | rfl <;> cases hpiece
  refine ⟨?_, getLast?_steps_ne_here (by rw [h, List.getLast?_concat]) hmove⟩
  rw [moves_eq_movesOf, h, movesOf_append, movesOf_of_isMove hpiece nofun]

/-! ## Single names -/

theorem isSingleName_iff {name : String} :
    isSingleName name = true ↔
      name ≠ "" ∧ name ≠ "." ∧ name ≠ ".." ∧ '/' ∉ name.toList ∧ '\\' ∉ name.toList := by
  simp [isSingleName, and_assoc]

/-- A single name is a move into the entry of that name. -/
theorem stepOf_of_isSingleName {name : String} (h : isSingleName name = true) :
    stepOf name.toList = some (.into name) := by
  obtain ⟨hempty, hdot, hup, -, -⟩ := isSingleName_iff.mp h
  have hnil : name.toList ≠ [] := fun heq => hempty (String.toList_injective heq)
  have hhere : name.toList ≠ ['.'] := fun heq => hdot (String.toList_injective heq)
  have habove : name.toList ≠ ['.', '.'] := fun heq => hup (String.toList_injective heq)
  rw [stepOf, if_neg hnil, if_neg hhere, if_neg habove, String.ofList_toList]

theorem isMove_of_isSingleName {name : String} (h : isSingleName name = true) :
    isMove name.toList = true := by
  obtain ⟨hempty, hdot, -, -, -⟩ := isSingleName_iff.mp h
  simp only [isMove, Bool.and_eq_true, decide_eq_true_eq]
  exact ⟨fun heq => hempty (String.toList_injective heq), fun heq => hdot (String.toList_injective heq)⟩

/-- Behind a path, a single name is one more piece. A slash at the end of the path is used for it. -/
theorem exists_pieces_join {name : String} (h : isSingleName name = true) (base : String) :
    ∃ above, pieces (join base name) = above ++ [name.toList] ∧
      (pieces base = above ∨ pieces base = above ++ [[]]) := by
  obtain ⟨-, -, -, hslash, -⟩ := isSingleName_iff.mp h
  have hname : splitAt '/' name.toList = [name.toList] := splitAt_of_not_mem hslash
  have hrelative : isAbsolute name = false := by
    rw [isAbsolute, decide_eq_false_iff_not]
    exact fun hhead => hslash (List.mem_of_head? hhead)
  by_cases hempty : base = ""
  · refine ⟨[], ?_, .inr ?_⟩
    · rw [join, hrelative, hempty]
      exact hname
    · rw [hempty]
      rfl
  · cases hlast : base.toList.getLast? with
    | none => exact absurd (String.toList_injective (List.getLast?_eq_none_iff.mp hlast)) hempty
    | some c =>
      obtain ⟨cs, hcs⟩ := List.getLast?_eq_some_iff.mp hlast
      by_cases hc : c = '/'
      · subst hc
        have hjoin : join base name = base ++ name := by simp [join, hrelative, hempty, hlast]
        refine ⟨splitAt '/' cs, ?_, .inr ?_⟩
        · rw [hjoin, pieces, String.toList_append, hcs, List.append_assoc, List.singleton_append,
            splitAt_append, hname]
        · rw [pieces, hcs, splitAt_append]
          rfl
      · have hjoin : join base name = base ++ "/" ++ name := by
          simp [join, hrelative, hempty, hlast, hc]
        refine ⟨pieces base, ?_, .inl rfl⟩
        rw [hjoin, pieces, String.append_assoc, String.toList_append, String.toList_append]
        exact (splitAt_append '/' base.toList name.toList).trans (congrArg _ hname)

/-- A slash at the end of a path adds no move. -/
theorem movesOf_of_pieces {base : String} {above : List (List Char)}
    (h : pieces base = above ∨ pieces base = above ++ [[]]) : movesOf above = moves base := by
  rw [moves_eq_movesOf]
  rcases h with h | h
  · rw [h]
  · rw [h, movesOf_append, movesOf_of_not_isMove rfl, List.append_nil]

/-- From the last to the first, the pieces of a path with a single name behind it are that name and pieces of
the path, which make the same moves as the path. -/
theorem exists_above_join {name : String} (hname : isSingleName name = true) (base : String) : ∃ above,
    (pieces (join base name)).reverse = name.toList :: above ∧ (∀ part ∈ above, part ∈ pieces base) ∧
      movesOf above.reverse = moves base ∧
      ((pieces base).reverse = above ∨ (pieces base).reverse = [] :: above) := by
  obtain ⟨above, hjoin, hbase⟩ := exists_pieces_join hname base
  have hparts : ∀ part ∈ above, part ∈ pieces base := by
    rcases hbase with heq | heq
    · exact fun part hpart => heq ▸ hpart
    · exact fun part hpart => heq ▸ List.mem_append_left _ hpart
  refine ⟨above.reverse, by rw [hjoin, List.reverse_append]; rfl,
    fun part hpart => hparts part (List.mem_reverse.mp hpart), ?_, ?_⟩
  · rw [List.reverse_reverse, movesOf_of_pieces hbase]
  · exact hbase.imp (congrArg List.reverse) fun heq => by rw [heq, List.reverse_append]; rfl

/-- A path with a single name behind it ends in that name, behind the moves of the path. -/
theorem endsIn_join {name : String} (h : isSingleName name = true) (base : String) :
    EndsIn (join base name) (moves base) name := by
  obtain ⟨above, hjoin, hbase⟩ := exists_pieces_join h base
  exact movesOf_of_pieces hbase ▸ endsIn_of_pieces hjoin (stepOf_of_isSingleName h)

/-! ## Names on the way down -/

/-- The names that the moves of a path go into. -/
def names (path : String) : List String :=
  (moves path).filterMap fun step =>
    match step with
    | .into name => some name
    | _ => none

/-- A path that never goes up is a way down through its names. -/
theorem moves_eq_map_names {path : String} (h : .up ∉ steps path) :
    moves path = (names path).map .into := by
  have hdown : ∀ step ∈ moves path, step ≠ .here ∧ step ≠ .up := by
    intro step hstep
    obtain ⟨hmem, hhere⟩ := List.mem_filter.mp hstep
    exact ⟨by simpa using hhere, fun hup => h (hup ▸ hmem)⟩
  rw [names]
  generalize moves path = walk at hdown
  induction walk with
  | nil => rfl
  | cons step rest ih =>
    rw [List.forall_mem_cons] at hdown
    cases step with
    | here => exact absurd rfl hdown.1.1
    | up => exact absurd rfl hdown.1.2
    | into name => exact congrArg (Step.into name :: ·) (ih hdown.2)

/-- A path goes up if one of the moves that change the place does. -/
theorem up_mem_moves_iff {path : String} : .up ∈ moves path ↔ .up ∈ steps path := by
  simp [moves]

/-- A single name behind a path is one more name. -/
theorem names_join {name : String} (h : isSingleName name = true) (base : String) :
    names (join base name) = names base ++ [name] := by
  rw [names, (endsIn_join h base).moves, List.filterMap_append]
  rfl

/-- A single name behind a path that never goes up makes another such path. -/
theorem up_not_mem_steps_join {base name : String} (hname : isSingleName name = true)
    (hbase : .up ∉ steps base) : .up ∉ steps (join base name) := by
  rw [← up_mem_moves_iff, (endsIn_join hname base).moves, List.mem_append, not_or, up_mem_moves_iff]
  exact ⟨hbase, by simp⟩

/-- Pieces, given from the last to the first, that lead down through the names `names`. -/
structure Down (parts : List (List Char)) (names : List String) : Prop where
  slashless : ∀ piece ∈ parts, '/' ∉ piece
  moves : movesOf parts.reverse = names.map .into

/-- The path of pieces of which the last is a move. -/
theorem endsIn_ofPieces {piece : List Char} {above : List (List Char)} {name : String}
    (hslash : ∀ part ∈ piece :: above, '/' ∉ part) (hpiece : stepOf piece = some (.into name)) :
    EndsIn (ofPieces (piece :: above).reverse) (movesOf above.reverse) name :=
  endsIn_of_pieces (pieces_ofPieces_reverse hslash) hpiece

/-- What stands above a single name behind a path leads down as the path does. -/
theorem exists_down_join {base name : String} (hname : isSingleName name = true)
    (hbase : .up ∉ steps base) : ∃ above,
      (pieces (join base name)).reverse = name.toList :: above ∧ Down above (names base) := by
  obtain ⟨above, hpath, hparts, hmoves, -⟩ := exists_above_join hname base
  exact ⟨above, hpath, fun piece hpiece => not_mem_of_mem_splitAt (hparts piece hpiece),
    hmoves.trans (moves_eq_map_names hbase)⟩

namespace Down

variable {piece : List Char} {above : List (List Char)} {names : List String}

/-- A piece that is no move leads nowhere. -/
theorem of_not_isMove (h : Down (piece :: above) names) (hpiece : isMove piece = false) :
    Down above names := by
  refine ⟨fun part hpart => h.slashless part (List.mem_cons_of_mem piece hpart), ?_⟩
  rw [← h.moves, List.reverse_cons, movesOf_append, movesOf_of_not_isMove hpiece, List.append_nil]

/-- A single name leads one level further down. -/
theorem cons {name : String} (h : Down above names) (hname : isSingleName name = true) :
    Down (name.toList :: above) (names ++ [name]) := by
  refine ⟨List.forall_mem_cons.mpr ⟨(isSingleName_iff.mp hname).2.2.2.1, h.slashless⟩, ?_⟩
  rw [List.reverse_cons, movesOf_append, movesOf_of_isMove (stepOf_of_isSingleName hname) nofun, h.moves,
    List.map_append, List.map_singleton]

/-- A piece that is a move leads into the last name. -/
theorem of_isMove (h : Down (piece :: above) names) (hpiece : isMove piece = true) :
    ∃ before name, names = before ++ [name] ∧ Down above before ∧
      EndsIn (ofPieces (piece :: above).reverse) (before.map .into) name := by
  obtain ⟨step, hstep, hne⟩ := exists_stepOf_of_isMove hpiece
  have hmoves : movesOf above.reverse ++ [step] = names.map .into := by
    rw [← h.moves, List.reverse_cons, movesOf_append, movesOf_of_isMove hstep hne]
  obtain ⟨before, last, rfl, hbefore, hlast⟩ := List.map_eq_append_iff.mp hmoves.symm
  obtain ⟨name, rfl, rfl⟩ : ∃ name, last = [name] ∧ .into name = step := by
    simpa [List.map_eq_singleton_iff] using hlast
  refine ⟨before, name, rfl, ⟨fun part hpart => h.slashless part (List.mem_cons_of_mem piece hpart),
    hbefore.symm⟩, ?_⟩
  rw [hbefore]
  exact endsIn_ofPieces h.slashless hstep

end Down

end TreeSketch.Path
