import TreeSketch.Proofs.Declarative.Lexis

/-!
# Sources with the same words

Where a declarative source has its words and operators matters to the places of faults, and to nothing else. Two
sources that fall into the same words and operators, at places that look the same, are read alike: they have the same
tree, or the same fault but for its place, and the places look the same (`parse_alike`). What a place looks like is
left open; it may be nothing at all, or its line and column.

Each stage of reading has its lemma: the tokens of a word (`chunkTokens_alike`), the moves that they stand for
(`items_alike`), and the outline (`outlineFrom_mapPlace`), for which the two sources need not be told apart.
-/

namespace TreeSketch

/-! ## Faults at other places -/

/-- The fault with its place seen in another way. -/
def LexError.mapPlace (view : Place → Place) : LexError → LexError
  | unterminatedHint hint place => unterminatedHint hint (view place)
  | unmatchedClose place => unmatchedClose (view place)
  | emptyHint hint place => emptyHint hint (view place)
  | illegalCharacter character place => illegalCharacter character (view place)

/-- The fault with its place, if it has one, seen in another way. -/
def ParseError.mapPlace (view : Place → Place) : ParseError → ParseError
  | danglingOperator place => danglingOperator (view place)
  | aboveRoot place => aboveRoot (view place)
  | secondRoot name place => secondRoot name (view place)
  | childrenUnderFile name place => childrenUnderFile name (view place)
  | unfitName name place => unfitName name (view place)
  | unexpectedToken found place => unexpectedToken found (view place)
  | fault => fault

/-- The fault with its place, if it has one, seen in another way. -/
def SourceError.mapPlace (view : Place → Place) : SourceError → SourceError
  | lex fault => lex (fault.mapPlace view)
  | parse fault => parse (fault.mapPlace view)

namespace Declarative

variable {view : Place → Place}

/-- The move with its place seen in another way. -/
def Item.mapPlace (view : Place → Place) : Item → Item
  | entry label place => entry label (view place)
  | descend place => descend (view place)
  | ascend place => ascend (view place)

/-! ## Words -/

variable {index other : Text.LineIndex}

/-- The pieces are the same, and what they hold is at places that look the same. -/
inductive Chunk.Alike (view : Place → Place) (index other : Text.LineIndex) : Chunk → Chunk → Prop
  | word {start begin : Nat} {text : List Char}
    (h : ∀ piece, piece <+: text →
      view (placeAt index (start + Text.byteSize piece)) =
        view (placeAt other (begin + Text.byteSize piece))) :
    Alike view index other (.word start text) (.word begin text)
  | operator {start begin : Nat} {c : Char} (hc : isOperator c = true)
    (h : view (placeAt index start) = view (placeAt other begin)) :
    Alike view index other (.operator start c) (.operator begin c)

/-- The tokens are read as one move in either source, and it is the same one but for the look of its place. -/
structure MoveAlike (view : Place → Place) (index other : Text.LineIndex) (group twin : List Token) :
    Prop where
  named : group.any (·.isName) = twin.any (·.isName)
  read : ∃ move same : Item, move.mapPlace view = same.mapPlace view ∧
    (∀ rest, items index (group ++ rest) = (items index rest).map (move :: ·)) ∧
    ∀ rest, items other (twin ++ rest) = (items other rest).map (same :: ·)

theorem items_hint (index : Text.LineIndex) (kind : Kind) (start : Nat) (inner : List Char)
    (rest : List Token) :
    items index ([.ofText (hintTokens kind).1 (opening kind) start, .ofText .name inner (start + 2),
        .ofText (hintTokens kind).2 [')'] (start + 2 + Text.byteSize inner)] ++ rest) =
      (items index rest).map
        (.entry ⟨String.ofList inner, some ⟨kind, .hint⟩⟩ (placeAt index (start + 2)) :: ·) := by
  cases kind <;> rfl

/-- A word is read alike at places that look the same. -/
theorem wordTokens_alike {start begin : Nat} {word : List Char}
    (h : ∀ piece, piece <+: word →
      view (placeAt index (start + Text.byteSize piece)) =
        view (placeAt other (begin + Text.byteSize piece))) :
    RunAlike (LexError.mapPlace view) (MoveAlike view index other) (wordTokens index start word)
      (wordTokens other begin word) := by
  have hstart : view (placeAt index start) = view (placeAt other begin) := h [] List.nil_prefix
  cases hread : wordTokens index start word with
  | ok tokens =>
    cases wordTokens_eq_ok_iff.mp hread with
    | @hint kind inner hclean hencloses hne =>
      rw [wordTokens_of_yields (.hint hclean hencloses hne)]
      have hopening : opening kind <+: word := by
        rw [hencloses.1, List.append_assoc]
        exact List.prefix_append _ _
      have hsize : Text.byteSize (opening kind) = 2 := by cases kind <;> rfl
      have hname := h (opening kind) hopening
      rw [hsize] at hname
      refine .ok ⟨?_, _, _, ?_, items_hint index kind start inner, items_hint other kind begin inner⟩
      · cases kind <;> rfl
      · rw [Item.mapPlace, Item.mapPlace, hname]
    | name hclean hhint hopen hcovered =>
      rw [wordTokens_of_yields (.name hclean hhint hopen hcovered)]
      refine .ok ⟨rfl, .entry (wordLabel (String.ofList word)) (placeAt index start),
        .entry (wordLabel (String.ofList word)) (placeAt other begin), ?_, fun _ => rfl, fun _ => rfl⟩
      rw [Item.mapPlace, Item.mapPlace, hstart]
  | error fault =>
    cases wordTokens_eq_error_iff.mp hread with
    | @illegalCharacter before after c hword hbefore hc =>
      rw [wordTokens_of_refuses (.illegalCharacter hword hbefore hc)]
      refine .error (congrArg (LexError.illegalCharacter c) (h before ?_))
      rw [hword]
      exact List.prefix_append _ _
    | @unterminatedHint kind hclean hopen =>
      rw [wordTokens_of_refuses (.unterminatedHint hclean hopen)]
      exact .error (congrArg (LexError.unterminatedHint kind) hstart)
    | @emptyHint kind hclean hword =>
      rw [wordTokens_of_refuses (.emptyHint hclean hword)]
      exact .error (congrArg (LexError.emptyHint kind) hstart)
    | @unmatchedClose before after hclean hhint hword hbefore hmore =>
      rw [wordTokens_of_refuses (.unmatchedClose hclean hhint hword hbefore hmore)]
      refine .error (congrArg LexError.unmatchedClose (h before ?_))
      rw [hword]
      exact List.prefix_append _ _

theorem chunkTokens_alike {chunk twin : Chunk} (h : chunk.Alike view index other twin) :
    RunAlike (LexError.mapPlace view) (MoveAlike view index other) (chunkTokens index chunk)
      (chunkTokens other twin) := by
  cases h with
  | word h => exact wordTokens_alike h
  | @operator start begin c hc h =>
    rcases (by simpa [isOperator] using hc : c = '>' ∨ c = '|') with rfl | rfl
    · refine .ok ⟨rfl, .descend (placeAt index start), .descend (placeAt other begin), ?_,
        fun _ => rfl, fun _ => rfl⟩
      rw [Item.mapPlace, Item.mapPlace, h]
    · refine .ok ⟨rfl, .ascend (placeAt index start), .ascend (placeAt other begin), ?_,
        fun _ => rfl, fun _ => rfl⟩
      rw [Item.mapPlace, Item.mapPlace, h]

/-! ## Moves -/

/-- Groups of tokens that stand for the same moves are read as them. -/
theorem items_alike {groups twins : List (List Token)}
    (h : List.Forall₂ (MoveAlike view index other) groups twins) (stop stopped : Nat) :
    ∃ moves same, items index (groups.flatten ++ [Token.mark .endOfInput stop]) = .ok moves ∧
      items other (twins.flatten ++ [Token.mark .endOfInput stopped]) = .ok same ∧
      moves.map (Item.mapPlace view) = same.map (Item.mapPlace view) := by
  induction h with
  | nil => exact ⟨[], [], rfl, rfl, rfl⟩
  | cons hfirst _ ih =>
    obtain ⟨moves, same, hmoves, hsame, hview⟩ := ih
    obtain ⟨move, first, hlook, hmove, hfirst⟩ := hfirst.read
    refine ⟨move :: moves, first :: same, ?_, ?_, ?_⟩
    · rw [List.flatten_cons, List.append_assoc, hmove, hmoves]
      rfl
    · rw [List.flatten_cons, List.append_assoc, hfirst, hsame]
      rfl
    · rw [List.map_cons, List.map_cons, hlook, hview]

theorem any_isName_alike {groups twins : List (List Token)}
    (h : List.Forall₂ (MoveAlike view index other) groups twins) :
    groups.flatten.any (·.isName) = twins.flatten.any (·.isName) := by
  induction h with
  | nil => rfl
  | cons hfirst _ ih =>
    rw [List.flatten_cons, List.flatten_cons, List.any_append, List.any_append, hfirst.named, ih]

theorem startsWithEntry_mapPlace (view : Place → Place) (moves : List Item) :
    startsWithEntry (moves.map (Item.mapPlace view)) = startsWithEntry moves := by
  cases moves with
  | nil => rfl
  | cons move rest => cases move <;> rfl

/-- The outline of moves does not depend on their places, which only its faults show. -/
theorem outlineFrom_mapPlace (view : Place → Place) (frames : Frames) (moves : List Item) :
    outlineFrom frames (moves.map (Item.mapPlace view)) =
      (outlineFrom frames moves).mapError (ParseError.mapPlace view) := by
  induction moves generalizing frames with
  | nil => rfl
  | cons move rest ih =>
    cases move with
    | entry label place =>
      have hwrite : frames.write label (view place) =
          (frames.write label place).mapError (ParseError.mapPlace view) := by
        unfold Frames.write
        split
        · rfl
        · split <;> rfl
      rw [List.map_cons, Item.mapPlace, outlineFrom, outlineFrom, hwrite, mapError_bind]
      congr 1
      funext next
      rw [ih, mapError_bind]
      rfl
    | descend place =>
      have henter : frames.enter (view place) =
          (frames.enter place).mapError (ParseError.mapPlace view) := by
        unfold Frames.enter
        split
        · rfl
        · split <;> rfl
      rw [List.map_cons, Item.mapPlace, outlineFrom, outlineFrom, startsWithEntry_mapPlace]
      split
      · rfl
      · rw [henter, mapError_bind]
        congr 1
        funext next
        exact ih next
    | ascend place =>
      have hleave : frames.leave (view place) =
          (frames.leave place).mapError (ParseError.mapPlace view) := by
        unfold Frames.leave
        split <;> rfl
      rw [List.map_cons, Item.mapPlace, outlineFrom, outlineFrom, hleave, mapError_bind]
      congr 1
      funext next
      exact ih next

/-! ## Sources -/

/-- Groups of tokens that stand for the same moves have the same tree, or the same fault at a place that looks the
same. -/
theorem treeOfTokens_alike {groups twins : List (List Token)}
    (h : List.Forall₂ (MoveAlike view index other) groups twins) (stop stopped : Nat) :
    (treeOfTokens index (groups.flatten ++ [Token.mark .endOfInput stop])).mapError
        (ParseError.mapPlace view) =
      (treeOfTokens other (twins.flatten ++ [Token.mark .endOfInput stopped])).mapError
        (ParseError.mapPlace view) := by
  obtain ⟨moves, same, hmoves, hsame, hview⟩ := items_alike h stop stopped
  have houtlines : (outlineFrom .start moves).mapError (ParseError.mapPlace view) =
      (outlineFrom .start same).mapError (ParseError.mapPlace view) := by
    rw [← outlineFrom_mapPlace, ← outlineFrom_mapPlace, hview]
  have hnames : (groups.flatten ++ [Token.mark .endOfInput stop]).any (·.isName) =
      (twins.flatten ++ [Token.mark .endOfInput stopped]).any (·.isName) := by
    rw [List.any_append, List.any_append, any_isName_alike h]
    rfl
  rw [treeOfTokens, treeOfTokens, hmoves, hsame, hnames]
  split
  · rfl
  · show (outlineFrom .start moves >>= _).mapError _ = (outlineFrom .start same >>= _).mapError _
    rw [mapError_bind, mapError_bind, houtlines]

/-- Two sources that fall into the same words and operators, at places that look the same, are read alike. -/
theorem parse_alike {source twin : String}
    (hblank : Text.allBlank source.toList = Text.allBlank twin.toList)
    (h : List.Forall₂ (Chunk.Alike view (Text.LineIndex.ofText source.toList)
      (Text.LineIndex.ofText twin.toList)) (chunks 0 source.toList) (chunks 0 twin.toList)) :
    (parse source).mapError (SourceError.mapPlace view) =
      (parse twin).mapError (SourceError.mapPlace view) := by
  have hgroups := RunAlike.mapM (h.imp fun _ _ => chunkTokens_alike)
  rw [parse, parse, hblank, tokenize, tokenize]
  split
  · rfl
  · generalize (chunks 0 source.toList).mapM (chunkTokens (Text.LineIndex.ofText source.toList)) =
      groups at hgroups ⊢
    generalize (chunks 0 twin.toList).mapM (chunkTokens (Text.LineIndex.ofText twin.toList)) =
      twins at hgroups ⊢
    cases hgroups with
    | error hfault => exact congrArg (fun fault => Except.error (SourceError.lex fault)) hfault
    | ok hsame =>
      have htrees := treeOfTokens_alike hsame (Text.byteSize source.toList) (Text.byteSize twin.toList)
      have hfaults := congrArg (Except.mapError SourceError.parse) htrees
      rw [mapError_mapError, mapError_mapError] at hfaults
      show ((treeOfTokens _ _).mapError SourceError.parse).mapError _ =
        ((treeOfTokens _ _).mapError SourceError.parse).mapError _
      rw [mapError_mapError, mapError_mapError]
      exact hfaults

end Declarative

end TreeSketch
