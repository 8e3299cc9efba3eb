import TreeSketch.Proofs.Declarative.Language
import TreeSketch.Proofs.Text.Position

/-!
# Where a declarative source goes wrong

A fault of a declarative source names a place, and at that place the source has what the fault speaks of
(`marks_of_parse`): the character of a lexical fault, the operator that cannot be followed, the name that cannot
stand there. The position is the offset of the place, counted in lines and columns.

Offsets are handed on from the source to its chunks (`standsIn_of_mem_chunks`), from these to the tokens
(`standsIn_of_mem_tokenize`), and from the tokens to the moves (`standsIn_of_items`), which are what the faults
of a tree are about. Each step is proved for what stands in the source; that the positions are right follows
from `Text.Position.ofOffset_byteSize` at the end.
-/

namespace TreeSketch

open Text (HasAt)

/-- The text has the piece at the place, which is counted in bytes, and in lines and columns. -/
def Place.Marks (text piece : List Char) (place : Place) : Prop :=
  ∃ before after : List Char, text = before ++ piece ++ after ∧
    place.offset = Text.byteSize before ∧
    place.position = ⟨before.count '\n', Text.byteSize (Text.lastLine before)⟩

/-- The source has what the fault speaks of at the place of the fault, if the fault has a place. -/
def SourceError.Marks (text : List Char) : SourceError → Prop
  | .lex fault => fault.place.Marks text [fault.character]
  | .parse fault =>
    match fault with
    | .danglingOperator place | .childrenUnderFile _ place => place.Marks text ['>']
    | .aboveRoot place => place.Marks text ['|']
    | .secondRoot name place | .unfitName name place =>
      name.toList ≠ [] ∧ place.Marks text name.toList
    -- No source has a token where the grammar has none.
    | .unexpectedToken _ _ => False
    | .emptyInput | .noRoot | .inconsistentIndent _ _ | .mixedStyles _ _ _ | .noEntries _ => True

/-- The token stands in the source where it says. A name is not empty, and an operator is the sign that it
stands for. -/
structure Token.StandsIn (source : List Char) (token : Token) : Prop where
  hasAt : HasAt source token.start token.text.toList
  name_ne : token.kind = .name → token.text.toList ≠ []
  descend : token.kind = .descend → token.text.toList = ['>']
  ascend : token.kind = .ascend → token.text.toList = ['|']

namespace Declarative

variable {source : List Char}

/-- An offset in a source is counted right. -/
theorem marks_placeAt {piece : List Char} {offset : Nat} (h : HasAt source offset piece) :
    (placeAt (Text.LineIndex.ofText source) offset).Marks source piece := by
  obtain ⟨before, after, rfl, rfl⟩ := h
  refine ⟨before, after, rfl, rfl, ?_⟩
  rw [List.append_assoc]
  exact Text.Position.ofOffset_byteSize before (piece ++ after)

/-! ## Chunks -/

/-- The chunk stands in the source where it says. -/
def Chunk.StandsIn (source : List Char) : Chunk → Prop
  | .word start text => text ≠ [] ∧ HasAt source start text
  | .operator start c => isOperator c = true ∧ HasAt source start [c]

theorem standsIn_of_mem_chunksFrom {text : List Char} {offset : Nat}
    (h : HasAt source offset text) :
    ∀ chunk ∈ chunks offset text, chunk.StandsIn source := by
  induction text using word_induction generalizing offset with
  | nil => exact nofun
  | separator c rest hc ih =>
    rw [chunks_separator hc]
    exact ih h.tail
  | operator c rest hseparator hc ih =>
    rw [chunks_operator hseparator hc, List.forall_mem_cons]
    exact ⟨⟨hc, h.head⟩, ih h.tail⟩
  | word word rest hne hword hrest ih =>
    rw [chunks_append hne hword hrest, List.forall_mem_cons]
    exact ⟨⟨hne, h.left⟩, ih h.right⟩

theorem standsIn_of_mem_chunks : ∀ chunk ∈ chunks 0 source, chunk.StandsIn source :=
  standsIn_of_mem_chunksFrom (HasAt.self source)

/-! ## Faults of words -/

theorem hasAt_of_findFrom {p : Char → Bool} {text : List Char} {start offset : Nat} {c : Char}
    (h : HasAt source start text) (hfind : findFrom p start text = some (offset, c)) :
    HasAt source offset [c] := by
  induction text generalizing start with
  | nil => cases hfind
  | cons d text ih =>
    rw [findFrom] at hfind
    split at hfind
    · cases hfind
      exact h.head
    · exact ih h.tail hfind

theorem hasAt_of_strayClose {text : List Char} {start depth offset : Nat}
    (h : HasAt source start text) (hstray : strayClose depth start text = some offset) :
    HasAt source offset [')'] := by
  induction text generalizing start depth with
  | nil => cases hstray
  | cons c text ih =>
    rw [strayClose] at hstray
    split at hstray
    · rename_i hclose
      rw [Bool.and_eq_true, decide_eq_true_eq, decide_eq_true_eq] at hclose
      obtain ⟨rfl, -⟩ := hclose
      cases hstray
      exact h.head
    · exact ih h.tail hstray

theorem marks_of_literalToken {start : Nat} {word : List Char} {fault : LexError}
    (h : HasAt source start word)
    (hfault : literalToken (Text.LineIndex.ofText source) start word = .error fault) :
    fault.place.Marks source [fault.character] := by
  rw [literalToken] at hfault
  split at hfault
  · rename_i offset hstray
    cases hfault
    exact marks_placeAt (hasAt_of_strayClose h hstray)
  · cases hfault

theorem marks_of_wordTokens {start : Nat} {word : List Char} {fault : LexError}
    (h : HasAt source start word)
    (hfault : wordTokens (Text.LineIndex.ofText source) start word = .error fault) :
    fault.place.Marks source [fault.character] := by
  rw [wordTokens] at hfault
  split at hfault
  · rename_i offset c hfind
    cases hfault
    exact marks_placeAt (hasAt_of_findFrom h hfind)
  · split at hfault
    · exact marks_of_literalToken h hfault
    · rename_i kind opened hhint
      have hletter : HasAt source start [LexError.hintLetter kind] := by
        rw [eq_of_hint?_eq_some hhint] at h
        exact h.head
      split at hfault
      · cases hfault
        exact marks_placeAt hletter
      · cases hfault
        exact marks_placeAt hletter
      · cases hfault
      · exact marks_of_literalToken h hfault

/-! ## Tokens -/

theorem standsIn_name {start : Nat} {name : List Char} (hne : name ≠ [])
    (h : HasAt source start name) : (Token.ofText .name name start).StandsIn source where
  hasAt := by
    rw [Token.ofText, String.toList_ofList]
    exact h
  name_ne _ := by
    rw [Token.ofText, String.toList_ofList]
    exact hne
  descend := nofun
  ascend := nofun

theorem standsIn_bracket {kind : TokenKind} {start : Nat} {text : List Char}
    (h : HasAt source start text) (hname : kind ≠ .name) (hoperator : kind.isOperator = false) :
    (Token.ofText kind text start).StandsIn source where
  hasAt := by
    rw [Token.ofText, String.toList_ofList]
    exact h
  name_ne heq := absurd heq hname
  descend heq := by
    rw [show kind = .descend from heq] at hoperator
    cases hoperator
  ascend heq := by
    rw [show kind = .ascend from heq] at hoperator
    cases hoperator

theorem standsIn_operator {c : Char} {start : Nat} (hc : isOperator c = true)
    (h : HasAt source start [c]) :
    (Token.ofText (if c = '>' then .descend else .ascend) [c] start).StandsIn source := by
  have hsign : c = '>' ∨ c = '|' := by simpa [isOperator] using hc
  have hat : HasAt source start (String.ofList [c]).toList := by rwa [String.toList_ofList]
  rcases hsign with rfl | rfl
  · exact ⟨hat, nofun, fun _ => String.toList_ofList, nofun⟩
  · exact ⟨hat, nofun, nofun, fun _ => String.toList_ofList⟩

theorem standsIn_of_wordTokens {index : Text.LineIndex} {start : Nat} {word : List Char}
    {tokens : List Token} (hne : word ≠ []) (h : HasAt source start word)
    (htokens : wordTokens index start word = .ok tokens) :
    ∀ token ∈ tokens, token.StandsIn source := by
  have hliteral (hread : literalToken index start word = .ok tokens) :
      ∀ token ∈ tokens, token.StandsIn source := by
    rw [literalToken_eq_ok hread]
    exact List.forall_mem_singleton.mpr (standsIn_name hne h)
  rw [wordTokens] at htokens
  split at htokens
  · cases htokens
  · split at htokens
    · exact hliteral htokens
    · rename_i kind opened hhint
      split at htokens
      · cases htokens
      · cases htokens
      · rename_i inner hinner hsplit
        cases htokens
        -- The word is the letter and the parenthesis, the name, and another parenthesis.
        have hword := eq_of_hint?_eq_some hhint
        rw [eq_append_of_splitClose hsplit] at hword
        have hletter : (LexError.hintLetter kind).utf8Size = 1 := by cases kind <;> rfl
        have hopen : Text.byteSize [LexError.hintLetter kind, '('] = 2 := by
          rw [Text.byteSize_cons, hletter]
          rfl
        have hparts : HasAt source start
            ([LexError.hintLetter kind, '('] ++ (inner ++ [')'])) := by
          rw [hword] at h
          exact h
        have hname := hparts.right
        rw [hopen] at hname
        have htake : word.take 2 = [LexError.hintLetter kind, '('] := by
          rw [hword]
          rfl
        rw [htake]
        intro token htoken
        simp only [List.mem_cons, List.not_mem_nil, or_false] at htoken
        rcases htoken with rfl | rfl | rfl
        · apply standsIn_bracket hparts.left
          · cases kind <;> decide
          · cases kind <;> rfl
        · refine standsIn_name (fun hnil => ?_) hname.left
          exact hinner hnil
        · apply standsIn_bracket hname.right
          · cases kind <;> decide
          · cases kind <;> rfl
      · exact hliteral htokens

/-- The tokens of a source stand in it where they say. -/
theorem standsIn_of_mem_tokenize {tokens : List Token} (h : tokenize source = .ok tokens) :
    ∀ token ∈ tokens, token.StandsIn source := by
  obtain ⟨groups, hgroups, htokens⟩ := bind_eq_ok_iff.mp h
  obtain rfl := Except.ok.inj htokens
  intro token htoken
  rcases List.mem_append.mp htoken with hgroup | hlast
  · obtain ⟨group, hmem, htoken⟩ := List.mem_flatten.mp hgroup
    obtain ⟨chunk, hchunk, hread⟩ := exists_mem_of_forall₂ (mapM_eq_ok_iff.mp hgroups) hmem
    have hstands := standsIn_of_mem_chunks chunk hchunk
    cases chunk with
    | word start text => exact standsIn_of_wordTokens hstands.1 hstands.2 hread token htoken
    | operator start c =>
      cases hread
      obtain rfl := List.mem_singleton.mp htoken
      exact standsIn_operator hstands.1 hstands.2
  · obtain rfl := List.mem_singleton.mp hlast
    exact ⟨⟨source, [], by simp [Token.mark], rfl⟩, nofun, nofun, nofun⟩

/-- The fault of a source that has no tokens is in the source where it says. -/
theorem marks_of_tokenize {fault : LexError} (h : tokenize source = .error fault) :
    fault.place.Marks source [fault.character] := by
  rcases bind_eq_error_iff.mp h with h | ⟨_, -, h⟩
  · obtain ⟨chunk, hchunk, hfault⟩ := exists_mem_of_mapM_eq_error h
    have hstands := standsIn_of_mem_chunks chunk hchunk
    cases chunk with
    | word start text => exact marks_of_wordTokens hstands.2 hfault
    | operator start c => cases hfault
  · cases h

/-! ## Moves -/

/-- The source has the name of an entry, or the sign of a move, at its place. -/
def Item.StandsIn (source : List Char) : Item → Prop
  | .entry label place => label.name.toList ≠ [] ∧ place.Marks source label.name.toList
  | .descend place => place.Marks source ['>']
  | .ascend place => place.Marks source ['|']

/-- The name that a word says is the start of the word, and some of it. -/
theorem name_wordLabel (word : String) :
    (wordLabel word).name.toList <+: word.toList ∧
      (word.toList ≠ [] → (wordLabel word).name.toList ≠ []) := by
  rw [wordLabel]
  split
  · exact ⟨List.prefix_rfl, id⟩
  · rename_i hname
    rw [Bool.or_eq_true, decide_eq_true_eq, not_or] at hname
    simp only [String.toList_ofList]
    exact ⟨Text.dropEndWhile_isPrefix _ _, fun _ => hname.1⟩

theorem standsIn_of_items {tokens : List Token} {moves : List Item}
    (htokens : ∀ token ∈ tokens, token.StandsIn source)
    (h : items (Text.LineIndex.ofText source) tokens = .ok moves) :
    ∀ move ∈ moves, move.StandsIn source := by
  fun_induction items (Text.LineIndex.ofText source) tokens generalizing moves
  case case1 =>
    cases h
    exact List.forall_mem_nil _
  case case2 =>
    cases h
    exact List.forall_mem_nil _
  case case3 token rest place hname ih =>
    rw [List.forall_mem_cons] at htokens
    obtain ⟨more, hmore, rfl⟩ := map_eq_ok_iff.mp h
    obtain ⟨hstarts, hne⟩ := name_wordLabel token.text
    refine List.forall_mem_cons.mpr ⟨⟨hne (htokens.1.name_ne hname), ?_⟩, ih htokens.2 hmore⟩
    exact marks_placeAt (htokens.1.hasAt.left_of_isPrefix hstarts)
  case case4 token rest place hdescend ih =>
    rw [List.forall_mem_cons] at htokens
    obtain ⟨more, hmore, rfl⟩ := map_eq_ok_iff.mp h
    have hsign := htokens.1.hasAt
    rw [htokens.1.descend hdescend] at hsign
    exact List.forall_mem_cons.mpr ⟨marks_placeAt hsign, ih htokens.2 hmore⟩
  case case5 token rest place hascend ih =>
    rw [List.forall_mem_cons] at htokens
    obtain ⟨more, hmore, rfl⟩ := map_eq_ok_iff.mp h
    have hsign := htokens.1.hasAt
    rw [htokens.1.ascend hascend] at hsign
    exact List.forall_mem_cons.mpr ⟨marks_placeAt hsign, ih htokens.2 hmore⟩
  case case8 hname hclose _ _ _ _ _ _ ih =>
    simp only [List.forall_mem_cons] at htokens
    obtain ⟨more, hmore, rfl⟩ := map_eq_ok_iff.mp h
    obtain ⟨-, hstands, -, hrest⟩ := htokens
    have hname := Decidable.not_not.mp hname
    exact List.forall_mem_cons.mpr
      ⟨⟨hstands.name_ne hname, marks_placeAt hstands.hasAt⟩, ih hrest hmore⟩
  case case6 | case7 | case9 | case10 | case11 | case12 => cases h

/-! ## Faults of trees -/

namespace Frames

variable {frames : Frames} {place : Place} {fault : ParseError}

theorem marks_of_write {label : Label} (h : frames.write label place = .error fault)
    (hplace : label.name.toList ≠ [] ∧ place.Marks source label.name.toList) :
    (SourceError.parse fault).Marks source := by
  unfold write at h
  split at h
  · cases h
    exact hplace
  · split at h
    · cases h
      exact hplace
    · cases h

theorem marks_of_enter (h : frames.enter place = .error fault) (hplace : place.Marks source ['>']) :
    (SourceError.parse fault).Marks source := by
  unfold enter at h
  split at h
  · cases h
    exact hplace
  · split at h
    · cases h
      exact hplace
    · cases h

theorem marks_of_leave (h : frames.leave place = .error fault) (hplace : place.Marks source ['|']) :
    (SourceError.parse fault).Marks source := by
  unfold leave at h
  split at h
  · cases h
    exact hplace
  · cases h

end Frames

/-- The fault of moves that make no tree is in the source where it says. -/
theorem marks_of_outlineFrom {frames : Frames} {moves : List Item} {fault : ParseError}
    (h : outlineFrom frames moves = .error fault) (hmoves : ∀ move ∈ moves, move.StandsIn source) :
    (SourceError.parse fault).Marks source := by
  induction moves generalizing frames with
  | nil => cases h
  | cons move rest ih =>
    rw [List.forall_mem_cons] at hmoves
    cases move with
    | entry label place =>
      rw [outlineFrom] at h
      rcases bind_eq_error_iff.mp h with hwrite | ⟨next, -, h⟩
      · exact Frames.marks_of_write hwrite hmoves.1
      · rcases bind_eq_error_iff.mp h with hrest | ⟨_, -, h⟩
        · exact ih hrest hmoves.2
        · cases h
    | descend place =>
      rw [outlineFrom] at h
      split at h
      · cases h
        exact hmoves.1
      · rcases bind_eq_error_iff.mp h with henter | ⟨next, -, hrest⟩
        · exact Frames.marks_of_enter henter hmoves.1
        · exact ih hrest hmoves.2
    | ascend place =>
      rw [outlineFrom] at h
      rcases bind_eq_error_iff.mp h with hleave | ⟨next, -, hrest⟩
      · exact Frames.marks_of_leave hleave hmoves.1
      · exact ih hrest hmoves.2

theorem marks_of_treeOfTokens {tokens : List Token} {fault : ParseError}
    (htokens : tokenize source = .ok tokens)
    (h : treeOfTokens (Text.LineIndex.ofText source) tokens = .error fault) :
    (SourceError.parse fault).Marks source := by
  obtain ⟨moves, hmoves⟩ := exists_items_of_tokenize htokens (Text.LineIndex.ofText source)
  have hstands := standsIn_of_items (standsIn_of_mem_tokenize htokens) hmoves
  rw [treeOfTokens] at h
  split at h
  · cases h
    trivial
  · rcases bind_eq_error_iff.mp h with hitems | ⟨read, hread, h⟩
    · rw [hmoves] at hitems
      cases hitems
    · obtain rfl := Except.ok.inj (hmoves.symm.trans hread)
      rcases bind_eq_error_iff.mp h with houtline | ⟨outline, -, htree⟩
      · exact marks_of_outlineFrom houtline hstands
      · split at htree
        · cases htree
        · cases htree
          trivial

/-- A source is refused because it is blank, because of a word or because of its moves. -/
theorem fault_of_parse {source : String} {fault : SourceError} (h : parse source = .error fault) :
    fault = .parse .emptyInput ∨
      (∃ lexical, tokenize source.toList = .error lexical ∧ fault = .lex lexical) ∨
      ∃ tokens cause, tokenize source.toList = .ok tokens ∧
        treeOfTokens (Text.LineIndex.ofText source.toList) tokens = .error cause ∧
        fault = .parse cause := by
  rw [parse] at h
  split at h
  · cases h
    exact Or.inl rfl
  · rcases bind_eq_error_iff.mp h with hlex | ⟨tokens, htokens, htree⟩
    · obtain ⟨lexical, hlexical, rfl⟩ := mapError_eq_error_iff.mp hlex
      exact Or.inr (Or.inl ⟨lexical, hlexical, rfl⟩)
    · rw [mapError_eq_ok_iff] at htokens
      obtain ⟨cause, hcause, rfl⟩ := mapError_eq_error_iff.mp htree
      exact Or.inr (Or.inr ⟨tokens, cause, htokens, hcause, rfl⟩)

/-- A source that is refused has what the fault speaks of at the place of the fault. -/
theorem marks_of_parse {source : String} {fault : SourceError} (h : parse source = .error fault) :
    fault.Marks source.toList := by
  rcases fault_of_parse h with rfl | ⟨lexical, hlexical, rfl⟩ | ⟨tokens, cause, htokens, hcause, rfl⟩
  · trivial
  · exact marks_of_tokenize hlexical
  · exact marks_of_treeOfTokens htokens hcause

/-- A second root in a hint, on the third line and behind letters of two bytes. -/
theorem marks_of_parse_secondRoot :
    parse "é >\r\n ö |\n\tf(läs)" = .error (.parse (.secondRoot "läs" ⟨15, 2, 3⟩)) ∧
      (SourceError.parse (.secondRoot "läs" ⟨15, 2, 3⟩)).Marks "é >\r\n ö |\n\tf(läs)".toList := by
  have htokens : tokenize "é >\r\n ö |\n\tf(läs)".toList = .ok
      [.ofText .name ['é'] 0, .ofText .descend ['>'] 3, .ofText .name ['ö'] 7,
        .ofText .ascend ['|'] 10, .ofText .openFile ['f', '('] 13, .ofText .name ['l', 'ä', 's'] 15,
        .ofText .closeFile [')'] 19, .mark .endOfInput 20] := by
    decide +kernel
  have htree (index : Text.LineIndex) : treeOfTokens index
      [.ofText .name ['é'] 0, .ofText .descend ['>'] 3, .ofText .name ['ö'] 7,
        .ofText .ascend ['|'] 10, .ofText .openFile ['f', '('] 13, .ofText .name ['l', 'ä', 's'] 15,
        .ofText .closeFile [')'] 19, .mark .endOfInput 20] =
      .error (.secondRoot "läs" (placeAt index 15)) := rfl
  -- The search in the table of lines is not evaluated: its result is known.
  have hplace : placeAt (Text.LineIndex.ofText "é >\r\n ö |\n\tf(läs)".toList) 15 = ⟨15, 2, 3⟩ :=
    congrArg (Place.mk 15)
      (Text.Position.ofOffset_byteSize "é >\r\n ö |\n\tf(".toList "läs)".toList)
  have hparse : parse "é >\r\n ö |\n\tf(läs)" =
      .error (.parse (.secondRoot "läs" ⟨15, 2, 3⟩)) := by
    have hblank : Text.allBlank "é >\r\n ö |\n\tf(läs)".toList = false := by decide +kernel
    rw [← hplace]
    simp only [parse, hblank, Bool.false_eq_true, if_false, htokens]
    exact congrArg (Except.mapError SourceError.parse) (htree _)
  exact ⟨hparse, marks_of_parse hparse⟩

end Declarative

end TreeSketch
