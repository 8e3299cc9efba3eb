import TreeSketch.Proofs.Checked.Scan

/-!
# Words by their pieces

The tokens of a declarative source from the pieces of its scan. A word is the pieces between separators
and operators, and what it stands for is read off its first piece and the piece that closes that one;
every text of a token is cut out of the source by the offsets of pieces.

`classify_scan` says that the pieces of a word give the tokens that `wordTokens` gives, and `tokenize_eq`
that the pieces of a source give its tokens.
-/

namespace TreeSketch.Declarative.Checked

open Text (HasAt)
open TreeSketch.Checked

/-- The token of a word that is a name as a whole. -/
def literal (index : Text.LineIndex) (pieces : List Piece) (text : List Char) (start stop : Nat) :
    TreeSketch.Checked LexError (List Token) := do
  checkBalanced index 0 pieces
  return [⟨.name, String.ofList text, start, stop⟩]

/-- The tokens of a hint that ends with its word, from the pieces that open and close it. -/
def enclosed (source : List Char) (index : Text.LineIndex) (kind : Kind) (first closing : Piece) :
    TreeSketch.Checked LexError (List Token) :=
  if first.stop < closing.start then do
    let opening ← slice source first.start first.stop
    let inner ← slice source first.stop closing.start
    return [⟨(hintTokens kind).1, String.ofList opening, first.start, first.stop⟩,
      ⟨.name, String.ofList inner, first.stop, closing.start⟩,
      ⟨(hintTokens kind).2, ")", closing.start, closing.stop⟩]
  else do
    let place ← place index first.start
    refuse (.emptyHint kind place)

/-- The tokens of a word that hints at a kind with its first piece. -/
def hinted (source : List Char) (index : Text.LineIndex) (kind : Kind) (first : Piece)
    (pieces : List Piece) (text : List Char) (start stop : Nat) :
    TreeSketch.Checked LexError (List Token) :=
  match matchingClose 0 0 pieces with
  | none => do
    let place ← place index first.start
    refuse (.unterminatedHint kind place)
  | some close => do
    let last ← minus pieces.length 1
    if close = last then
      let closing ← element pieces close
      enclosed source index kind first closing
    else
      literal index pieces text start stop

/-- The tokens of a word. -/
def classify (source : List Char) (index : Text.LineIndex) (pieces : List Piece) :
    TreeSketch.Checked LexError (List Token) := do
  let first ← element pieces 0
  let last ← element pieces (← minus pieces.length 1)
  let text ← slice source first.start last.stop
  match findFrom Text.isControl first.start text with
  | some (offset, c) =>
    let place ← place index offset
    refuse (.illegalCharacter c place)
  | none =>
    match first.raw.bind Raw.hint? with
    | some kind => hinted source index kind first pieces text first.start last.stop
    | none => literal index pieces text first.start last.stop

/-- The tokens of the word that ends here, if there is one. -/
def flush (source : List Char) (index : Text.LineIndex) (word : List Piece) :
    TreeSketch.Checked LexError (List Token) :=
  if word = [] then .ok [] else classify source index word

/-- The tokens of pieces, when the pieces `word` before them are part of the same word. -/
def tokensOf (source : List Char) (index : Text.LineIndex) (word : List Piece) :
    List Piece → TreeSketch.Checked LexError (List Token)
  | [] => flush source index word
  | piece :: rest =>
    match piece.raw with
    | none => do
      let text ← slice source piece.start (Text.byteSize source)
      let place ← place index piece.start
      refuse (.illegalCharacter (text.headD '\x00') place)
    | some .separators => do
      let tokens ← flush source index word
      let more ← tokensOf source index [] rest
      return tokens ++ more
    | some .descend => do
      let tokens ← flush source index word
      let more ← tokensOf source index [] rest
      return tokens ++ ⟨.descend, ">", piece.start, piece.stop⟩ :: more
    | some .ascend => do
      let tokens ← flush source index word
      let more ← tokensOf source index [] rest
      return tokens ++ ⟨.ascend, "|", piece.start, piece.stop⟩ :: more
    | some _ => tokensOf source index (word ++ [piece]) rest

/-- The tokens of a declarative source. -/
def tokenize (source : List Char) : TreeSketch.Checked LexError (List Token) := do
  let tokens ← tokensOf source (Text.LineIndex.ofText source) [] (scan 0 source)
  return tokens ++ [⟨.endOfInput, "", Text.byteSize source, Text.byteSize source⟩]

variable {source : List Char}

/-! ## Words -/

theorem hint?_of_begins {raw : Raw} {taken rest : List Char} (h : Begins raw taken rest) :
    Declarative.hint? (taken ++ rest) = raw.hint?.map (·, rest) := by
  cases h with
  | openDirectory | openFile | openParenthesis | closeParenthesis | descend | ascend => rfl
  | plain _ _ _ hhint => exact hhint
  | separators hne hrun hrest =>
    obtain ⟨c, run, rfl⟩ := List.exists_cons_of_ne_nil hne
    have hc := hrun c List.mem_cons_self
    show Declarative.hint? (c :: run ++ rest) = none
    cases hhint : Declarative.hint? (c :: run ++ rest) with
    | none => rfl
    | some hint =>
      -- The letter of a hint separates nothing.
      obtain rfl := List.head_eq_of_cons_eq (eq_of_hint?_eq_some hhint)
      generalize hint.1 = kind at hc
      cases kind <;> cases hc

theorem scan_nil (offset : Nat) : scan offset [] = [] := by
  rw [scan]

theorem scan_eq_nil_iff {text : List Char} {offset : Nat} : scan offset text = [] ↔ text = [] := by
  constructor
  · intro h
    by_contra hne
    obtain ⟨raw, taken, rest, rfl, hbegins⟩ := exists_begins hne
    rw [scan_of_begins hbegins] at h
    cases h
  · rintro rfl
    exact scan_nil offset

/-- The last piece of a text ends where the text ends. -/
theorem stop_getLast?_scan {text : List Char} (hne : text ≠ []) (offset : Nat) :
    (scan offset text).getLast?.map (·.stop) = some (offset + Text.byteSize text) := by
  induction text using piece_induction generalizing offset with
  | nil => exact absurd rfl hne
  | piece raw taken rest h ih =>
    rw [scan_of_begins h, List.getLast?_cons, Option.map_some]
    by_cases hrest : rest = []
    · subst hrest
      rw [scan_nil, List.append_nil]
      rfl
    · obtain ⟨last, hlast, hstop⟩ := Option.map_eq_some_iff.mp (ih hrest (offset + Text.byteSize taken))
      rw [hlast, Option.getD_some, hstop, Text.byteSize_append, Nat.add_assoc]

theorem literal_scan (source word : List Char) (start : Nat) :
    literal (Text.LineIndex.ofText source) (scan start word) word start (start + Text.byteSize word) =
      lift (literalToken (Text.LineIndex.ofText source) start word) := by
  rw [literal, checkBalanced_scan, literalToken]
  cases strayClose 0 start word <;> rfl

theorem byteSize_opening (kind : Kind) : Text.byteSize [LexError.hintLetter kind, '('] = 2 := by
  cases kind <;> rfl

/-- The first piece of a word that starts with a hint. -/
theorem begins_of_hint {raw : Raw} {kind : Kind} (h : raw.hint? = some kind) {taken opened : List Char}
    (hbegins : Begins raw taken opened) :
    taken = [LexError.hintLetter kind, '('] ∧ raw.opens = true := by
  cases hbegins with
  | openDirectory | openFile =>
    cases h
    exact ⟨rfl, rfl⟩
  | _ => cases h

/-- What a hint holds starts behind the parenthesis, and ends where the piece that closes it starts. -/
theorem enclosed_eq {kind : Kind} {start : Nat} {inner : List Char}
    (h : HasAt source start ([LexError.hintLetter kind, '('] ++ inner)) (raw : Option Raw) :
    enclosed source (Text.LineIndex.ofText source) kind ⟨raw, start, start + 2⟩
        ⟨some .closeParenthesis, start + 2 + Text.byteSize inner,
          start + 2 + Text.byteSize inner + 1⟩ =
      lift (if inner = [] then
          .error (.emptyHint kind (placeAt (Text.LineIndex.ofText source) start))
        else
          .ok [.ofText (hintTokens kind).1 [LexError.hintLetter kind, '('] start,
            .ofText .name inner (start + 2),
            .ofText (hintTokens kind).2 [')'] (start + 2 + Text.byteSize inner)]) := by
  rw [enclosed]
  cases inner with
  | nil =>
    have hnone : ¬ start + 2 < start + 2 + Text.byteSize [] := Nat.lt_irrefl _
    simp only [if_neg hnone, place_ofText, ok_bind]
    rfl
  | cons c inner =>
    have hpos : start + 2 < start + 2 + Text.byteSize (c :: inner) := by
      have := c.utf8Size_pos
      rw [Text.byteSize_cons]
      omega
    have hopening : (slice source start (start + 2) : TreeSketch.Checked LexError _) =
        .ok [LexError.hintLetter kind, '('] :=
      slice_of_hasAt h.left (by rw [byteSize_opening])
    have hname : HasAt source (start + 2) (c :: inner) := by
      have hrest := h.right
      rwa [byteSize_opening] at hrest
    simp only [if_pos hpos, hopening, slice_of_hasAt hname rfl, ok_bind]
    cases kind <;> rfl

/-- A word that hints at a kind is read off the piece that closes its first one. -/
theorem hinted_scan {raw : Raw} {kind : Kind} (hkind : raw.hint? = some kind) {taken opened : List Char}
    (hbegins : Begins raw taken opened) {start : Nat} (h : HasAt source start (taken ++ opened)) :
    hinted source (Text.LineIndex.ofText source) kind ⟨some raw, start, start + Text.byteSize taken⟩
        (scan start (taken ++ opened)) (taken ++ opened) start
        (start + Text.byteSize (taken ++ opened)) =
      lift (match splitClose 0 opened with
        | none => .error (.unterminatedHint kind (placeAt (Text.LineIndex.ofText source) start))
        | some ([], []) => .error (.emptyHint kind (placeAt (Text.LineIndex.ofText source) start))
        | some (inner, []) =>
          .ok [.ofText (hintTokens kind).1 ((taken ++ opened).take 2) start,
            .ofText .name inner (start + 2),
            .ofText (hintTokens kind).2 [')'] (start + 2 + Text.byteSize inner)]
        | some (_, _ :: _) => literalToken (Text.LineIndex.ofText source) start (taken ++ opened)) := by
  obtain ⟨rfl, hopens⟩ := begins_of_hint hkind hbegins
  have hends := matchingClose_scan opened 0 1 (start + 2)
  have hpieces := scan_of_begins hbegins start
  have hliteral := literal_scan source ([LexError.hintLetter kind, '('] ++ opened) start
  rw [hpieces] at hliteral ⊢
  rw [byteSize_opening] at hliteral ⊢
  rw [hinted, matchingClose_opens hopens]
  cases hsplit : splitClose 0 opened with
  | none =>
    rw [hsplit] at hends
    rw [hends]
    simp only [place_ofText, ok_bind]
    rfl
  | some cut =>
    obtain ⟨inner, rest⟩ := cut
    rw [hsplit] at hends
    obtain ⟨before, hbefore, hfound⟩ := hends
    rw [hfound]
    have hlast : (minus ((⟨some raw, start, start + 2⟩ : Piece) :: scan (start + 2) opened).length 1 :
        TreeSketch.Checked LexError Nat) = .ok (scan (start + 2) opened).length :=
      minus_of_le (Nat.succ_pos _)
    simp only [hlast, ok_bind]
    cases rest with
    | cons c rest =>
      -- The hint closes before the word ends.
      have hearly : 1 + before.length ≠ (scan (start + 2) opened).length := by
        have hmore : scan (start + 2 + Text.byteSize inner + 1) (c :: rest) ≠ [] :=
          fun hnil => nomatch scan_eq_nil_iff.mp hnil
        have := List.length_pos_iff.mpr hmore
        rw [hbefore, List.length_append, List.length_cons]
        omega
      rw [if_neg hearly, hliteral]
      cases inner <;> rfl
    | nil =>
      rw [scan_nil] at hbefore
      have hfinal : 1 + before.length = (scan (start + 2) opened).length := by
        rw [hbefore, List.length_append, List.length_singleton, Nat.add_comm]
      have hclosing : (element ((⟨some raw, start, start + 2⟩ : Piece) :: scan (start + 2) opened)
          (1 + before.length) : TreeSketch.Checked LexError Piece) =
          .ok ⟨some .closeParenthesis, start + 2 + Text.byteSize inner,
            start + 2 + Text.byteSize inner + 1⟩ := by
        apply element_of_getElem?
        rw [hbefore, Nat.add_comm 1, List.getElem?_cons_succ,
          List.getElem?_append_right (Nat.le_refl _), Nat.sub_self]
        rfl
      have hinner : HasAt source start ([LexError.hintLetter kind, '('] ++ inner) := by
        rw [eq_append_of_splitClose hsplit, ← List.append_assoc] at h
        exact h.left
      rw [if_pos hfinal, hclosing, ok_bind, enclosed_eq hinner]
      cases inner <;> rfl

/-- The pieces of a word give the tokens of the word. -/
theorem classify_scan {word : List Char} (hne : word ≠ []) {start : Nat} (h : HasAt source start word) :
    classify source (Text.LineIndex.ofText source) (scan start word) =
      lift (wordTokens (Text.LineIndex.ofText source) start word) := by
  obtain ⟨raw, taken, rest, rfl, hbegins⟩ := exists_begins hne
  have hpieces := scan_of_begins hbegins start
  obtain ⟨last, hlast, hstop⟩ := Option.map_eq_some_iff.mp (stop_getLast?_scan hne start)
  have hfirst : (element (scan start (taken ++ rest)) 0 : TreeSketch.Checked LexError Piece) =
      .ok ⟨some raw, start, start + Text.byteSize taken⟩ := by
    rw [hpieces]
    rfl
  have hminus : (minus (scan start (taken ++ rest)).length 1 : TreeSketch.Checked LexError Nat) =
      .ok ((scan start (taken ++ rest)).length - 1) := by
    rw [hpieces]
    exact minus_of_le (Nat.succ_pos _)
  rw [List.getLast?_eq_getElem?] at hlast
  rw [classify, hfirst, ok_bind, hminus, ok_bind, element_of_getElem? hlast, ok_bind, hstop,
    slice_of_hasAt h rfl, ok_bind, wordTokens]
  cases findFrom Text.isControl start (taken ++ rest) with
  | some found =>
    obtain ⟨offset, c⟩ := found
    simp only [place_ofText, ok_bind]
    rfl
  | none =>
    rw [hint?_of_begins hbegins]
    cases hkind : raw.hint? with
    | none =>
      simp only [Option.bind_some, hkind, Option.map_none]
      exact literal_scan source _ start
    | some kind =>
      simp only [Option.bind_some, hkind, Option.map_some]
      exact hinted_scan hkind hbegins h

/-! ## Sources -/

theorem hint?_append {word rest : List Char} (hne : word ≠ []) (h : Declarative.hint? word = none)
    (hrest : Bounds rest) : Declarative.hint? (word ++ rest) = none := by
  cases hhint : Declarative.hint? (word ++ rest) with
  | none => rfl
  | some hint =>
    obtain ⟨kind, opened⟩ := hint
    have heq := eq_of_hint?_eq_some hhint
    match word with
    | [c] =>
      obtain ⟨-, rfl⟩ := List.cons.inj heq
      cases hrest '(' rfl
    | c :: d :: word =>
      obtain ⟨rfl, hopen⟩ := List.cons.inj heq
      obtain rfl := (List.cons.inj hopen).1
      cases kind <;> cases h

/-- A piece of a word is part of every word that goes on with it. -/
theorem Begins.append {raw : Raw} {taken word rest : List Char} (h : Begins raw taken word)
    (hword : ∀ c ∈ taken, isWordChar c = true) (hrest : Bounds rest) :
    Begins raw taken (word ++ rest) ∧ raw.inWord = true := by
  cases h with
  | descend | ascend => cases hword _ List.mem_cons_self
  | openDirectory => exact ⟨.openDirectory _, rfl⟩
  | openFile => exact ⟨.openFile _, rfl⟩
  | openParenthesis => exact ⟨.openParenthesis _, rfl⟩
  | closeParenthesis => exact ⟨.closeParenthesis _, rfl⟩
  | separators hne hrun _ =>
    obtain ⟨c, hc⟩ := List.exists_mem_of_ne_nil _ hne
    have hcontra := hword c hc
    rw [isWordChar, hrun c hc] at hcontra
    cases hcontra
  | plain hne hrun hend hhint =>
    refine ⟨.plain hne hrun ?_ ?_, rfl⟩
    · cases word with
      | nil =>
        intro c hc
        rw [isPlain, hrest c hc]
        rfl
      | cons c word => exact hend
    · rw [← List.append_assoc]
      exact hint?_append (List.append_ne_nil_of_left_ne_nil hne word) hhint hrest

theorem scan_append {word rest : List Char} (hword : ∀ c ∈ word, isWordChar c = true)
    (hrest : Bounds rest) (offset : Nat) :
    scan offset (word ++ rest) = scan offset word ++ scan (offset + Text.byteSize word) rest ∧
      ∀ piece ∈ scan offset word, ∃ raw, piece.raw = some raw ∧ raw.inWord = true := by
  induction word using piece_induction generalizing offset with
  | nil =>
    rw [scan_nil]
    exact ⟨rfl, nofun⟩
  | piece raw taken more h ih =>
    rw [List.forall_mem_append] at hword
    obtain ⟨hbegins, hraw⟩ := h.append hword.1 hrest
    obtain ⟨hmore, hpieces⟩ := ih hword.2 (offset + Text.byteSize taken)
    rw [List.append_assoc, scan_of_begins hbegins, scan_of_begins h, hmore, Text.byteSize_append,
      Nat.add_assoc, List.forall_mem_cons]
    exact ⟨rfl, ⟨raw, rfl, hraw⟩, hpieces⟩

theorem tokensOf_append {index : Text.LineIndex} {word : List Piece}
    (h : ∀ piece ∈ word, ∃ raw, piece.raw = some raw ∧ raw.inWord = true) (before rest : List Piece) :
    tokensOf source index before (word ++ rest) = tokensOf source index (before ++ word) rest := by
  induction word generalizing before with
  | nil => rw [List.nil_append, List.append_nil]
  | cons piece word ih =>
    obtain ⟨⟨raw, hpiece, hraw⟩, hword⟩ := List.forall_mem_cons.mp h
    have hstep : tokensOf source index before (piece :: (word ++ rest)) =
        tokensOf source index (before ++ [piece]) (word ++ rest) := by
      rw [tokensOf, hpiece]
      cases raw with
      | descend | ascend | separators => cases hraw
      | openDirectory | openFile | openParenthesis | closeParenthesis | plain => rfl
    rw [List.cons_append, hstep, ih hword, List.append_assoc]
    rfl

theorem flush_nil (index : Text.LineIndex) : flush source index [] = .ok [] := rfl

/-- Where a word cannot go on, it ends. -/
theorem tokensOf_bounds {index : Text.LineIndex} {rest : List Char} (h : Bounds rest)
    (word : List Piece) (offset : Nat) :
    tokensOf source index word (scan offset rest) = (do
      let tokens ← flush source index word
      let more ← tokensOf source index [] (scan offset rest)
      return tokens ++ more) := by
  by_cases hne : rest = []
  · subst hne
    rw [scan_nil, tokensOf, tokensOf, flush_nil]
    cases flush source index word with
    | error stop => rfl
    | ok tokens => exact congrArg Except.ok (List.append_nil tokens).symm
  · obtain ⟨raw, taken, rest, rfl, hbegins⟩ := exists_begins hne
    rw [scan_of_begins hbegins]
    have hhead : ∀ c ∈ taken.head?, isWordChar c = false := by
      intro c hc
      apply h
      rw [List.head?_append, Option.mem_def.mp hc]
      rfl
    cases hbegins with
    | descend | ascend | separators =>
      rw [tokensOf, tokensOf, flush_nil]
      cases flush source index word with
      | error stop => rfl
      | ok tokens =>
        cases tokensOf source index [] (scan (offset + Text.byteSize _) rest) with
        | error stop => rfl
        | ok more => rfl
    | openDirectory | openFile | openParenthesis | closeParenthesis => cases hhead _ rfl
    | plain hne hrun _ _ =>
      obtain ⟨c, run, rfl⟩ := List.exists_cons_of_ne_nil hne
      have hcontra := hrun c List.mem_cons_self
      rw [isPlain, hhead c rfl] at hcontra
      cases hcontra

theorem tokensOf_separators {index : Text.LineIndex} {run rest : List Char}
    (hrun : ∀ c ∈ run, isSeparator c = true) (hrest : ∀ c ∈ rest.head?, isSeparator c = false)
    (offset : Nat) :
    tokensOf source index [] (scan offset (run ++ rest)) =
      tokensOf source index [] (scan (offset + Text.byteSize run) rest) := by
  by_cases hne : run = []
  · subst hne
    rfl
  · rw [scan_of_begins (.separators hne hrun hrest), tokensOf, flush_nil]
    cases tokensOf source index [] (scan (offset + Text.byteSize run) rest) <;> rfl

/-- The tokens of chunks are the tokens of the first one and those of the others. -/
theorem flatten_mapM_cons {index : Text.LineIndex} (chunk : Chunk) (more : List Chunk) :
    ((chunk :: more).mapM (chunkTokens index)).map List.flatten = (do
      let tokens ← chunkTokens index chunk
      let others ← (more.mapM (chunkTokens index)).map List.flatten
      return tokens ++ others) := by
  rw [List.mapM_cons]
  cases chunkTokens index chunk with
  | error fault => rfl
  | ok tokens =>
    cases more.mapM (chunkTokens index) with
    | error fault => rfl
    | ok others => rfl

/-- The pieces of a part of a source give the tokens of its words and operators. -/
theorem tokensOf_scan {text : List Char} {offset : Nat} (h : HasAt source offset text) :
    tokensOf source (Text.LineIndex.ofText source) [] (scan offset text) =
      lift (((chunks offset text).mapM (chunkTokens (Text.LineIndex.ofText source))).map
        List.flatten) := by
  induction text using word_induction generalizing offset with
  | nil =>
    rw [scan_nil]
    rfl
  | separator c rest hc ih =>
    obtain ⟨run, more, rfl, hrun, hmore⟩ : ∃ run more, rest = run ++ more ∧
        (∀ d ∈ run, isSeparator d = true) ∧ ∀ d ∈ more.head?, isSeparator d = false := by
      obtain ⟨run, more, heq, hne, hrun, hmore⟩ := exists_run hc rest
      obtain ⟨d, run, rfl⟩ := List.exists_cons_of_ne_nil hne
      obtain ⟨-, rfl⟩ := List.cons.inj heq
      exact ⟨run, more, rfl, (List.forall_mem_cons.mp hrun).2, hmore⟩
    -- The run may be longer by the character in front of it.
    rw [chunks_separator hc, ← ih h.tail, tokensOf_separators hrun hmore, Nat.add_assoc]
    exact tokensOf_separators (List.forall_mem_cons.mpr ⟨hc, hrun⟩) hmore offset
  | operator c rest hseparator hc ih =>
    rw [chunks_operator hseparator hc, flatten_mapM_cons, lift_bind]
    have hmore := ih h.tail
    rcases (by simpa [isOperator] using hc : c = '>' ∨ c = '|') with rfl | rfl
    · have hscan := scan_of_begins (.descend rest) offset
      rw [List.singleton_append] at hscan
      rw [hscan, tokensOf, flush_nil, ok_bind]
      simp only [Text.byteSize_cons, Text.byteSize_nil, Nat.add_zero, hmore]
      cases ((chunks (offset + ('>').utf8Size) rest).mapM
        (chunkTokens (Text.LineIndex.ofText source))).map List.flatten <;> rfl
    · have hscan := scan_of_begins (.ascend rest) offset
      rw [List.singleton_append] at hscan
      rw [hscan, tokensOf, flush_nil, ok_bind]
      simp only [Text.byteSize_cons, Text.byteSize_nil, Nat.add_zero, hmore]
      cases ((chunks (offset + ('|').utf8Size) rest).mapM
        (chunkTokens (Text.LineIndex.ofText source))).map List.flatten <;> rfl
  | word word rest hne hword hrest ih =>
    obtain ⟨hscan, hpieces⟩ := scan_append hword hrest offset
    rw [chunks_append hne hword hrest, flatten_mapM_cons, lift_bind, hscan, tokensOf_append hpieces,
      tokensOf_bounds hrest, ih h.right, List.nil_append, flush, if_neg (by rwa [scan_eq_nil_iff]),
      classify_scan hne h.left]
    simp only [lift_bind]
    rfl

/-- The tokens of a source by its pieces are its tokens: no access to the source fails. -/
theorem tokenize_eq (source : List Char) : tokenize source = lift (Declarative.tokenize source) := by
  rw [tokenize, tokensOf_scan (HasAt.self source), Declarative.tokenize]
  cases (chunks 0 source).mapM (chunkTokens (Text.LineIndex.ofText source)) <;> rfl

end TreeSketch.Declarative.Checked
