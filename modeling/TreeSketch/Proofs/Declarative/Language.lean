import TreeSketch.Proofs.Declarative.Depth
import TreeSketch.Proofs.Declarative.Moves

/-!
# The declarative language

Which sources have a tree is a condition on their tokens alone (`exists_parse_iff`): the first token begins an
entry, and every token fits the place where it stands (`Occurrence.Fits`). Depths are counted from the `>` and
the `|` before a token, and the entry that a `>` enters is the name that was last read at its depth.

The tokens are followed in the groups that make moves, up to the condition `Admits` on moves
(`fits_iff_admits`). That the tokens of a source always fall into such groups is a fact about `tokenize`
(`exists_items_of_tokenize`).
-/

namespace TreeSketch.Declarative

open Diagram (readsAsName)

/-! ## Kinds of tokens -/

theorem name_ne_closing (kind : Kind) : TokenKind.name ≠ (hintTokens kind).2 := by
  cases kind <;> decide

theorem closing_not_operator (kind : Kind) : (hintTokens kind).2.isOperator = false := by
  cases kind <;> rfl

theorem ne_name_of_opening {token : TokenKind} {kind : Kind} (h : hintOf token = some kind) :
    token ≠ .name := by
  rintro rfl
  cases h

theorem ne_closing_of_opening {token : TokenKind} {kind : Kind} (h : hintOf token = some kind)
    (other : Kind) : token ≠ (hintTokens other).2 := by
  rintro rfl
  rw [hintOf_closing] at h
  cases h

theorem not_operator_of_opening {token : TokenKind} {kind : Kind} (h : hintOf token = some kind) :
    token.isOperator = false := by
  rw [hintOf_eq_some h]
  cases kind <;> rfl

/-! ## Sentences -/

/-- The token begins an entry: it is a name, or it opens a hint. -/
def OpensEntry (token : Token) : Prop :=
  token.kind = .name ∨ token.kind = .openDirectory ∨ token.kind = .openFile

/-- The tokens where they occur, in order, when `before` comes before the first one. -/
def positionsFrom (before : List Token) : List Token → List Occurrence
  | [] => []
  | token :: after => ⟨before, token, after⟩ :: positionsFrom (before ++ [token]) after

/-- The tokens where they occur, in order. -/
def positions (tokens : List Token) : List Occurrence :=
  positionsFrom [] tokens

/-- The name that was last read at a depth. -/
def latestAt (depth : Int) (before : List Token) : Option Occurrence :=
  (occurrences before).reverse.find? (·.depth = depth)

namespace Occurrence

/-- The name of the entry: slashes at the end of a word are no part of it. -/
def name (occurrence : Occurrence) : List Char :=
  if occurrence.hint = none then Text.dropEndWhile (· = '/') occurrence.token.text.toList
  else occurrence.token.text.toList

/-- The token may stand where it does.

* A name comes back from a diagram, and no name after the first stands beside the root.
* A `>` is followed by an entry, and the entry that it enters is not hinted to be a file.
* A `|` leaves a level below the root's. -/
def Fits (occurrence : Occurrence) : Prop :=
  match occurrence.token.kind with
  | .name =>
    readsAsName occurrence.name = true ∧
      (occurrence.before.any (·.isName) = true → occurrence.depth ≠ 0)
  | .descend =>
    (∃ next ∈ occurrence.after.head?, OpensEntry next) ∧
      ∀ parent ∈ latestAt occurrence.depth occurrence.before, parent.hint ≠ some .file
  | .ascend => 1 ≤ occurrence.depth
  | _ => True

end Occurrence

/-- The tokens make a tree: they begin with an entry, and each fits its place. -/
structure Sentence (tokens : List Token) : Prop where
  opens : ∃ first ∈ tokens.head?, OpensEntry first
  fits : ∀ occurrence ∈ positions tokens, occurrence.Fits

/-! ## What was read before a token -/

namespace Occurrence

/-- The occurrence when more tokens follow. -/
def extend (occurrence : Occurrence) (more : List Token) : Occurrence :=
  { occurrence with after := occurrence.after ++ more }

/-- The entry that the name makes. -/
def entry (occurrence : Occurrence) : Int × Label :=
  (occurrence.depth, occurrence.label)

/-- What follows a name does not matter to it, unless it closes a hint. -/
theorem hint_extend (occurrence : Occurrence) {more : List Token}
    (h : ∀ token ∈ more.head?, ∀ kind, token.kind ≠ (hintTokens kind).2) :
    (occurrence.extend more).hint = occurrence.hint := by
  obtain ⟨before, token, after⟩ := occurrence
  cases after with
  | cons next after => rfl
  | nil =>
    simp only [hint, extend, List.nil_append, List.head?_nil]
    cases before.getLast?.bind fun token => hintOf token.kind with
    | none => rfl
    | some kind => simpa [Option.filter_some] using fun token htoken => h token htoken kind

theorem entry_extend (occurrence : Occurrence) {more : List Token}
    (h : ∀ token ∈ more.head?, ∀ kind, token.kind ≠ (hintTokens kind).2) :
    (occurrence.extend more).entry = occurrence.entry := by
  rw [entry, entry, label, label, hint_extend occurrence h]
  rfl

/-- A word that is all slashes is no name, with or without its slashes. -/
theorem readsAsName_trimmed (word : String) :
    readsAsName (Text.dropEndWhile (· = '/') word.toList) =
      readsAsName (wordLabel word).name.toList := by
  rw [Bool.eq_iff_iff]
  constructor
  · intro hreads
    have hne := (Node.ofLine_of_readsAsName hreads).2.1
    rw [wordLabel]
    split
    · rename_i hwhole
      rw [Bool.or_eq_true, decide_eq_true_eq, decide_eq_true_eq] at hwhole
      have hlength := hwhole.resolve_left hne
      rwa [← (Text.dropEndWhile_isPrefix _ word.toList).eq_of_length hlength]
    · simpa using hreads
  · intro hreads
    rwa [← (wordLabel_of_readsAsName hreads).1]

/-- A name is fit for a diagram when the name in its label is. -/
theorem readsAsName_name (occurrence : Occurrence) :
    readsAsName occurrence.name = readsAsName occurrence.label.name.toList := by
  rw [name, label]
  cases hhint : occurrence.hint with
  | some kind => simp
  | none =>
    rw [if_pos rfl]
    exact readsAsName_trimmed occurrence.token.text

theorem isFile_label_iff (occurrence : Occurrence) :
    occurrence.label.IsFile ↔ occurrence.hint = some .file := by
  rw [label]
  cases hhint : occurrence.hint with
  | some kind => simp [Label.IsFile]
  | none =>
    simp only [reduceCtorEq, iff_false, wordLabel]
    split <;> simp [Label.IsFile]

end Occurrence

theorem occurrencesFrom_append (before tokens more : List Token) :
    occurrencesFrom before (tokens ++ more) =
      (occurrencesFrom before tokens).map (·.extend more) ++
        occurrencesFrom (before ++ tokens) more := by
  induction tokens generalizing before with
  | nil => simp [occurrencesFrom]
  | cons token tokens ih =>
    rw [List.cons_append, occurrencesFrom, occurrencesFrom, ih, List.append_assoc,
      List.singleton_append]
    split
    · rfl
    · rfl

/-- Tokens that close no hint leave the entries before them as they are. -/
theorem map_entry_occurrences_append (before : List Token) {more : List Token}
    (h : ∀ token ∈ more.head?, ∀ kind, token.kind ≠ (hintTokens kind).2) :
    (occurrences (before ++ more)).map Occurrence.entry =
      (occurrences before).map Occurrence.entry ++
        (occurrencesFrom before more).map Occurrence.entry := by
  rw [occurrences, occurrencesFrom_append, List.map_append, List.map_map, List.nil_append]
  congr 1
  exact List.map_congr_left fun occurrence _ => occurrence.entry_extend h

/-- The entries before a token, the youngest first. -/
def seenBefore (before : List Token) : List (Int × Label) :=
  ((occurrences before).map Occurrence.entry).reverse

theorem youngest_seenBefore (depth : Int) (before : List Token) :
    youngest depth (seenBefore before) = (latestAt depth before).map Occurrence.label := by
  rw [youngest, seenBefore, latestAt, ← List.map_reverse, List.find?_map, Option.map_map]
  rfl

theorem seenBefore_eq_nil_iff (before : List Token) :
    seenBefore before = [] ↔ before.any (·.isName) = false := by
  rw [seenBefore, List.reverse_eq_nil_iff, List.map_eq_nil_iff, ← List.map_eq_nil_iff,
    map_token_occurrences]
  simp

/-- A token that is neither a name nor the end of a hint adds no entry. -/
theorem seenBefore_concat_of_ne {token : Token} (hname : token.kind ≠ .name)
    (hclose : ∀ kind, token.kind ≠ (hintTokens kind).2) (before : List Token) :
    seenBefore (before ++ [token]) = seenBefore before := by
  have hnone : occurrencesFrom before [token] = [] := by
    rw [occurrencesFrom_of_ne_name hname]
    rfl
  rw [seenBefore, map_entry_occurrences_append before (by simpa using hclose), hnone,
    List.map_nil, List.append_nil, seenBefore]

theorem seenBefore_concat_of_operator {token : Token} (h : token.kind.isOperator = true)
    (before : List Token) : seenBefore (before ++ [token]) = seenBefore before := by
  refine seenBefore_concat_of_ne ?_ (fun kind hclose => ?_) before
  · intro hname
    rw [hname] at h
    cases h
  · rw [hclose, closing_not_operator] at h
    cases h

theorem seenBefore_concat_of_opening {token : Token} {kind : Kind}
    (h : hintOf token.kind = some kind) (before : List Token) :
    seenBefore (before ++ [token]) = seenBefore before :=
  seenBefore_concat_of_ne (ne_name_of_opening h) (ne_closing_of_opening h) before

theorem seenBefore_concat_word {before : List Token} {token : Token} (hbefore : Unopened before)
    (hname : token.kind = .name) :
    seenBefore (before ++ [token]) =
      (descent before, wordLabel token.text) :: seenBefore before := by
  have hclose : ∀ kind, token.kind ≠ (hintTokens kind).2 := by
    rw [hname]
    exact name_ne_closing
  have hlabel := Occurrence.label_of_unopened hbefore token []
  rw [seenBefore, map_entry_occurrences_append before (by simpa using hclose),
    occurrencesFrom_of_name hname]
  simp only [List.map_cons, Occurrence.entry, hlabel, List.reverse_append]
  rfl

theorem seenBefore_append_hint {before : List Token} {token name close : Token} {kind : Kind}
    (hopen : hintOf token.kind = some kind) (hname : name.kind = .name)
    (hclose : close.kind = (hintTokens kind).2) :
    seenBefore (before ++ [token] ++ [name] ++ [close]) =
      (descent before, ⟨name.text, some ⟨kind, .hint⟩⟩) :: seenBefore before := by
  have hopens := ne_closing_of_opening hopen
  have hclosing : close.kind ≠ .name := by
    rw [hclose]
    exact (name_ne_closing kind).symm
  have hdepth : descent (before ++ [token]) = descent before :=
    descent_concat_of_not_operator (not_operator_of_opening hopen) before
  have hlabel : (⟨before ++ [token], name, close :: []⟩ : Occurrence).label = _ :=
    Occurrence.label_of_opened hopen hclose
  have happend : before ++ [token] ++ [name] ++ [close] = before ++ [token, name, close] := by
    simp
  rw [happend, seenBefore, map_entry_occurrences_append before (by simpa using hopens),
    occurrencesFrom_of_ne_name (ne_name_of_opening hopen), occurrencesFrom_of_name hname,
    occurrencesFrom_of_ne_name hclosing]
  simp only [List.map_cons, Occurrence.entry, hlabel, Occurrence.depth, hdepth,
    List.reverse_append]
  rfl

/-! ## From tokens to moves -/

theorem Occurrence.fits_name {occurrence : Occurrence} (h : occurrence.token.kind = .name) :
    occurrence.Fits ↔ readsAsName occurrence.label.name.toList = true ∧
      (seenBefore occurrence.before ≠ [] → occurrence.depth ≠ 0) := by
  rw [Fits, h, readsAsName_name, ne_eq (seenBefore _), seenBefore_eq_nil_iff,
    Bool.not_eq_false]

theorem Occurrence.fits_descend {occurrence : Occurrence} (h : occurrence.token.kind = .descend) :
    occurrence.Fits ↔ (∃ next ∈ occurrence.after.head?, OpensEntry next) ∧
      ∀ label ∈ youngest occurrence.depth (seenBefore occurrence.before), ¬ label.IsFile := by
  rw [Fits, h, youngest_seenBefore]
  simp [isFile_label_iff]

theorem Occurrence.fits_ascend {occurrence : Occurrence} (h : occurrence.token.kind = .ascend) :
    occurrence.Fits ↔ 1 ≤ occurrence.depth := by
  rw [Fits, h]

/-- Tokens that neither name an entry nor change the depth fit anywhere. -/
theorem Occurrence.fits_of_ne {occurrence : Occurrence} (hname : occurrence.token.kind ≠ .name)
    (hoperator : occurrence.token.kind.isOperator = false) : occurrence.Fits := by
  rw [Fits]
  split
  · contradiction
  · simp_all [TokenKind.isOperator]
  · simp_all [TokenKind.isOperator]
  · trivial

theorem forall_positionsFrom_cons {P : Occurrence → Prop} (before : List Token) (token : Token)
    (after : List Token) :
    (∀ occurrence ∈ positionsFrom before (token :: after), P occurrence) ↔
      P ⟨before, token, after⟩ ∧
        ∀ occurrence ∈ positionsFrom (before ++ [token]) after, P occurrence := by
  rw [positionsFrom, List.forall_mem_cons]

theorem opensEntry_iff (token : Token) :
    OpensEntry token ↔ token.kind = .name ∨ (hintOf token.kind).isSome = true := by
  rw [OpensEntry]
  cases token.kind <;> simp [hintOf]

/-- Tokens begin an entry if the moves that are read from them do. -/
theorem exists_opensEntry_iff {tokens : List Token} {moves : List Item} (h : Reads tokens moves) :
    (∃ first ∈ tokens.head?, OpensEntry first) ↔ startsWithEntry moves = true := by
  simp only [opensEntry_iff]
  cases h with
  | nil => simp [startsWithEntry]
  | stop hstop => simp [startsWithEntry, hstop, hintOf]
  | word hname hrest => simp [startsWithEntry, hname]
  | descend hdescend hrest => simp [startsWithEntry, hdescend, hintOf]
  | ascend hascend hrest => simp [startsWithEntry, hascend, hintOf]
  | hint hopen hname hclose hrest => simp [startsWithEntry, hopen]

/-- Tokens fit their places when the moves that are read from them follow what came before. -/
theorem fits_iff_admits {tokens : List Token} {moves : List Item} (h : Reads tokens moves)
    {before : List Token} (hbefore : Unopened before) (hend : EndsOnce tokens) :
    (∀ occurrence ∈ positionsFrom before tokens, occurrence.Fits) ↔
      Admits (seenBefore before) (descent before) moves := by
  induction h generalizing before with
  | nil => simp [positionsFrom, Admits]
  | @stop token rest hstop =>
    have hfits : (⟨before, token, rest⟩ : Occurrence).Fits :=
      Occurrence.fits_of_ne (by rw [hstop]; decide) (by rw [hstop]; rfl)
    -- Nothing follows the end of the input.
    cases rest with
    | nil => simp [positionsFrom, Admits, hfits]
    | cons next rest => exact absurd hstop (hend token List.mem_cons_self)
  | @word token rest moves place hname hrest ih =>
    have hrest := ih (Unopened.concat (by rw [hname]; rfl) before) hend.tail
    have hfits : (⟨before, token, rest⟩ : Occurrence).Fits ↔ _ := Occurrence.fits_name hname
    rw [Occurrence.label_of_unopened hbefore] at hfits
    rw [forall_positionsFrom_cons, hrest, hfits, seenBefore_concat_word hbefore hname,
      descent_concat_of_not_operator (by rw [hname]; rfl), Admits, and_assoc]
    rfl
  | @descend token rest moves place hdescend hrest ih =>
    have hnext := ih (Unopened.concat (by rw [hdescend]; rfl) before) hend.tail
    have hfits : (⟨before, token, rest⟩ : Occurrence).Fits ↔ _ := Occurrence.fits_descend hdescend
    have hseen : seenBefore (before ++ [token]) = seenBefore before :=
      seenBefore_concat_of_operator (by rw [hdescend]; rfl) before
    rw [forall_positionsFrom_cons, hnext, hfits, hseen, descent_concat, hdescend,
      exists_opensEntry_iff hrest, Admits, and_assoc]
    rfl
  | @ascend token rest moves place hascend hrest ih =>
    have hnext := ih (Unopened.concat (by rw [hascend]; rfl) before) hend.tail
    have hfits : (⟨before, token, rest⟩ : Occurrence).Fits ↔ _ := Occurrence.fits_ascend hascend
    have hseen : seenBefore (before ++ [token]) = seenBefore before :=
      seenBefore_concat_of_operator (by rw [hascend]; rfl) before
    rw [forall_positionsFrom_cons, hnext, hfits, hseen, descent_concat, hascend, Admits]
    rfl
  | @hint kind token name close rest moves place hopen hname hclose hrest ih =>
    have hclosing := closing_not_operator kind
    rw [← hclose] at hclosing
    have hnext := ih (Unopened.concat (by rw [hclose, hintOf_closing]) (before ++ [token] ++ [name]))
      hend.tail.tail.tail
    have hfits : (⟨before ++ [token], name, close :: rest⟩ : Occurrence).Fits ↔ _ :=
      Occurrence.fits_name hname
    have hopened : descent (before ++ [token]) = descent before :=
      descent_concat_of_not_operator (not_operator_of_opening hopen) before
    have hclosed : descent (before ++ [token] ++ [name] ++ [close]) = descent before := by
      rw [descent_concat_of_not_operator hclosing,
        descent_concat_of_not_operator (by rw [hname]; rfl), hopened]
    -- The brackets of the hint fit anywhere.
    have hfirst : (⟨before, token, name :: close :: rest⟩ : Occurrence).Fits :=
      Occurrence.fits_of_ne (ne_name_of_opening hopen) (not_operator_of_opening hopen)
    have hlast : (⟨before ++ [token] ++ [name], close, rest⟩ : Occurrence).Fits :=
      Occurrence.fits_of_ne (by rw [hclose]; exact (name_ne_closing kind).symm) hclosing
    rw [Occurrence.label_of_opened hopen hclose] at hfits
    simp only [Occurrence.depth, seenBefore_concat_of_opening hopen, hopened] at hfits
    rw [forall_positionsFrom_cons, forall_positionsFrom_cons, forall_positionsFrom_cons, hnext,
      hfits, seenBefore_append_hint hopen hname hclose, hclosed, Admits]
    simp only [hfirst, hlast, true_and, and_assoc]

/-! ## The tokens of a source -/

/-- The tokens of a word or an operator are read as moves, before whatever can be read. -/
theorem exists_items_append {index other : Text.LineIndex} {chunk : Chunk} {group : List Token}
    (h : chunkTokens other chunk = .ok group) {rest : List Token} {moves : List Item}
    (hrest : items index rest = .ok moves) : ∃ more, items index (group ++ rest) = .ok more := by
  cases chunk with
  | operator start c =>
    cases h
    by_cases hc : c = '>'
    · simp [items, Token.ofText, hc, hrest, Except.map]
    · simp [items, Token.ofText, hc, hrest, Except.map]
  | word start text =>
    rcases map_kind_of_wordTokens h with hkinds | ⟨kind, hkinds⟩
    · obtain ⟨token, rfl, hname⟩ := List.map_eq_singleton_iff.mp hkinds
      simp [items, hname, hrest, Except.map]
    · obtain ⟨token, _, rfl, hopen, hkinds⟩ := List.map_eq_cons_iff.mp hkinds
      obtain ⟨name, _, rfl, hname, hkinds⟩ := List.map_eq_cons_iff.mp hkinds
      obtain ⟨close, rfl, hclose⟩ := List.map_eq_singleton_iff.mp hkinds
      cases kind <;>
        simp_all only [items, hintTokens, hintOf, Except.map, List.cons_append, List.nil_append,
          ne_eq, not_true_eq_false, if_false, Except.ok.injEq, exists_eq']

/-- The tokens of a source are read as moves. -/
theorem exists_items_of_tokenize {source : List Char} {tokens : List Token}
    (h : tokenize source = .ok tokens) (index : Text.LineIndex) :
    ∃ moves, items index tokens = .ok moves := by
  obtain ⟨groups, hmap, htokens⟩ := bind_eq_ok_iff.mp h
  rw [← Except.ok.inj htokens]
  have hgroups := mapM_eq_ok_iff.mp hmap
  clear h hmap htokens
  generalize chunks 0 source = pieces at hgroups
  induction hgroups with
  | nil => exact ⟨[], rfl⟩
  | cons hgroup _ ih =>
    obtain ⟨moves, hmoves⟩ := ih
    rw [List.flatten_cons, List.append_assoc]
    exact exists_items_append hgroup hmoves

/-- What it takes for a source to have a tree, with the checks that are made at the start. -/
theorem parse_eq_ok_iff_checked {source : String} {tree : Node} :
    parse source = .ok tree ↔
      Text.allBlank source.toList = false ∧
        ∃ tokens moves outline, tokenize source.toList = .ok tokens ∧
          tokens.any (·.isName) = true ∧
          items (Text.LineIndex.ofText source.toList) tokens = .ok moves ∧
          outlineFrom .start moves = .ok outline ∧ outline.trees.head? = some tree := by
  have htree (tokens : List Token) :
      treeOfTokens (Text.LineIndex.ofText source.toList) tokens = .ok tree ↔
        tokens.any (·.isName) = true ∧ ∃ moves outline,
          items (Text.LineIndex.ofText source.toList) tokens = .ok moves ∧
            outlineFrom .start moves = .ok outline ∧ outline.trees.head? = some tree := by
    rw [treeOfTokens]
    by_cases hname : tokens.any (·.isName) = true
    · simp only [hname, Bool.not_true, Bool.false_eq_true, if_false, bind_eq_ok_iff, true_and]
      refine exists_congr fun moves => ?_
      simp only [← exists_and_left]
      refine exists_congr fun outline => and_congr_right fun _ => and_congr_right fun _ => ?_
      cases outline.trees <;> simp
    · simp [hname]
  rw [parse]
  by_cases hblank : Text.allBlank source.toList = true
  · simp [hblank]
  · simp [hblank, bind_eq_ok_iff, mapError_eq_ok_iff, htree]

/-! ## Sources that have a tree -/

theorem token_mem_of_mem_positionsFrom {before tokens : List Token} {occurrence : Occurrence}
    (h : occurrence ∈ positionsFrom before tokens) : occurrence.token ∈ tokens := by
  induction tokens generalizing before with
  | nil => cases h
  | cons token after ih =>
    rcases List.mem_cons.mp h with rfl | hafter
    · exact List.mem_cons_self
    · exact List.mem_cons_of_mem token (ih hafter)

/-- An entry at the start has a name. -/
theorem exists_name_of_reads {tokens : List Token} {moves : List Item} (h : Reads tokens moves)
    (hstarts : startsWithEntry moves = true) :
    ∃ occurrence ∈ positions tokens, occurrence.token.kind = .name := by
  cases h with
  | word hname hrest => exact ⟨_, List.mem_cons_self, hname⟩
  | hint hopen hname hclose hrest => exact ⟨_, List.mem_cons_of_mem _ List.mem_cons_self, hname⟩
  | nil | stop hstop | descend hdescend hrest | ascend hascend hrest => cases hstarts

/-- A name that fits its place is not blank. -/
theorem Occurrence.Fits.exists_not_isBlank {occurrence : Occurrence} (h : occurrence.Fits)
    (hname : occurrence.token.kind = .name) :
    ∃ c ∈ occurrence.token.text.toList, Text.isBlank c = false := by
  rw [Fits, hname] at h
  have hlegible : (Node.file (String.ofList occurrence.name)).Legible :=
    Node.legible_of_readsAsName (by simpa [Node.name] using h.1)
  obtain ⟨c, hc, hsolid⟩ := Diagram.Row.exists_not_isBlank hlegible.content_eq hlegible.label_ne
  have hc : c ∈ occurrence.name := by simpa [Node.diagramLabel] using hc
  refine ⟨c, ?_, hsolid⟩
  rw [name] at hc
  split at hc
  · exact (Text.dropEndWhile_isPrefix _ _).subset hc
  · exact hc

/-- A blank source has no sentence for its tokens. -/
theorem not_allBlank_of_sentence {source : List Char} {tokens : List Token} {moves : List Item}
    (htokens : tokenize source = .ok tokens) (hreads : Reads tokens moves) (h : Sentence tokens) :
    Text.allBlank source = false ∧ tokens.any (·.isName) = true := by
  obtain ⟨occurrence, hmem, hname⟩ :=
    exists_name_of_reads hreads ((exists_opensEntry_iff hreads).mp h.opens)
  have htoken := token_mem_of_mem_positionsFrom hmem
  obtain ⟨c, hc, hsolid⟩ := (h.fits occurrence hmem).exists_not_isBlank hname
  constructor
  · have hsource := (mem_of_mem_tokenize htokens htoken hname c hc).1
    exact List.all_eq_false.mpr ⟨c, hsource, by simp [hsolid]⟩
  · exact List.any_eq_true.mpr ⟨_, htoken, by simp [Token.isName, hname]⟩

theorem ne_nil_of_head?_trees {outline : Outline} {tree : Node}
    (h : outline.trees.head? = some tree) : outline ≠ [] := by
  rintro rfl
  cases h

/-- An outline with an entry comes from moves that start with one. -/
theorem startsWithEntry_of_outlineFrom {moves : List Item} {outline : Outline}
    (h : outlineFrom .start moves = .ok outline) (hne : outline ≠ []) :
    startsWithEntry moves = true := by
  cases runs_of_outlineFrom h with
  | done => exact absurd rfl hne
  | entry hwrite hrest => rfl
  | descend henter hrest => cases henter
  | ascend hleave hrest => cases hleave

/-- Tokens make a tree when their moves do. -/
theorem sentence_iff {tokens : List Token} {moves : List Item}
    (hreads : Reads tokens moves) (hend : EndsOnce tokens) :
    Sentence tokens ↔
      startsWithEntry moves = true ∧ ∃ outline, outlineFrom .start moves = .ok outline := by
  have hfits : (∀ occurrence ∈ positions tokens, occurrence.Fits) ↔ Admits [] 0 moves :=
    fits_iff_admits hreads rfl hend
  constructor
  · rintro ⟨hopens, hall⟩
    have hstarts := (exists_opensEntry_iff hreads).mp hopens
    exact ⟨hstarts, (exists_outlineFrom_iff (Or.inr ⟨Frames.awaits_start, hstarts⟩)).mpr
      (hfits.mp hall)⟩
  · rintro ⟨hstarts, houtline⟩
    exact ⟨(exists_opensEntry_iff hreads).mpr hstarts, hfits.mpr
      ((exists_outlineFrom_iff (Or.inr ⟨Frames.awaits_start, hstarts⟩)).mp houtline)⟩

/-- The checks at the start refuse no source that has a tree otherwise. -/
theorem parse_eq_ok_iff {source : String} {tree : Node} :
    parse source = .ok tree ↔
      ∃ tokens moves outline, tokenize source.toList = .ok tokens ∧
        items (Text.LineIndex.ofText source.toList) tokens = .ok moves ∧
        outlineFrom .start moves = .ok outline ∧ outline.trees.head? = some tree := by
  rw [parse_eq_ok_iff_checked]
  constructor
  · rintro ⟨-, tokens, moves, outline, htokens, -, hmoves, houtline, htree⟩
    exact ⟨tokens, moves, outline, htokens, hmoves, houtline, htree⟩
  · rintro ⟨tokens, moves, outline, htokens, hmoves, houtline, htree⟩
    have hreads := reads_of_items hmoves
    have hstarts := startsWithEntry_of_outlineFrom houtline (ne_nil_of_head?_trees htree)
    have hsentence := (sentence_iff hreads (endsOnce_of_tokenize htokens)).mpr
      ⟨hstarts, outline, houtline⟩
    obtain ⟨hblank, hname⟩ := not_allBlank_of_sentence htokens hreads hsentence
    exact ⟨hblank, tokens, moves, outline, htokens, hname, hmoves, houtline, htree⟩

/-- A source has a tree exactly when its tokens make one. -/
theorem exists_parse_iff (source : String) :
    (∃ tree, parse source = .ok tree) ↔
      ∃ tokens, tokenize source.toList = .ok tokens ∧ Sentence tokens := by
  constructor
  · rintro ⟨tree, h⟩
    obtain ⟨tokens, moves, outline, htokens, hmoves, houtline, htree⟩ := parse_eq_ok_iff.mp h
    refine ⟨tokens, htokens, ?_⟩
    rw [sentence_iff (reads_of_items hmoves) (endsOnce_of_tokenize htokens)]
    exact ⟨startsWithEntry_of_outlineFrom houtline (ne_nil_of_head?_trees htree), outline, houtline⟩
  · rintro ⟨tokens, htokens, hsentence⟩
    obtain ⟨moves, hmoves⟩ := exists_items_of_tokenize htokens (Text.LineIndex.ofText source.toList)
    obtain ⟨hstarts, outline, houtline⟩ :=
      (sentence_iff (reads_of_items hmoves) (endsOnce_of_tokenize htokens)).mp hsentence
    cases runs_of_outlineFrom houtline with
    | entry hwrite hrest =>
      exact ⟨_, parse_eq_ok_iff.mpr ⟨tokens, _, _, htokens, hmoves, houtline, rfl⟩⟩
    | done => cases hstarts
    | descend henter hrest => cases hstarts
    | ascend hleave hrest => cases hstarts

end TreeSketch.Declarative
