import TreeSketch.Proofs.Declarative.Frames
import TreeSketch.Proofs.Declarative.Words

/-!
# Names and depths

The tree of a declarative source can be read off its tokens, without any state: every name is an entry, in
order; its depth is the number of `>` before it less the number of `|` before it; and what it is follows
from its text, from the hint around it and from the entries below it (`forall₂_shows_walk`).

The proof goes from the tokens to the moves that `items` groups them into, which `Reads` states rule by rule
(`entries_eq_occurrences`), and from the moves to the outline (`map_eq_entries`).
-/

namespace TreeSketch.Declarative

open Diagram (readsAsName)

/-! ## Occurrences -/

/-- A name where it occurs among the tokens of a source. -/
structure Occurrence where
  before : List Token
  token : Token
  after : List Token
deriving Repr, DecidableEq

/-- The names among tokens, in order, when `before` comes before the first token. -/
def occurrencesFrom (before : List Token) : List Token → List Occurrence
  | [] => []
  | token :: after =>
    let rest := occurrencesFrom (before ++ [token]) after
    if token.isName then ⟨before, token, after⟩ :: rest else rest

/-- The names of a source, in order. -/
def occurrences (tokens : List Token) : List Occurrence :=
  occurrencesFrom [] tokens

/-- How many levels down the tokens lead. -/
def descent (tokens : List Token) : Int :=
  tokens.countP (·.kind = .descend) - tokens.countP (·.kind = .ascend)

namespace Occurrence

/-- The depth of the entry. -/
def depth (occurrence : Occurrence) : Int :=
  descent occurrence.before

/-- The kind that the name is hinted to be: it stands between the opening and the closing of a hint. -/
def hint (occurrence : Occurrence) : Option Kind :=
  (occurrence.before.getLast?.bind fun token => hintOf token.kind).filter fun kind =>
    occurrence.after.head?.map (·.kind) = some (hintTokens kind).2

/-- What the source says about the entry. -/
def label (occurrence : Occurrence) : Label :=
  match occurrence.hint with
  | some kind => ⟨occurrence.token.text, some ⟨kind, .hint⟩⟩
  | none => wordLabel occurrence.token.text

/-- The entry is what the name says, at the depth of the name. -/
structure Shows (occurrence : Occurrence) (shown : Nat × Node) : Prop where
  depth_eq : (shown.1 : Int) = occurrence.depth
  name_eq : shown.2.name.toList =
    if occurrence.hint = none then Text.dropEndWhile (· = '/') occurrence.token.text.toList
    else occurrence.token.text.toList
  isDirectory_iff : shown.2.kind = .directory ↔
    occurrence.hint = some .directory ∨
      occurrence.hint = none ∧ occurrence.token.text.toList.getLast? = some '/' ∨
      shown.2.children ≠ []
  /-- A name in `f(..)` is a file. -/
  isFile : occurrence.hint = some .file → shown.2.kind = .file ∧ shown.2.children = []

end Occurrence

theorem map_token_occurrencesFrom (before tokens : List Token) :
    (occurrencesFrom before tokens).map (·.token) = tokens.filter (·.isName) := by
  induction tokens generalizing before with
  | nil => rfl
  | cons token after ih =>
    rw [occurrencesFrom, List.filter_cons]
    split
    · rw [List.map_cons, ih]
    · exact ih _

/-- The names occur once each and in order. -/
theorem map_token_occurrences (tokens : List Token) :
    (occurrences tokens).map (·.token) = tokens.filter (·.isName) :=
  map_token_occurrencesFrom [] tokens

theorem descent_concat (tokens : List Token) (token : Token) :
    descent (tokens ++ [token]) =
      descent tokens + if token.kind = .descend then 1 else if token.kind = .ascend then -1 else 0 := by
  rw [descent, descent, List.countP_append, List.countP_append, List.countP_singleton,
    List.countP_singleton]
  cases token.kind <;> simp <;> omega

theorem descent_concat_of_not_operator {token : Token} (h : token.kind.isOperator = false)
    (tokens : List Token) : descent (tokens ++ [token]) = descent tokens := by
  rw [descent_concat, if_neg, if_neg, Int.add_zero] <;> intro hkind <;> rw [hkind] at h <;> cases h

/-! ## From tokens to moves -/

/-- The rules by which tokens are grouped into moves. -/
inductive Reads : List Token → List Item → Prop
  | nil : Reads [] []
  | stop {token : Token} {rest : List Token} (h : token.kind = .endOfInput) :
    Reads (token :: rest) []
  | word {token : Token} {rest : List Token} {moves : List Item} {place : Place}
    (h : token.kind = .name) (hrest : Reads rest moves) :
    Reads (token :: rest) (.entry (wordLabel token.text) place :: moves)
  | descend {token : Token} {rest : List Token} {moves : List Item} {place : Place}
    (h : token.kind = .descend) (hrest : Reads rest moves) :
    Reads (token :: rest) (.descend place :: moves)
  | ascend {token : Token} {rest : List Token} {moves : List Item} {place : Place}
    (h : token.kind = .ascend) (hrest : Reads rest moves) :
    Reads (token :: rest) (.ascend place :: moves)
  | hint {kind : Kind} {token name close : Token} {rest : List Token} {moves : List Item}
    {place : Place} (hopen : hintOf token.kind = some kind) (hname : name.kind = .name)
    (hclose : close.kind = (hintTokens kind).2) (hrest : Reads rest moves) :
    Reads (token :: name :: close :: rest)
      (.entry ⟨name.text, some ⟨kind, .hint⟩⟩ place :: moves)

theorem reads_of_items {index : Text.LineIndex} {tokens : List Token} {moves : List Item}
    (h : items index tokens = .ok moves) : Reads tokens moves := by
  fun_induction items index tokens generalizing moves
  case case1 =>
    cases h
    exact .nil
  case case2 token rest hstop =>
    cases h
    exact .stop hstop
  case case3 token rest place hname ih =>
    obtain ⟨more, hmore, rfl⟩ := map_eq_ok_iff.mp h
    exact .word hname (ih hmore)
  case case4 token rest place hdescend ih =>
    obtain ⟨more, hmore, rfl⟩ := map_eq_ok_iff.mp h
    exact .descend hdescend (ih hmore)
  case case5 token rest place hascend ih =>
    obtain ⟨more, hmore, rfl⟩ := map_eq_ok_iff.mp h
    exact .ascend hascend (ih hmore)
  case case8 hname hclose _ _ _ _ _ hopen ih =>
    obtain ⟨more, hmore, rfl⟩ := map_eq_ok_iff.mp h
    exact .hint hopen (Decidable.not_not.mp hname) (Decidable.not_not.mp hclose) (ih hmore)
  case case6 | case7 | case9 | case10 | case11 | case12 => cases h

/-- The entries of moves with their depths, when the first move starts at the depth `depth`. -/
def entries (depth : Int) : List Item → List (Int × Label)
  | [] => []
  | .entry label _ :: rest => (depth, label) :: entries depth rest
  | .descend _ :: rest => entries (depth + 1) rest
  | .ascend _ :: rest => entries (depth - 1) rest

theorem hintOf_eq_some {kind : TokenKind} {hinted : Kind} (h : hintOf kind = some hinted) :
    kind = (hintTokens hinted).1 := by
  cases kind <;> cases h <;> rfl

theorem hintOf_closing (kind : Kind) : hintOf (hintTokens kind).2 = none := by
  cases kind <;> rfl

theorem occurrencesFrom_of_name {token : Token} (h : token.kind = .name)
    (before after : List Token) :
    occurrencesFrom before (token :: after) =
      ⟨before, token, after⟩ :: occurrencesFrom (before ++ [token]) after := by
  rw [occurrencesFrom]
  exact if_pos (decide_eq_true h)

theorem occurrencesFrom_of_ne_name {token : Token} (h : token.kind ≠ .name)
    (before after : List Token) :
    occurrencesFrom before (token :: after) = occurrencesFrom (before ++ [token]) after := by
  rw [occurrencesFrom]
  exact if_neg (by simpa [Token.isName] using h)

/-- The last of the tokens does not open a hint. -/
def Unopened (before : List Token) : Prop :=
  before.getLast?.bind (fun token => hintOf token.kind) = none

theorem Unopened.concat {token : Token} (h : hintOf token.kind = none) (before : List Token) :
    Unopened (before ++ [token]) := by
  rw [Unopened, List.getLast?_concat]
  exact h

theorem Occurrence.label_of_unopened {before : List Token} (h : Unopened before)
    (token : Token) (after : List Token) :
    (⟨before, token, after⟩ : Occurrence).label = wordLabel token.text := by
  rw [label, hint, h, Option.filter_none]

theorem Occurrence.label_of_opened {before rest : List Token} {token name close : Token}
    {kind : Kind} (hopen : hintOf token.kind = some kind) (hclose : close.kind = (hintTokens kind).2) :
    (⟨before ++ [token], name, close :: rest⟩ : Occurrence).label =
      ⟨name.text, some ⟨kind, .hint⟩⟩ := by
  rw [label, hint, List.getLast?_concat, Option.bind_some, hopen, List.head?_cons, Option.map_some,
    Option.filter_some, hclose, if_pos (decide_eq_true rfl)]

/-- Only the last token may end the input. -/
def EndsOnce (tokens : List Token) : Prop :=
  ∀ token ∈ tokens.dropLast, token.kind ≠ .endOfInput

theorem EndsOnce.tail {token : Token} {rest : List Token} (h : EndsOnce (token :: rest)) :
    EndsOnce rest := by
  intro other hother
  cases rest with
  | nil => cases hother
  | cons next rest => exact h other (List.mem_cons_of_mem token hother)

/-- Moves that are read from tokens have the entries that the names among the tokens say. -/
theorem entries_eq_occurrences {tokens : List Token} {moves : List Item} (h : Reads tokens moves)
    {before : List Token} (hbefore : Unopened before) (hend : EndsOnce tokens) :
    entries (descent before) moves =
      (occurrencesFrom before tokens).map fun occurrence => (occurrence.depth, occurrence.label) := by
  induction h generalizing before with
  | nil => rfl
  | @stop token rest hstop =>
    -- Nothing follows the end of the input.
    cases rest with
    | nil =>
      rw [occurrencesFrom_of_ne_name (by rw [hstop]; decide)]
      rfl
    | cons next rest => exact absurd hstop (hend token List.mem_cons_self)
  | @word token rest moves place hname hrest ih =>
    have hrest := ih (Unopened.concat (by rw [hname]; rfl) before) hend.tail
    rw [descent_concat_of_not_operator (by rw [hname]; rfl)] at hrest
    rw [entries, occurrencesFrom_of_name hname, List.map_cons, ← hrest,
      Occurrence.label_of_unopened hbefore]
    rfl
  | @descend token rest moves place hdescend hrest ih =>
    have hrest := ih (Unopened.concat (by rw [hdescend]; rfl) before) hend.tail
    rw [descent_concat, hdescend] at hrest
    rw [entries, occurrencesFrom_of_ne_name (by rw [hdescend]; decide), ← hrest]
    rfl
  | @ascend token rest moves place hascend hrest ih =>
    have hrest := ih (Unopened.concat (by rw [hascend]; rfl) before) hend.tail
    rw [descent_concat, hascend] at hrest
    rw [entries, occurrencesFrom_of_ne_name (by rw [hascend]; decide), ← hrest]
    rfl
  | @hint kind token name close rest moves place hopen hname hclose hrest ih =>
    have hrest := ih (Unopened.concat (by rw [hclose, hintOf_closing]) (before ++ [token] ++ [name]))
      hend.tail.tail.tail
    have htoken := hintOf_eq_some hopen
    have hopened : descent (before ++ [token]) = descent before :=
      descent_concat_of_not_operator (by rw [htoken]; cases kind <;> rfl) before
    have hlevel : descent (before ++ [token] ++ [name] ++ [close]) = descent before := by
      rw [descent_concat_of_not_operator (by rw [hclose]; cases kind <;> rfl),
        descent_concat_of_not_operator (by rw [hname]; rfl), hopened]
    rw [hlevel] at hrest
    rw [entries, occurrencesFrom_of_ne_name (by rw [htoken]; cases kind <;> decide),
      occurrencesFrom_of_name hname,
      occurrencesFrom_of_ne_name (by rw [hclose]; cases kind <;> decide), List.map_cons, ← hrest,
      Occurrence.label_of_opened hopen hclose, Occurrence.depth, hopened]

/-! ## From moves to the tree -/

/-- The frames keep count of the levels. -/
theorem map_eq_entries {frames : Frames} {moves : List Item} {outline : Outline}
    (h : Runs frames moves outline) :
    outline.map (fun entry => ((entry.1 : Int), entry.2)) = entries frames.depth moves := by
  induction h with
  | done => rfl
  | entry hwrite hrest ih =>
    obtain ⟨-, -, rfl⟩ := Frames.write_eq_ok hwrite
    rw [List.map_cons, ih]
    rfl
  | descend henter hrest ih =>
    obtain ⟨label, -, -, rfl⟩ := Frames.enter_eq_ok henter
    rw [ih]
    rfl
  | @ascend frames next place rest outline hleave hrest ih =>
    have hdepth : (frames.depth : Int) - 1 = next.depth := by
      rw [Frames.depth, Frames.leave_eq_ok hleave, List.length_cons, Frames.depth]
      omega
    rw [ih, entries, hdepth]

/-- No token of a word or an operator ends the input. -/
theorem kind_ne_of_chunkTokens {index : Text.LineIndex} {chunk : Chunk} {tokens : List Token}
    (h : chunkTokens index chunk = .ok tokens) : ∀ token ∈ tokens, token.kind ≠ .endOfInput := by
  suffices hkinds : .endOfInput ∉ tokens.map (·.kind) from
    fun token htoken hkind => hkinds (hkind ▸ List.mem_map_of_mem htoken)
  cases chunk with
  | operator start c =>
    cases h
    rw [List.map_singleton, List.mem_singleton, Token.ofText]
    intro hkind
    split at hkind <;> cases hkind
  | word start text =>
    rcases map_kind_of_wordTokens h with hkinds | ⟨kind, hkinds⟩ <;> rw [hkinds]
    · decide
    · cases kind <;> decide

theorem endsOnce_of_tokenize {source : List Char} {tokens : List Token}
    (h : tokenize source = .ok tokens) : EndsOnce tokens := by
  rw [tokenize] at h
  obtain ⟨pieces, hpieces, h⟩ := bind_eq_ok_iff.mp h
  cases h
  rw [EndsOnce, List.dropLast_concat]
  intro token htoken
  obtain ⟨piece, hpiece, htoken⟩ := List.mem_flatten.mp htoken
  obtain ⟨chunk, -, hchunk⟩ := exists_mem_of_forall₂ (mapM_eq_ok_iff.mp hpieces) hpiece
  exact kind_ne_of_chunkTokens hchunk token htoken

/-! ## What an entry is -/

/-- A name that comes back does not end in a slash. -/
theorem getLast?_ne_slash_of_readsAsName {name : String} (h : readsAsName name.toList = true) :
    name.toList.getLast? ≠ some '/' := by
  have hlegible : (Node.file name).Legible := Node.legible_of_readsAsName h
  exact hlegible.getLast?_name_ne_slash

/-- A word under a name that comes back: the name is the word without slashes at its end, and slashes say that
it is a directory. -/
theorem wordLabel_of_readsAsName {word : String}
    (h : readsAsName (wordLabel word).name.toList = true) :
    (wordLabel word).name.toList = Text.dropEndWhile (· = '/') word.toList ∧
      (wordLabel word).fixed =
        if word.toList.getLast? = some '/' then some ⟨.directory, .marker⟩ else none := by
  have hlast := getLast?_ne_slash_of_readsAsName h
  rw [wordLabel] at hlast ⊢
  by_cases hslash : word.toList.getLast? = some '/'
  · -- The word loses its slashes, or it would be its own name.
    split at hlast
    · exact absurd hslash hlast
    · rename_i hname
      simp only [if_neg hname, if_pos hslash, String.toList_ofList, and_self]
  · have hdrop : Text.dropEndWhile (· = '/') word.toList = word.toList := by
      refine Text.dropEndWhile_eq_self fun c hc => decide_eq_false ?_
      rintro rfl
      exact hslash hc
    rw [if_neg hslash]
    simp only [hdrop, decide_true, Bool.or_true, if_true, and_self]

/-- An entry that is closed under the label of an occurrence is what the occurrence says. -/
theorem Occurrence.shows_of_close {occurrence : Occurrence} {shown : Nat × Node}
    (hdepth : (shown.1 : Int) = occurrence.depth)
    (hreads : readsAsName occurrence.label.name.toList = true)
    (hclose : occurrence.label.close shown.2.children = shown.2) : occurrence.Shows shown := by
  have hname : shown.2.name = occurrence.label.name := by
    rw [← hclose, Label.name_close]
  have hkind : shown.2.kind = (occurrence.label.verdict shown.2.children).kind := by
    rw [← Label.kind_close, hclose]
  cases hhint : occurrence.hint with
  | some kind =>
    have hlabel : occurrence.label = ⟨occurrence.token.text, some ⟨kind, .hint⟩⟩ := by
      rw [label, hhint]
    rw [hlabel] at hname hkind
    have hkind : shown.2.kind = kind := hkind
    refine ⟨hdepth, ?_, ?_, ?_⟩
    · rw [hhint, if_neg (Option.some_ne_none kind), hname]
    · rw [hhint, hkind]
      constructor
      · rintro rfl
        exact Or.inl rfl
      · rintro (hsame | ⟨hnone, -⟩ | hchildren)
        · exact Option.some.inj hsame
        · cases hnone
        · rw [← hkind]
          exact Node.kind_of_children_ne_nil hchildren
    · intro hfile
      obtain rfl : kind = .file := Option.some.inj (hhint.symm.trans hfile)
      refine ⟨hkind, ?_⟩
      by_contra hchildren
      rw [Node.kind_of_children_ne_nil hchildren] at hkind
      cases hkind
  | none =>
    have hlabel : occurrence.label = wordLabel occurrence.token.text := by
      rw [label, hhint]
    rw [hlabel] at hreads hname hkind
    obtain ⟨htrimmed, hfixed⟩ := wordLabel_of_readsAsName hreads
    refine ⟨hdepth, ?_, ?_, ?_⟩
    · rw [hhint, if_pos rfl, hname, htrimmed]
    · rw [Label.verdict, hfixed] at hkind
      by_cases hslash : occurrence.token.text.toList.getLast? = some '/'
      · rw [if_pos hslash] at hkind
        exact ⟨fun _ => Or.inr (Or.inl ⟨hhint, hslash⟩), fun _ => hkind⟩
      · rw [if_neg hslash, Option.getD_none, Verdict.infer_kind] at hkind
        constructor
        · intro hdirectory
          refine Or.inr (Or.inr fun hnil => ?_)
          rw [hkind, hnil] at hdirectory
          cases hdirectory
        · rintro (hsome | ⟨-, hlast⟩ | hchildren)
          · rw [hhint] at hsome
            cases hsome
          · exact absurd hlast hslash
          · exact Node.kind_of_children_ne_nil hchildren
    · intro hfile
      rw [hhint] at hfile
      cases hfile

/-- The names of a source and the entries of its tree, one by one: each entry is what its name becomes at its
depth. -/
theorem forall₂_close_walk {source : String} {tree : Node} (h : parse source = .ok tree) :
    ∃ tokens, tokenize source.toList = .ok tokens ∧
      List.Forall₂ (fun occurrence shown => (shown.1 : Int) = occurrence.depth ∧
        readsAsName occurrence.label.name.toList = true ∧
        occurrence.label.close shown.2.children = shown.2) (occurrences tokens) tree.walk := by
  obtain ⟨tokens, moves, outline, htokens, hmoves, hruns, hshows⟩ := exists_outline_of_parse h
  refine ⟨tokens, htokens, ?_⟩
  have hentries : outline.map (fun entry => ((entry.1 : Int), entry.2)) =
      (occurrences tokens).map fun occurrence => (occurrence.depth, occurrence.label) := by
    have hunopened : Unopened [] := rfl
    rw [map_eq_entries hruns]
    exact entries_eq_occurrences (reads_of_items hmoves) hunopened (endsOnce_of_tokenize htokens)
  have hshown : List.Forall₂ (fun (entry : Int × Label) (shown : Nat × Node) =>
      (shown.1 : Int) = entry.1 ∧ readsAsName entry.2.name.toList = true ∧
        entry.2.close shown.2.children = shown.2)
      (outline.map fun entry => ((entry.1 : Int), entry.2)) tree.walk := by
    refine List.forall₂_map_left_iff.mpr ?_
    have hreads := (List.forall₂_and_left _ _).mpr ⟨hruns.readsAsName, hshows⟩
    exact hreads.imp fun entry shown hentry => ⟨by rw [hentry.2.1], hentry.1, hentry.2.2⟩
  rw [hentries] at hshown
  exact List.forall₂_map_left_iff.mp hshown

/-- The walk of the tree of a declarative source visits the names of the source, in order and once each. -/
theorem forall₂_shows_walk {source : String} {tree : Node} (h : parse source = .ok tree) :
    ∃ tokens, tokenize source.toList = .ok tokens ∧
      List.Forall₂ Occurrence.Shows (occurrences tokens) tree.walk := by
  obtain ⟨tokens, htokens, hshown⟩ := forall₂_close_walk h
  refine ⟨tokens, htokens, hshown.imp fun occurrence shown hoccurrence => ?_⟩
  exact Occurrence.shows_of_close hoccurrence.1 hoccurrence.2.1 hoccurrence.2.2

/-- Both hints, slashes behind a name, and a second way down. -/
theorem forall₂_shows_walk_project :
    ∃ tokens, tokenize "app > d(src) > f(a) b// | doc > c".toList = .ok tokens ∧
      List.Forall₂ Occurrence.Shows (occurrences tokens)
        (Node.directory "app" [.directory "src" [.file "a", .directory "b" []],
          .directory "doc" [.file "c"]]).walk :=
  forall₂_shows_walk (show parse "app > d(src) > f(a) b// | doc > c" = _ by decide +kernel)

end TreeSketch.Declarative
