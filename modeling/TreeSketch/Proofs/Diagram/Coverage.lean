import TreeSketch.Proofs.Checked.Blocks
import TreeSketch.Proofs.Diagram.Reading
import TreeSketch.Proofs.Span
import TreeSketch.Proofs.Text.Numbering

/-!
# Diagram tokens line by line

The tokens of a diagram are the tokens of its lines and a mark of the end (`tokenize_eq_flatMap`). Of a line
three things are said.

* Its tokens are a separator, or the end of the line behind a margin, a name and slashes, as far as these are
  there (`LineKinds`).
* They lie inside the line, one behind the other (`inOrder_tokens`).
* Each spans what it stands for (`standsFor_of_mem_tokens`).

So the parser can go by the spans and count the newlines: what it cuts out of the source for a token is the
token's text, and each entry has the number of the line that its name stands on (`tokenize_lines`).
-/

namespace TreeSketch.Diagram

open Text (HasAt)
open TreeSketch.Checked (lift slice_of_hasAt)

/-! ## The tokens of one line -/

/-- The kinds of the tokens of an entry behind its margin. -/
inductive EntryKinds : List TokenKind → Prop where
  | none : EntryKinds []
  | name : EntryKinds [.name]
  | marked : EntryKinds [.name, .slash]

/-- The kinds of the tokens of a line. -/
inductive LineKinds : List TokenKind → Prop where
  | separator : LineKinds [.blankLine]
  | bare {kinds : List TokenKind} (h : EntryKinds kinds) : LineKinds (kinds ++ [.newline])
  | behindMargin {kinds : List TokenKind} (h : EntryKinds kinds) :
      LineKinds (.margin :: (kinds ++ [.newline]))

/-- The token spans what it stands for: a margin and a name span their texts, and the token of slashes spans
one or more of them. -/
def StandsFor (source : List Char) (token : Token) : Prop :=
  ∃ piece, token.Spans source piece ∧
    (token.kind = .margin ∨ token.kind = .name → token.text.toList = piece) ∧
    (token.kind = .slash → piece ≠ [] ∧ ∀ c ∈ piece, c = '/')

theorem standsFor_ofText {source piece : List Char} {offset : Nat} (h : HasAt source offset piece)
    {kind : TokenKind} (hkind : kind ≠ .slash) : StandsFor source (.ofText kind piece offset) :=
  ⟨piece, Token.spans_ofText h kind, fun _ => Token.toList_text_ofText kind piece offset,
    fun hslash => absurd hslash hkind⟩

/-- A token of another kind stands for whatever it spans. -/
theorem standsFor_of_spans {source piece : List Char} {token : Token} (h : token.Spans source piece)
    (htext : ¬ (token.kind = .margin ∨ token.kind = .name)) (hslash : token.kind ≠ .slash) :
    StandsFor source token :=
  ⟨piece, h, fun hkind => absurd hkind htext, fun hkind => absurd hkind hslash⟩

/-- A mark spans nothing, behind what stands before it. -/
theorem standsFor_mark {source piece : List Char} {offset : Nat} (h : HasAt source offset piece)
    (kind : TokenKind) (htext : ¬ (kind = .margin ∨ kind = .name)) (hslash : kind ≠ .slash) :
    StandsFor source (.mark kind (offset + Text.byteSize piece)) := by
  have hend : HasAt source (offset + Text.byteSize piece) [] :=
    HasAt.right (by rwa [List.append_nil])
  exact standsFor_of_spans ⟨hend, rfl⟩ htext hslash

/-- The tokens of a numbered line. -/
def tokensOfLine (line : Text.Line) : List Token :=
  (Row.ofLine line.content).tokens line.start (Text.byteSize line.content)

namespace Row

theorem map_kind_tokens_entry (margin name : List Char) (slashes start width : Nat) :
    ((entry margin name slashes).tokens start width).map (·.kind) =
      (if margin = [] then [] else [.margin]) ++
        ((if name = [] then [] else if slashes = 0 then [.name] else [.name, .slash]) ++
          [.newline]) := by
  by_cases hmargin : margin = [] <;> by_cases hname : name = [] <;> by_cases hslashes : slashes = 0 <;>
    simp [tokens, Token.ofText, Token.mark, hmargin, hname, hslashes]

theorem lineKinds_tokens (row : Row) (start width : Nat) :
    LineKinds ((row.tokens start width).map (·.kind)) := by
  cases row with
  | blank => exact .separator
  | entry margin name slashes =>
    have hentry : EntryKinds
        (if name = [] then [] else if slashes = 0 then [.name] else [.name, .slash]) := by
      split
      · exact .none
      · split
        · exact .name
        · exact .marked
    rw [map_kind_tokens_entry]
    split
    · exact .bare hentry
    · exact .behindMargin hentry

/-- The tokens of a line lie inside it, one behind the other. -/
theorem inOrder_tokens (content : List Char) (start : Nat) :
    Token.InOrder start (start + Text.byteSize content)
      ((ofLine content).tokens start (Text.byteSize content)) := by
  cases hrow : ofLine content with
  | blank => exact ⟨Nat.le_refl _, Nat.le_add_right _ _, Nat.le_refl _⟩
  | entry margin name slashes =>
    obtain ⟨after, hafter⟩ := isPrefix_of_ofLine hrow
    have hsize := congrArg Text.byteSize hafter
    simp only [Text.byteSize_append, Text.byteSize_slashes] at hsize
    have hend : start + Text.byteSize margin + Text.byteSize name + slashes ≤
        start + Text.byteSize content := by omega
    rw [tokens]
    exact Token.InOrder.append (Token.InOrder.append (Token.InOrder.append
      (.optional (Nat.le_refl _) (Nat.le_add_right _ _) (Nat.le_refl _))
      (.optional (Nat.le_refl _) (Nat.le_add_right _ _) (Nat.le_refl _)))
      (.optional (Nat.le_refl _) (Nat.le_add_right _ _) (Nat.le_refl _)))
      ⟨hend, Nat.le_refl _, Nat.le_refl _⟩

theorem mem_tokens_entry {margin name : List Char} {slashes start width : Nat} {token : Token} :
    token ∈ (entry margin name slashes).tokens start width ↔
      (margin ≠ [] ∧ token = .ofText .margin margin start) ∨
      (name ≠ [] ∧ token = .ofText .name name (start + Text.byteSize margin)) ∨
      (name ≠ [] ∧ slashes ≠ 0 ∧
        token = ⟨.slash, "/", start + Text.byteSize margin + Text.byteSize name,
          start + Text.byteSize margin + Text.byteSize name + slashes⟩) ∨
      token = .mark .newline (start + width) := by
  simp [tokens, and_assoc]

/-- The tokens of a line that stands in the source span what they stand for. -/
theorem standsFor_of_mem_tokens {source content : List Char} {start : Nat}
    (h : HasAt source start content) :
    ∀ token ∈ (ofLine content).tokens start (Text.byteSize content), StandsFor source token := by
  intro token htoken
  cases hrow : ofLine content with
  | blank =>
    rw [hrow, tokens, List.mem_singleton] at htoken
    subst htoken
    have hspans : Token.Spans source content ⟨.blankLine, "", start, start + Text.byteSize content⟩ :=
      ⟨h, rfl⟩
    exact standsFor_of_spans hspans (by simp) (by simp)
  | entry margin name slashes =>
    have hparts := h.left_of_isPrefix (isPrefix_of_ofLine hrow)
    rw [hrow, mem_tokens_entry] at htoken
    rcases htoken with ⟨-, rfl⟩ | ⟨-, rfl⟩ | ⟨-, hslashes, rfl⟩ | rfl
    · exact standsFor_ofText hparts.left (by decide)
    · exact standsFor_ofText hparts.right.left (by decide)
    · refine ⟨List.replicate slashes '/', ⟨hparts.right.right, by rw [Text.byteSize_slashes]⟩,
        fun hkind => absurd hkind (by simp), fun _ => ?_⟩
      exact ⟨by simpa using hslashes, fun c hc => List.eq_of_mem_replicate hc⟩
    · exact standsFor_mark h .newline (by decide) (by decide)

end Row

/-! ## The tokens of a source -/

theorem tokensFrom_eq_flatMap (number start : Nat) (raws : List (List Char)) :
    tokensFrom start raws = (Text.linesFrom number start raws).flatMap tokensOfLine := by
  induction raws generalizing number start with
  | nil => rfl
  | cons raw rest ih =>
    rw [tokensFrom, ih (number + 1), Text.linesFrom, List.flatMap_cons]
    rfl

/-- The tokens of a diagram are those of its lines, and a mark of the end. -/
theorem tokenize_eq_flatMap (source : List Char) :
    tokenize source = (Text.lines source).flatMap tokensOfLine ++
      [Token.mark .endOfInput (Text.byteSize source)] := by
  rw [tokenize, tokensFrom_eq_flatMap 1, Text.lines]

theorem inOrder_tokensOfLine (line : Text.Line) :
    Token.InOrder line.start line.stop (tokensOfLine line) :=
  Row.inOrder_tokens line.content line.start

/-- No two tokens of a diagram overlap, and none starts before an earlier one. -/
theorem pairwise_tokenize (source : List Char) :
    (tokenize source).Pairwise fun token next =>
      token.start ≤ next.start ∧ token.stop ≤ next.start := by
  rw [tokenize_eq_flatMap, List.pairwise_append, List.pairwise_flatMap]
  refine ⟨⟨fun line _ => (inOrder_tokensOfLine line).pairwise, ?_⟩, List.pairwise_singleton _ _, ?_⟩
  · refine (Text.pairwise_lines source).imp fun {line next} hlines token htoken later hlater => ?_
    have htoken := (inOrder_tokensOfLine line).bounds token htoken
    have hlater := (inOrder_tokensOfLine next).bounds later hlater
    omega
  · intro token htoken last hlast
    obtain rfl := List.mem_singleton.mp hlast
    obtain ⟨line, hline, htoken⟩ := List.mem_flatMap.mp htoken
    have htoken := (inOrder_tokensOfLine line).bounds token htoken
    have hline := (Text.standsIn_of_mem_lines hline).hasAt.add_byteSize_le
    show token.start ≤ Text.byteSize source ∧ token.stop ≤ Text.byteSize source
    rw [Text.Line.stop] at htoken
    omega

theorem standsFor_of_mem_tokenize {source : List Char} :
    ∀ token ∈ tokenize source, StandsFor source token := by
  intro token htoken
  rw [tokenize_eq_flatMap, List.mem_append, List.mem_flatMap, List.mem_singleton] at htoken
  rcases htoken with ⟨line, hline, htoken⟩ | rfl
  · exact Row.standsFor_of_mem_tokens (Text.standsIn_of_mem_lines hline).hasAt token htoken
  · have hend := standsFor_mark (HasAt.self source) .endOfInput (by decide) (by decide)
    rwa [Nat.zero_add] at hend

/-- What is cut out of the source for a margin or a name is the text of the token. -/
theorem textOf_of_standsFor {source : List Char} {token : Token} (h : StandsFor source token)
    (hkind : token.kind = .margin ∨ token.kind = .name) :
    Checked.textOf source token = .ok token.text.toList := by
  obtain ⟨piece, ⟨hat, hstop⟩, htext, -⟩ := h
  rw [htext hkind]
  exact slice_of_hasAt hat hstop

/-! ## Entries -/

namespace Entry

/-- The entry that the tokens of a line make, if one of them is a name. -/
def ofTokens? (number : Nat) (tokens : List Token) : Option Entry :=
  (tokens.find? (·.isName)).map fun name =>
    { line := number
      margin := ((tokens.find? (·.kind = .margin)).map (·.text.toList)).getD []
      name := name.text
      marked := tokens.any (·.kind = .slash) }

theorem ofTokens?_blank (number start width : Nat) :
    ofTokens? number (Row.blank.tokens start width) = none := rfl

theorem ofTokens?_entry (number start width : Nat) (margin name : List Char) (slashes : Nat) :
    ofTokens? number ((Row.entry margin name slashes).tokens start width) =
      if name = [] then none else some ⟨number, margin, String.ofList name, slashes ≠ 0⟩ := by
  by_cases hmargin : margin = [] <;> by_cases hname : name = [] <;> by_cases hslashes : slashes = 0 <;>
    simp [ofTokens?, Row.tokens, Token.ofText, Token.mark, Token.isName, hmargin, hname, hslashes]

end Entry

theorem flatten_splitBlocks (number start : Nat) (raws : List (List Char)) :
    let rows := (raws.map Text.dropReturn).map Row.ofLine
    (splitBlocks number rows).1 ++ (splitBlocks number rows).2.flatten =
      (Text.linesFrom number start raws).filterMap fun line =>
        Entry.ofTokens? line.number (tokensOfLine line) := by
  induction raws generalizing number start with
  | nil => rfl
  | cons raw rest ih =>
    have ih := ih (number + 1) (start + Text.byteSize raw + 1)
    simp only [] at ih ⊢
    rw [Text.linesFrom, List.filterMap_cons, ← ih, List.map_cons, List.map_cons, tokensOfLine]
    cases Row.ofLine (Text.dropReturn raw) with
    | blank => rw [Entry.ofTokens?_blank, splitBlocks, List.nil_append, flatten_consBlock]
    | entry margin name slashes =>
      rw [Entry.ofTokens?_entry, splitBlocks]
      by_cases hname : name = [] <;> simp [hname]

/-- The entries of a diagram are those of its numbered lines. -/
theorem flatten_readBlocks {source : List Char} {blocks : List (List Entry)}
    (h : readBlocks source = .ok blocks) :
    blocks.flatten = (Text.lines source).filterMap fun line =>
      Entry.ofTokens? line.number (tokensOfLine line) := by
  rw [eq_blocksOf_of_readBlocks h, blocksOf, flatten_consBlock]
  exact flatten_splitBlocks 1 0 (Text.rawLines source)

/-! ## Lines, tokens and entries -/

/-- The tokens of a diagram cover it line by line.

* They are the tokens of the lines in order and a mark of the end. A line has a separator, or as much of a
  margin, a name and slashes as there is and the end of the line; they lie inside the line.
* They do not overlap, they are in order, and what each spans in the source is what it stands for. So the cuts
  that the parser makes give the texts of the tokens.
* The parser has an entry for each line with a name, under the number of that line. -/
theorem tokenize_lines (source : List Char) :
    tokenize source = (Text.lines source).flatMap tokensOfLine ++
        [Token.mark .endOfInput (Text.byteSize source)] ∧
      (Text.lines source).map (·.content) = Text.bareLines source ∧
      (∀ line ∈ Text.lines source, line.StandsIn source ∧
        LineKinds ((tokensOfLine line).map (·.kind)) ∧
        ∀ token ∈ tokensOfLine line,
          line.start ≤ token.start ∧ token.start ≤ token.stop ∧ token.stop ≤ line.stop) ∧
      (tokenize source).Pairwise (fun token next =>
        token.start ≤ next.start ∧ token.stop ≤ next.start) ∧
      (∀ token ∈ tokenize source, StandsFor source token ∧
        (token.kind = .margin ∨ token.kind = .name →
          Checked.textOf source token = .ok token.text.toList)) ∧
      Checked.readBlocks source = lift (readBlocks source) ∧
      ∀ blocks, readBlocks source = .ok blocks →
        blocks.flatten = (Text.lines source).filterMap fun line =>
          Entry.ofTokens? line.number (tokensOfLine line) := by
  refine ⟨tokenize_eq_flatMap source, Text.map_content_lines source, fun line hline => ?_,
    pairwise_tokenize source, fun token htoken => ?_, Checked.readBlocks_eq source,
    fun blocks => flatten_readBlocks⟩
  · exact ⟨Text.standsIn_of_mem_lines hline, Row.lineKinds_tokens _ _ _,
      (inOrder_tokensOfLine line).bounds⟩
  · have hstands := standsFor_of_mem_tokenize token htoken
    exact ⟨hstands, textOf_of_standsFor hstands⟩

/-- A comment, a carriage return and a line of graphics stand before the last entry, on the third line. -/
theorem tokenize_lines_three :
    let source := "src/ # c\r\n│\n└── a b//".toList
    readBlocks source = .ok [[⟨1, [], "src", true⟩, ⟨3, "└── ".toList, "a b", true⟩]] ∧
      ((Text.lines source).filterMap fun line => Entry.ofTokens? line.number (tokensOfLine line)) =
        [⟨1, [], "src", true⟩, ⟨3, "└── ".toList, "a b", true⟩] := by
  intro source
  have hblocks : readBlocks source =
      .ok [[⟨1, [], "src", true⟩, ⟨3, "└── ".toList, "a b", true⟩]] := by decide +kernel
  exact ⟨hblocks, ((tokenize_lines source).2.2.2.2.2.2 _ hblocks).symm⟩

end TreeSketch.Diagram
