import TreeSketch.Proofs.Declarative.Lexis
import TreeSketch.Proofs.Span

/-!
# Tokens that tile a source

The tokens of a declarative source lie in it one behind the other, and nothing but separators is left between
them (`spans_tokenize`). So what the tokens stand for, put together, is the source without its separators.

`Tiles` is this relation between a text and its tokens. It is composed of the tilings of words and operators
(`Tiles.append`): a name tiles its word, and so do the three tokens of a hint, since nothing in a word is a
separator. What is said of the tokens follows from the relation by induction on it.
-/

namespace TreeSketch.Declarative

open Text (HasAt)

/-- The tokens tile the text, which starts at an offset: every character belongs to the next token, or is a
separator and stands between two tokens. -/
inductive Tiles : Nat → List Char → List Token → Prop
  | nil (offset : Nat) : Tiles offset [] []
  | separator {offset : Nat} {c : Char} {rest : List Char} {tokens : List Token} (hc : isSeparator c = true)
    (hrest : Tiles (offset + c.utf8Size) rest tokens) : Tiles offset (c :: rest) tokens
  | token {offset : Nat} {piece rest : List Char} {tokens : List Token} (kind : TokenKind)
    (hpiece : ∀ c ∈ piece, isSeparator c = false)
    (hrest : Tiles (offset + Text.byteSize piece) rest tokens) :
    Tiles offset (piece ++ rest) (.ofText kind piece offset :: tokens)

/-- A separator takes one byte. -/
theorem utf8Size_of_isSeparator {c : Char} (h : isSeparator c = true) : c.utf8Size = 1 := by
  simp only [isSeparator, Bool.or_eq_true, decide_eq_true_eq] at h
  rcases h with ((rfl | rfl) | rfl) | rfl <;> rfl

namespace Tiles

variable {source text more : List Char} {offset : Nat} {tokens others : List Token}

theorem singleton {piece : List Char} (hpiece : ∀ c ∈ piece, isSeparator c = false) (kind : TokenKind)
    (offset : Nat) : Tiles offset piece [.ofText kind piece offset] := by
  have htoken := Tiles.token kind hpiece (Tiles.nil (offset + Text.byteSize piece))
  rwa [List.append_nil] at htoken

theorem append (h : Tiles offset text tokens)
    (hmore : Tiles (offset + Text.byteSize text) more others) :
    Tiles offset (text ++ more) (tokens ++ others) := by
  induction h with
  | nil offset => exact hmore
  | @separator offset c rest tokens hc _ ih =>
    rw [Text.byteSize_cons, ← Nat.add_assoc] at hmore
    exact .separator hc (ih hmore)
  | @token offset piece rest tokens kind hpiece _ ih =>
    rw [Text.byteSize_append, ← Nat.add_assoc] at hmore
    rw [List.append_assoc, List.cons_append]
    exact .token kind hpiece (ih hmore)

/-! ## What a tiling says -/

theorem inOrder (h : Tiles offset text tokens) :
    Token.InOrder offset (offset + Text.byteSize text) tokens := by
  induction h with
  | nil offset => exact Nat.le_refl _
  | @separator offset c rest tokens _ _ ih =>
    rw [Text.byteSize_cons, ← Nat.add_assoc]
    exact ih.of_le (Nat.le_add_right _ _)
  | @token offset piece rest tokens kind _ _ ih =>
    rw [Text.byteSize_append, ← Nat.add_assoc]
    exact ⟨Nat.le_refl _, Nat.le_add_right _ _, ih⟩

/-- Every token spans its own text. -/
theorem spans (h : Tiles offset text tokens) (hat : HasAt source offset text) :
    ∀ token ∈ tokens, token.Spans source token.text.toList := by
  induction h with
  | nil offset => exact List.forall_mem_nil _
  | separator _ _ ih => exact ih hat.tail
  | @token offset piece rest tokens kind _ _ ih =>
    refine List.forall_mem_cons.mpr ⟨?_, ih hat.right⟩
    rw [Token.toList_text_ofText]
    exact Token.spans_ofText hat.left kind

/-- A byte that no token spans is a separator. -/
theorem exists_isSeparator (h : Tiles offset text tokens) (hat : HasAt source offset text) {byte : Nat}
    (hlow : offset ≤ byte) (hhigh : byte < offset + Text.byteSize text)
    (hfree : ∀ token ∈ tokens, ¬ (token.start ≤ byte ∧ byte < token.stop)) :
    ∃ c, HasAt source byte [c] ∧ isSeparator c = true := by
  induction h with
  | nil offset => exact absurd hhigh (Nat.not_lt.mpr hlow)
  | @separator offset c rest tokens hc _ ih =>
    have hsize := utf8Size_of_isSeparator hc
    rw [Text.byteSize_cons] at hhigh
    by_cases hbyte : byte = offset
    · rw [hbyte]
      exact ⟨c, hat.head, hc⟩
    · exact ih hat.tail (by omega) (by omega) hfree
  | @token offset piece rest tokens kind _ _ ih =>
    obtain ⟨hfirst, hrest⟩ := List.forall_mem_cons.mp hfree
    have hbehind : offset + Text.byteSize piece ≤ byte :=
      Nat.le_of_not_lt fun hinside => hfirst ⟨hlow, hinside⟩
    rw [Text.byteSize_append] at hhigh
    exact ih hat.right hbehind (by omega) hrest

/-- The texts of the tokens are the text without its separators. -/
theorem flatMap_text (h : Tiles offset text tokens) :
    tokens.flatMap (fun token => token.text.toList) = text.filter fun c => !isSeparator c := by
  induction h with
  | nil offset => rfl
  | separator hc _ ih => rw [ih, List.filter_cons_of_neg (by simp [hc])]
  | @token offset piece rest tokens kind hpiece _ ih =>
    have hkept : piece.filter (fun c => !isSeparator c) = piece :=
      List.filter_eq_self.mpr fun c hc => by simp [hpiece c hc]
    rw [List.flatMap_cons, ih, Token.toList_text_ofText, List.filter_append, hkept]

end Tiles

/-! ## The tiling of a source -/

/-- The tokens of a word tile it. -/
theorem Yields.tiles {start : Nat} {word : List Char} {tokens : List Token} (h : Yields start word tokens)
    (hword : ∀ c ∈ word, isSeparator c = false) : Tiles start word tokens := by
  cases h with
  | name _ _ _ _ => exact Tiles.singleton hword _ _
  | @hint kind inner _ hencloses _ =>
    obtain ⟨rfl, -⟩ := hencloses
    simp only [List.forall_mem_append] at hword
    obtain ⟨⟨hopening, hinner⟩, hclosing⟩ := hword
    have hsize : Text.byteSize (opening kind) = 2 := by cases kind <;> rfl
    have hclose := Tiles.singleton hclosing (hintTokens kind).2 (start + 2 + Text.byteSize inner)
    have hname := (Tiles.singleton hinner .name (start + 2)).append hclose
    rw [← hsize] at hname ⊢
    rw [List.append_assoc]
    exact (Tiles.singleton hopening (hintTokens kind).1 start).append hname

/-- The tokens of the words and operators of a text tile the text. -/
theorem tiles_of_chunks {index : Text.LineIndex} {text : List Char} {offset : Nat}
    {groups : List (List Token)}
    (h : List.Forall₂ (fun chunk group => chunkTokens index chunk = .ok group) (chunks offset text) groups) :
    Tiles offset text groups.flatten := by
  induction text using word_induction generalizing offset groups with
  | nil =>
    obtain rfl := List.forall₂_nil_left_iff.mp h
    exact .nil offset
  | separator c rest hc ih =>
    rw [chunks_separator hc] at h
    exact .separator hc (ih h)
  | operator c rest hseparator hc ih =>
    rw [chunks_operator hseparator hc] at h
    obtain ⟨group, more, hgroup, hmore, rfl⟩ := List.forall₂_cons_left_iff.mp h
    obtain rfl := Except.ok.inj hgroup
    exact .token _ (List.forall_mem_singleton.mpr hseparator) (ih hmore)
  | word word rest hne hword hrest ih =>
    rw [chunks_append hne hword hrest] at h
    obtain ⟨group, more, hgroup, hmore, rfl⟩ := List.forall₂_cons_left_iff.mp h
    have hfree : ∀ c ∈ word, isSeparator c = false := fun c hc => (isWordChar_eq_true_iff.mp (hword c hc)).1
    exact ((wordTokens_eq_ok_iff.mp hgroup).tiles hfree).append (ih hmore)

theorem tiles_tokenize {source : List Char} {tokens : List Token} (h : tokenize source = .ok tokens) :
    Tiles 0 source tokens := by
  obtain ⟨groups, hgroups, htokens⟩ := bind_eq_ok_iff.mp h
  obtain rfl := Except.ok.inj htokens
  have hlast : Tiles (0 + Text.byteSize source) [] [Token.mark .endOfInput (Text.byteSize source)] := by
    rw [Nat.zero_add]
    exact Tiles.singleton (List.forall_mem_nil _) .endOfInput _
  have htiles := (tiles_of_chunks (mapM_eq_ok_iff.mp hgroups)).append hlast
  rwa [List.append_nil] at htiles

/-- The tokens of a source lie in it one behind the other, each spans its own text, and the bytes that none of
them spans are separators. So the texts of the tokens make up the source without its separators. -/
theorem spans_tokenize {source : List Char} {tokens : List Token} (h : tokenize source = .ok tokens) :
    (tokens.Pairwise fun token next => token.start ≤ next.start ∧ token.stop ≤ next.start) ∧
      (∀ token ∈ tokens, token.Spans source token.text.toList) ∧
      (∀ byte < Text.byteSize source, (∀ token ∈ tokens, ¬ (token.start ≤ byte ∧ byte < token.stop)) →
        ∃ c, HasAt source byte [c] ∧ isSeparator c = true) ∧
      tokens.flatMap (fun token => token.text.toList) = source.filter fun c => !isSeparator c := by
  have htiles := tiles_tokenize h
  refine ⟨htiles.inOrder.pairwise, htiles.spans (HasAt.self source), fun byte hbyte hfree => ?_,
    htiles.flatMap_text⟩
  exact htiles.exists_isSeparator (HasAt.self source) (Nat.zero_le byte) (by rwa [Nat.zero_add]) hfree

/-- A hint around parentheses, operators without blanks, and letters of two bytes. -/
theorem spans_tokenize_hint :
    let source := "é>d(ö(1))|\r\n\tx ".toList
    let tokens : List Token :=
      [.ofText .name ['é'] 0, .ofText .descend ['>'] 2, .ofText .openDirectory ['d', '('] 3,
        .ofText .name ['ö', '(', '1', ')'] 5, .ofText .closeDirectory [')'] 10,
        .ofText .ascend ['|'] 11, .ofText .name ['x'] 15, .mark .endOfInput 17]
    tokenize source = .ok tokens ∧
      (tokens.Pairwise fun token next => token.start ≤ next.start ∧ token.stop ≤ next.start) ∧
      (∀ token ∈ tokens, token.Spans source token.text.toList) ∧
      (∀ byte < Text.byteSize source, (∀ token ∈ tokens, ¬ (token.start ≤ byte ∧ byte < token.stop)) →
        ∃ c, HasAt source byte [c] ∧ isSeparator c = true) ∧
      tokens.flatMap (fun token => token.text.toList) = source.filter fun c => !isSeparator c := by
  intro source tokens
  have hread : tokenize source = .ok tokens := by decide +kernel
  exact ⟨hread, spans_tokenize hread⟩

end TreeSketch.Declarative
