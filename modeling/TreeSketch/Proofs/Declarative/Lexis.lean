import TreeSketch.Proofs.Checked.Words
import TreeSketch.Proofs.Declarative.Balance
import TreeSketch.Proofs.Declarative.Places

/-!
# What the lexer reads, character by character

The tokens of a declarative source follow from its characters alone (`tokenize_iff_yields`). The source is cut at
separators and operators (`Cut`), each word has the tokens that its parentheses give it (`Yields`) or a fault
(`Refuses`), and the first word with a fault is the fault of the source. None of this speaks of the pieces that a
scan by longest match takes a word apart into; that the scan reads the same is part of the statement.

A hint is a word that starts with the opening of a hint and ends in the parenthesis that matches it, which is to
say that the text between the two is balanced.
-/

namespace TreeSketch

namespace Declarative

/-! ## The words and operators of a text -/

/-- The text, which starts at an offset, falls into these words and operators. -/
inductive Cut : Nat → List Char → List Chunk → Prop
  | nil (offset : Nat) : Cut offset [] []
  | separator {offset : Nat} {c : Char} {rest : List Char} {parts : List Chunk} (hc : isSeparator c = true)
    (hrest : Cut (offset + c.utf8Size) rest parts) : Cut offset (c :: rest) parts
  | operator {offset : Nat} {c : Char} {rest : List Char} {parts : List Chunk} (hc : isOperator c = true)
    (hrest : Cut (offset + c.utf8Size) rest parts) :
    Cut offset (c :: rest) (.operator offset c :: parts)
  /-- A word goes on as far as it can. -/
  | word {offset : Nat} {word rest : List Char} {parts : List Chunk} (hne : word ≠ [])
    (hword : ∀ c ∈ word, isSeparator c = false ∧ isOperator c = false)
    (hbounds : ∀ c ∈ rest.head?, isSeparator c = true ∨ isOperator c = true)
    (hrest : Cut (offset + Text.byteSize word) rest parts) :
    Cut offset (word ++ rest) (.word offset word :: parts)

theorem isWordChar_eq_true_iff {c : Char} :
    isWordChar c = true ↔ isSeparator c = false ∧ isOperator c = false := by
  simp [isWordChar]

theorem isWordChar_eq_false_iff {c : Char} :
    isWordChar c = false ↔ isSeparator c = true ∨ isOperator c = true := by
  cases hseparator : isSeparator c <;> simp [isWordChar, hseparator]

theorem isSeparator_of_isOperator {c : Char} (h : isOperator c = true) : isSeparator c = false := by
  rcases (by simpa [isOperator] using h : c = '>' ∨ c = '|') with rfl | rfl <;> rfl

theorem cut_chunks (offset : Nat) (text : List Char) : Cut offset text (chunks offset text) := by
  induction text using word_induction generalizing offset with
  | nil => exact .nil offset
  | separator c rest hc ih =>
    rw [chunks_separator hc]
    exact .separator hc (ih _)
  | operator c rest hseparator hc ih =>
    rw [chunks_operator hseparator hc]
    exact .operator hc (ih _)
  | word word rest hne hword hrest ih =>
    rw [chunks_append hne hword hrest]
    exact .word hne (fun c hc => isWordChar_eq_true_iff.mp (hword c hc))
      (fun c hc => isWordChar_eq_false_iff.mp (hrest c hc)) (ih _)

/-- There is one way to cut a text. -/
theorem cut_iff {offset : Nat} {text : List Char} {parts : List Chunk} :
    Cut offset text parts ↔ parts = chunks offset text := by
  constructor
  · intro h
    induction h with
    | nil => rfl
    | separator hc _ ih => rw [chunks_separator hc, ih]
    | operator hc _ ih => rw [chunks_operator (isSeparator_of_isOperator hc) hc, ih]
    | word hne hword hbounds _ ih =>
      have hrest : Bounds _ := fun c hc => isWordChar_eq_false_iff.mpr (hbounds c hc)
      rw [chunks_append hne (fun c hc => isWordChar_eq_true_iff.mpr (hword c hc)) hrest, ih]
  · rintro rfl
    exact cut_chunks offset text

/-! ## The tokens of a word -/

/-- The two characters that open a hint. -/
def opening (kind : Kind) : List Char :=
  [LexError.hintLetter kind, '(']

/-- The text has no control characters. -/
def Clean (text : List Char) : Prop :=
  ∀ c ∈ text, Text.isControl c = false

/-- The word starts with the opening of a hint, and the parenthesis that matches it is the last character. -/
def Encloses (kind : Kind) (inner word : List Char) : Prop :=
  word = opening kind ++ inner ++ [')'] ∧ Balanced inner

/-- The word starts with the opening of a hint, and no parenthesis of the word matches it. -/
def LeavesOpen (kind : Kind) (word : List Char) : Prop :=
  ∃ opened, word = opening kind ++ opened ∧
    ∀ inner rest, opened = inner ++ ')' :: rest → ¬ Balanced inner

/-- The tokens of a word that starts at an offset. -/
inductive Yields (start : Nat) (word : List Char) : List Token → Prop
  /-- A hint is three tokens, -/
  | hint {kind : Kind} {inner : List Char} (hclean : Clean word) (hencloses : Encloses kind inner word)
    (hne : inner ≠ []) :
    Yields start word
      [.ofText (hintTokens kind).1 (opening kind) start, .ofText .name inner (start + 2),
        .ofText (hintTokens kind).2 [')'] (start + 2 + Text.byteSize inner)]
  /-- and any other word without a fault is a name as a whole. -/
  | name (hclean : Clean word) (hhint : ∀ kind inner, ¬ Encloses kind inner word)
    (hopen : ∀ kind, ¬ LeavesOpen kind word)
    (hcovered : ∀ before, before <+: word → before.count ')' ≤ before.count '(') :
    Yields start word [.ofText .name word start]

/-- The fault of a word that starts at an offset. -/
inductive Refuses (index : Text.LineIndex) (start : Nat) (word : List Char) : LexError → Prop
  /-- A control character is the fault wherever it stands. -/
  | illegalCharacter {before after : List Char} {c : Char} (hword : word = before ++ c :: after)
    (hbefore : Clean before) (hc : Text.isControl c = true) :
    Refuses index start word
      (.illegalCharacter c (placeAt index (start + Text.byteSize before)))
  | unterminatedHint {kind : Kind} (hclean : Clean word) (hopen : LeavesOpen kind word) :
    Refuses index start word (.unterminatedHint kind (placeAt index start))
  | emptyHint {kind : Kind} (hclean : Clean word) (hword : word = opening kind ++ [')']) :
    Refuses index start word (.emptyHint kind (placeAt index start))
  /-- In a word that is no hint, the first parenthesis that closes more than is open is the fault. -/
  | unmatchedClose {before after : List Char} (hclean : Clean word)
    (hhint : ∀ kind inner, ¬ Encloses kind inner word) (hword : word = before ++ ')' :: after)
    (hbefore : ∀ more, more <+: before → more.count ')' ≤ more.count '(')
    (hmore : (before ++ [')']).count '(' < (before ++ [')']).count ')') :
    Refuses index start word (.unmatchedClose (placeAt index (start + Text.byteSize before)))

variable {index : Text.LineIndex} {start : Nat} {word : List Char}

theorem covered_zero_iff {text : List Char} :
    Covered 0 text ↔ ∀ before, before <+: text → before.count ')' ≤ before.count '(' := by
  simp only [Covered, Nat.zero_add]

theorem hint?_opening (kind : Kind) (opened : List Char) :
    hint? (opening kind ++ opened) = some (kind, opened) := by
  cases kind <;> rfl

theorem hint?_eq_some_iff {kind : Kind} {opened : List Char} :
    hint? word = some (kind, opened) ↔ word = opening kind ++ opened := by
  constructor
  · exact eq_of_hint?_eq_some
  · rintro rfl
    exact hint?_opening kind opened

theorem balanced_nil : Balanced [] :=
  closes_nil_iff.mpr rfl

/-- A text that is open to the end closes no more than is open. -/
theorem LeavesOpen.covered {kind : Kind} (h : LeavesOpen kind word) : Covered 0 word := by
  obtain ⟨opened, rfl, hopened⟩ := h
  have hnone : splitClose 1 opened = none := splitClose_succ_eq_none (splitClose_eq_none_iff.mpr hopened)
  have hletter : LexError.hintLetter kind ≠ ')' := by cases kind <;> decide
  have hafter : openAfter 0 (LexError.hintLetter kind) = 0 := by cases kind <;> rfl
  refine covered_cons_iff.mpr ⟨fun hc => absurd hc hletter, ?_⟩
  rw [hafter]
  have hstray : strayClose 1 0 opened = none := by
    rw [strayClose_eq, hnone]
    rfl
  exact covered_cons_iff.mpr ⟨nofun, strayClose_eq_none_iff_covered.mp hstray⟩

/-- A word with a control character has the fault of its first one. -/
theorem wordTokens_of_control {before after : List Char} {c : Char} (hword : word = before ++ c :: after)
    (hbefore : Clean before) (hc : Text.isControl c = true) :
    wordTokens index start word =
      .error (.illegalCharacter c (placeAt index (start + Text.byteSize before))) := by
  rw [wordTokens, findFrom_eq_some_iff.mpr ⟨before, after, hword, hbefore, hc, rfl⟩]

/-- A word that encloses something is a hint, unless it encloses nothing. -/
theorem wordTokens_of_encloses (hclean : Clean word) {kind : Kind} {inner : List Char}
    (h : Encloses kind inner word) :
    wordTokens index start word =
      if inner = [] then .error (.emptyHint kind (placeAt index start))
      else .ok [.ofText (hintTokens kind).1 (opening kind) start, .ofText .name inner (start + 2),
        .ofText (hintTokens kind).2 [')'] (start + 2 + Text.byteSize inner)] := by
  obtain ⟨rfl, hinner⟩ := h
  have hsplit : splitClose 0 (inner ++ [')']) = some (inner, []) := splitClose_eq_some_iff.mpr ⟨rfl, hinner⟩
  rw [wordTokens, findFrom_eq_none_iff.mpr hclean, List.append_assoc, hint?_opening]
  simp only [hsplit]
  cases inner with
  | nil => rfl
  | cons c inner => cases kind <;> rfl

theorem wordTokens_of_leavesOpen (hclean : Clean word) {kind : Kind} (h : LeavesOpen kind word) :
    wordTokens index start word = .error (.unterminatedHint kind (placeAt index start)) := by
  obtain ⟨opened, rfl, hopened⟩ := h
  rw [wordTokens, findFrom_eq_none_iff.mpr hclean, hint?_opening]
  simp only [splitClose_eq_none_iff.mpr hopened]

/-- Any other word is a name, or closes too much. -/
theorem wordTokens_of_plain (hclean : Clean word) (hhint : ∀ kind inner, ¬ Encloses kind inner word)
    (hopen : ∀ kind, ¬ LeavesOpen kind word) :
    wordTokens index start word = literalToken index start word := by
  rw [wordTokens, findFrom_eq_none_iff.mpr hclean]
  cases hword : hint? word with
  | none => rfl
  | some hint =>
    obtain ⟨kind, opened⟩ := hint
    obtain rfl := hint?_eq_some_iff.mp hword
    simp only []
    cases hsplit : splitClose 0 opened with
    | none => exact absurd ⟨opened, rfl, splitClose_eq_none_iff.mp hsplit⟩ (hopen kind)
    | some cut =>
      obtain ⟨inner, rest⟩ := cut
      obtain ⟨rfl, hinner⟩ := splitClose_eq_some_iff.mp hsplit
      cases rest with
      | nil => exact absurd ⟨by rw [List.append_assoc], hinner⟩ (hhint kind inner)
      | cons c rest => cases inner <;> rfl

theorem literalToken_eq_error_iff {fault : LexError} :
    literalToken index start word = .error fault ↔
      ∃ before after, word = before ++ ')' :: after ∧ Balanced before ∧
        fault = .unmatchedClose (placeAt index (start + Text.byteSize before)) := by
  rw [literalToken, strayClose_eq]
  cases hsplit : splitClose 0 word with
  | none =>
    constructor
    · intro hfault
      cases hfault
    · rintro ⟨before, after, hword, hbefore, -⟩
      exact absurd hbefore (splitClose_eq_none_iff.mp hsplit before after hword)
  | some cut =>
    obtain ⟨inner, rest⟩ := cut
    obtain ⟨hword, hinner⟩ := splitClose_eq_some_iff.mp hsplit
    constructor
    · rintro ⟨⟩
      exact ⟨inner, rest, hword, hinner, rfl⟩
    · rintro ⟨before, after, hword, hbefore, rfl⟩
      obtain ⟨rfl, -⟩ : inner = before ∧ rest = after := by
        simpa using hsplit.symm.trans (splitClose_eq_some_iff.mpr ⟨hword, hbefore⟩)
      rfl

/-- A word that is not clean has a first control character. -/
theorem exists_control_of_not_clean (h : ¬ Clean word) :
    ∃ before c after, word = before ++ c :: after ∧ Clean before ∧ Text.isControl c = true := by
  cases hfind : findFrom Text.isControl 0 word with
  | none => exact absurd (findFrom_eq_none_iff.mp hfind) h
  | some found =>
    obtain ⟨before, after, hword, hbefore, hc, -⟩ := findFrom_eq_some_iff.mp hfind
    exact ⟨before, found.2, after, hword, hbefore, hc⟩

theorem yields_of_literalToken {tokens : List Token} (hclean : Clean word)
    (hhint : ∀ kind inner, ¬ Encloses kind inner word) (hopen : ∀ kind, ¬ LeavesOpen kind word)
    (h : literalToken index start word = .ok tokens) : Yields start word tokens := by
  obtain rfl := literalToken_eq_ok h
  have hstray : strayClose 0 0 word = none := literalToken_eq_ok_iff.mp h
  exact .name hclean hhint hopen (covered_zero_iff.mp (strayClose_eq_none_iff_covered.mp hstray))

theorem refuses_of_literalToken {fault : LexError} (hclean : Clean word)
    (hhint : ∀ kind inner, ¬ Encloses kind inner word)
    (h : literalToken index start word = .error fault) : Refuses index start word fault := by
  obtain ⟨before, after, hword, ⟨hcovered, htotal⟩, rfl⟩ := literalToken_eq_error_iff.mp h
  refine .unmatchedClose hclean hhint hword (covered_zero_iff.mp hcovered) ?_
  simp only [List.count_append, List.count_singleton]
  simp
  omega

/-- The tokens of a word, or its fault, are what its characters say. -/
theorem wordTokens_spec (index : Text.LineIndex) (start : Nat) (word : List Char) :
    (∀ tokens, wordTokens index start word = .ok tokens → Yields start word tokens) ∧
      ∀ fault, wordTokens index start word = .error fault → Refuses index start word fault := by
  by_cases hclean : Clean word
  · by_cases hhint : ∃ kind inner, Encloses kind inner word
    · obtain ⟨kind, inner, hencloses⟩ := hhint
      rw [wordTokens_of_encloses hclean hencloses]
      split
      · rename_i hnil
        refine ⟨nofun, ?_⟩
        rintro _ ⟨⟩
        rw [hnil, Encloses, List.append_nil] at hencloses
        exact .emptyHint hclean hencloses.1
      · rename_i hne
        refine ⟨?_, nofun⟩
        rintro _ ⟨⟩
        exact .hint hclean hencloses hne
    · by_cases hopen : ∃ kind, LeavesOpen kind word
      · obtain ⟨kind, hopen⟩ := hopen
        rw [wordTokens_of_leavesOpen hclean hopen]
        refine ⟨nofun, ?_⟩
        rintro _ ⟨⟩
        exact .unterminatedHint hclean hopen
      · have hhint : ∀ kind inner, ¬ Encloses kind inner word := fun kind inner h => hhint ⟨kind, inner, h⟩
        have hopen : ∀ kind, ¬ LeavesOpen kind word := fun kind h => hopen ⟨kind, h⟩
        rw [wordTokens_of_plain hclean hhint hopen]
        exact ⟨fun _ => yields_of_literalToken hclean hhint hopen,
          fun _ => refuses_of_literalToken hclean hhint⟩
  · obtain ⟨before, c, after, hword, hbefore, hc⟩ := exists_control_of_not_clean hclean
    rw [wordTokens_of_control hword hbefore hc]
    refine ⟨nofun, ?_⟩
    rintro _ ⟨⟩
    exact .illegalCharacter hword hbefore hc

theorem wordTokens_of_yields {tokens : List Token} (h : Yields start word tokens) :
    wordTokens index start word = .ok tokens := by
  cases h with
  | hint hclean hencloses hne => rw [wordTokens_of_encloses hclean hencloses, if_neg hne]
  | name hclean hhint hopen hcovered =>
    rw [wordTokens_of_plain hclean hhint hopen]
    exact literalToken_eq_ok_iff.mpr (strayClose_eq_none_iff_covered.mpr (covered_zero_iff.mpr hcovered))

theorem wordTokens_of_refuses {fault : LexError} (h : Refuses index start word fault) :
    wordTokens index start word = .error fault := by
  cases h with
  | illegalCharacter hword hbefore hc => exact wordTokens_of_control hword hbefore hc
  | unterminatedHint hclean hopen => exact wordTokens_of_leavesOpen hclean hopen
  | @emptyHint kind hclean hword =>
    have hencloses : Encloses kind [] word := ⟨by rw [List.append_nil, hword], balanced_nil⟩
    rw [wordTokens_of_encloses hclean hencloses, if_pos rfl]
  | @unmatchedClose before after hclean hhint hword hbefore hmore =>
    have hstray : ¬ Covered 0 word := by
      intro hcovered
      have hle := hcovered (before ++ [')']) ⟨after, by rw [hword, List.append_assoc]; rfl⟩
      omega
    have hbalanced : Balanced before := by
      have hle := hbefore before List.prefix_rfl
      refine ⟨covered_zero_iff.mpr hbefore, ?_⟩
      simp at hmore
      omega
    rw [wordTokens_of_plain hclean hhint fun kind hopen => hstray hopen.covered]
    exact literalToken_eq_error_iff.mpr ⟨before, after, hword, hbalanced, rfl⟩

theorem wordTokens_eq_ok_iff {tokens : List Token} :
    wordTokens index start word = .ok tokens ↔ Yields start word tokens :=
  ⟨(wordTokens_spec index start word).1 tokens, wordTokens_of_yields⟩

theorem wordTokens_eq_error_iff {fault : LexError} :
    wordTokens index start word = .error fault ↔ Refuses index start word fault :=
  ⟨(wordTokens_spec index start word).2 fault, wordTokens_of_refuses⟩

/-! ## The tokens of a source -/

/-- The tokens of a word or an operator. -/
def Chunk.Yields : Chunk → List Token → Prop
  | .word start text, tokens => Declarative.Yields start text tokens
  | .operator start c, tokens =>
    c = '>' ∧ tokens = [.ofText .descend ['>'] start] ∨ c = '|' ∧ tokens = [.ofText .ascend ['|'] start]

/-- The fault of a word; an operator has none. -/
def Chunk.Refuses (index : Text.LineIndex) : Chunk → LexError → Prop
  | .word start text, fault => Declarative.Refuses index start text fault
  | .operator _ _, _ => False

theorem chunkTokens_eq_ok_iff {source : List Char} {chunk : Chunk} (h : chunk.StandsIn source)
    {tokens : List Token} : chunkTokens index chunk = .ok tokens ↔ chunk.Yields tokens := by
  cases chunk with
  | word start text => exact wordTokens_eq_ok_iff
  | operator start c =>
    have hsign : c = '>' ∨ c = '|' := by simpa [isOperator] using h.1
    rcases hsign with rfl | rfl
    · simp [chunkTokens, Chunk.Yields, eq_comm]
    · simp [chunkTokens, Chunk.Yields, eq_comm]

theorem chunkTokens_eq_error_iff {chunk : Chunk} {fault : LexError} :
    chunkTokens index chunk = .error fault ↔ chunk.Refuses index fault := by
  cases chunk with
  | word start text => exact wordTokens_eq_error_iff
  | operator start c => exact ⟨nofun, False.elim⟩

/-- The lexer reads what the characters of a source say, and so does the scan by longest match.

The source is cut at separators and operators in one way. It has tokens exactly when every part has, and then
they are those of the parts in order and the end of the input; it has a fault exactly when the first part
without tokens has it. -/
theorem tokenize_iff_yields (source : List Char) :
    Checked.tokenize source = TreeSketch.Checked.lift (tokenize source) ∧
      ∃ parts, (∀ other, Cut 0 source other ↔ other = parts) ∧
        (∀ tokens, tokenize source = .ok tokens ↔ ∃ groups, List.Forall₂ Chunk.Yields parts groups ∧
          tokens = groups.flatten ++ [Token.mark .endOfInput (Text.byteSize source)]) ∧
        ∀ fault, tokenize source = .error fault ↔ ∃ before part after, parts = before ++ part :: after ∧
          (∀ earlier ∈ before, ∃ tokens, earlier.Yields tokens) ∧
          part.Refuses (Text.LineIndex.ofText source) fault := by
  have hstands : ∀ part ∈ chunks 0 source, part.StandsIn source := standsIn_of_mem_chunks
  refine ⟨Checked.tokenize_eq source, chunks 0 source, fun _ => cut_iff, fun tokens => ?_, fun fault => ?_⟩
  · rw [tokenize, bind_eq_ok_iff]
    constructor
    · rintro ⟨groups, hgroups, htokens⟩
      refine ⟨groups, ?_, (Except.ok.inj htokens).symm⟩
      have hboth := (List.forall₂_and_left _ _).mpr ⟨hstands, mapM_eq_ok_iff.mp hgroups⟩
      exact hboth.imp fun part group hpart => (chunkTokens_eq_ok_iff hpart.1).mp hpart.2
    · rintro ⟨groups, hgroups, rfl⟩
      refine ⟨groups, mapM_eq_ok_iff.mpr ?_, rfl⟩
      have hboth := (List.forall₂_and_left _ _).mpr ⟨hstands, hgroups⟩
      exact hboth.imp fun part group hpart => (chunkTokens_eq_ok_iff hpart.1).mpr hpart.2
  · have hends : tokenize source = .error fault ↔
        (chunks 0 source).mapM (chunkTokens (Text.LineIndex.ofText source)) = .error fault := by
      rw [tokenize, bind_eq_error_iff]
      refine ⟨?_, Or.inl⟩
      rintro (h | ⟨_, -, h⟩)
      · exact h
      · cases h
    rw [hends, mapM_eq_error_iff]
    constructor
    · rintro ⟨before, part, after, hparts, hbefore, hpart⟩
      refine ⟨before, part, after, hparts, fun earlier hmem => ?_, chunkTokens_eq_error_iff.mp hpart⟩
      obtain ⟨tokens, htokens⟩ := hbefore earlier hmem
      have hearlier := hstands earlier (hparts ▸ List.mem_append_left _ hmem)
      exact ⟨tokens, (chunkTokens_eq_ok_iff hearlier).mp htokens⟩
    · rintro ⟨before, part, after, hparts, hbefore, hpart⟩
      refine ⟨before, part, after, hparts, fun earlier hmem => ?_, chunkTokens_eq_error_iff.mpr hpart⟩
      obtain ⟨tokens, htokens⟩ := hbefore earlier hmem
      have hearlier := hstands earlier (hparts ▸ List.mem_append_left _ hmem)
      exact ⟨tokens, (chunkTokens_eq_ok_iff hearlier).mpr htokens⟩

end Declarative

end TreeSketch
