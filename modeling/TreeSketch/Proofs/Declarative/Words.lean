import TreeSketch.Declarative.Lexer
import TreeSketch.Proofs.Except
import TreeSketch.Proofs.Tree.Outline

/-!
# Words and their tokens

A declarative source falls into words and operators, and each word is a name or a hint around a name
(`wordTokens_cases`). So the names of a source hold nothing but characters of the source, and only such that
words are made of (`mem_of_mem_tokenize`).
-/

namespace TreeSketch.Declarative

/-! ## Words -/

/-- A word that a character is put before holds the character, or it was there before. -/
theorem mem_consWord {offset start : Nat} {c : Char} {joined : Bool} {pieces : List Chunk}
    {text : List Char} (h : .word start text ∈ consWord offset c joined pieces) :
    .word start text ∈ pieces ∨ text = [c] ∨ ∃ begin more, text = c :: more ∧
      .word begin more ∈ pieces := by
  cases pieces with
  | nil =>
    obtain ⟨-, rfl⟩ : start = offset ∧ text = [c] := by simpa [consWord] using h
    exact Or.inr (Or.inl rfl)
  | cons first rest =>
    cases first with
    | operator begin other =>
      rcases List.mem_cons.mp h with hfirst | hrest
      · obtain ⟨-, rfl⟩ : start = offset ∧ text = [c] := by simpa using hfirst
        exact Or.inr (Or.inl rfl)
      · exact Or.inl hrest
    | word begin more =>
      cases joined with
      | false =>
        rcases List.mem_cons.mp h with hfirst | hrest
        · obtain ⟨-, rfl⟩ : start = offset ∧ text = [c] := by simpa using hfirst
          exact Or.inr (Or.inl rfl)
        · exact Or.inl hrest
      | true =>
        rcases List.mem_cons.mp h with hfirst | hrest
        · obtain ⟨-, rfl⟩ : start = offset ∧ text = c :: more := by simpa using hfirst
          exact Or.inr (Or.inr ⟨begin, more, rfl, List.mem_cons_self⟩)
        · exact Or.inl (List.mem_cons_of_mem _ hrest)

/-- The words of a text hold characters of the text, and only such that words are made of. -/
theorem mem_of_word_mem_chunks {offset start : Nat} {source text : List Char}
    (h : .word start text ∈ chunks offset source) :
    ∀ c ∈ text, c ∈ source ∧ isWordChar c = true := by
  induction source generalizing offset start text with
  | nil => cases h
  | cons d source ih =>
    have hrest {begin : Nat} {more : List Char}
        (hmem : .word begin more ∈ chunks (offset + d.utf8Size) source) :
        ∀ c ∈ more, c ∈ d :: source ∧ isWordChar c = true :=
      fun c hc => ⟨List.mem_cons_of_mem d (ih hmem c hc).1, (ih hmem c hc).2⟩
    rw [chunks] at h
    by_cases hseparator : isSeparator d = true
    · rw [if_pos hseparator] at h
      exact hrest h
    · by_cases hoperator : isOperator d = true
      · rw [if_neg hseparator, if_pos hoperator] at h
        rcases List.mem_cons.mp h with hfirst | hmore
        · cases hfirst
        · exact hrest hmore
      · rw [if_neg hseparator, if_neg hoperator] at h
        have hd : d ∈ d :: source ∧ isWordChar d = true := by
          simp [isWordChar, hseparator, hoperator]
        rcases mem_consWord h with hmore | rfl | ⟨begin, more, rfl, hmore⟩
        · exact hrest hmore
        · simpa using hd
        · exact List.forall_mem_cons.mpr ⟨hd, hrest hmore⟩

/-- What follows does not go on with a word. -/
def Bounds (rest : List Char) : Prop :=
  ∀ c ∈ rest.head?, isWordChar c = false

theorem consWord_apart (offset : Nat) (c : Char) (pieces : List Chunk) :
    consWord offset c false pieces = .word offset [c] :: pieces := by
  cases pieces with
  | nil => rfl
  | cons first rest => cases first <;> rfl

/-- A word ends where something else follows. -/
theorem chunks_append {word rest : List Char} (hne : word ≠ [])
    (hword : ∀ c ∈ word, isWordChar c = true) (hrest : Bounds rest) (offset : Nat) :
    chunks offset (word ++ rest) =
      .word offset word :: chunks (offset + Text.byteSize word) rest := by
  induction word generalizing offset with
  | nil => exact absurd rfl hne
  | cons c word ih =>
    rw [List.forall_mem_cons] at hword
    have hkind : isSeparator c = false ∧ isOperator c = false := by
      simpa [isWordChar] using hword.1
    rw [List.cons_append, chunks]
    simp only [hkind.1, hkind.2, Bool.false_eq_true, if_false]
    cases word with
    | nil =>
      have hapart : ((([] : List Char) ++ rest).head?.map isWordChar).getD false = false := by
        cases rest with
        | nil => rfl
        | cons d rest => exact hrest d rfl
      rw [hapart, consWord_apart]
      simp
    | cons d word =>
      have hjoined : isWordChar d = true := hword.2 d List.mem_cons_self
      rw [ih (List.cons_ne_nil d word) hword.2]
      simp [consWord, hjoined, Nat.add_assoc]

theorem chunks_separator {c : Char} (h : isSeparator c = true) (rest : List Char) (offset : Nat) :
    chunks offset (c :: rest) = chunks (offset + c.utf8Size) rest := by
  rw [chunks]
  exact if_pos h

theorem chunks_operator {c : Char} (hseparator : isSeparator c = false) (h : isOperator c = true)
    (rest : List Char) (offset : Nat) :
    chunks offset (c :: rest) = .operator offset c :: chunks (offset + c.utf8Size) rest := by
  rw [chunks]
  simp only [hseparator, h, Bool.false_eq_true, if_false, if_true]

/-- To prove something about every text, it is enough to put separators, operators and whole words before
texts of which it holds. -/
theorem word_induction {P : List Char → Prop} (nil : P [])
    (separator : ∀ c rest, isSeparator c = true → P rest → P (c :: rest))
    (operator : ∀ c rest, isSeparator c = false → isOperator c = true → P rest → P (c :: rest))
    (word : ∀ word rest, word ≠ [] → (∀ c ∈ word, isWordChar c = true) → Bounds rest → P rest →
      P (word ++ rest)) (text : List Char) : P text := by
  induction hlength : text.length using Nat.strong_induction_on generalizing text with
  | h length ih =>
    cases text with
    | nil => exact nil
    | cons c rest =>
      have hrest : P rest := ih rest.length (by rw [← hlength]; exact Nat.lt_succ_self _) rest rfl
      by_cases hseparator : isSeparator c = true
      · exact separator c rest hseparator hrest
      · by_cases hoperator : isOperator c = true
        · exact operator c rest (by simpa using hseparator) hoperator hrest
        · have hc : isWordChar c = true := by simp [isWordChar, hseparator, hoperator]
          have hwhole := List.takeWhile_append_dropWhile (p := isWordChar) (l := c :: rest)
          have hfirst : (c :: rest).takeWhile isWordChar ≠ [] := by
            rw [List.takeWhile_cons_of_pos hc]
            exact List.cons_ne_nil _ _
          have hshort : ((c :: rest).dropWhile isWordChar).length < length := by
            rw [List.dropWhile_cons_of_pos hc, ← hlength]
            exact Nat.lt_succ_of_le (List.length_dropWhile_le _ _)
          rw [← hwhole]
          refine word _ _ hfirst (fun d hd => List.mem_takeWhile_imp hd) ?_ (ih _ hshort _ rfl)
          intro d hd
          have hnot := List.head?_dropWhile_not isWordChar (c :: rest)
          rw [Option.mem_def.mp hd] at hnot
          simpa using hnot

/-! ## Tokens of a word -/

/-- What stands in a parenthesis is part of the text that follows its opening. -/
theorem eq_append_of_splitClose {depth : Nat} {cs inner rest : List Char}
    (h : splitClose depth cs = some (inner, rest)) : cs = inner ++ ')' :: rest := by
  induction cs generalizing depth inner with
  | nil => cases h
  | cons c cs ih =>
    rw [splitClose] at h
    split at h
    · rename_i hclose
      simp_all
    · obtain ⟨⟨before, after⟩, hsplit, heq⟩ := Option.map_eq_some_iff.mp h
      obtain ⟨rfl, rfl⟩ : c :: before = inner ∧ after = rest := by simpa using heq
      rw [ih hsplit, List.cons_append]

/-- A word with a hint starts with the letter of the hint and a parenthesis. -/
theorem eq_of_hint?_eq_some {word opened : List Char} {kind : Kind}
    (h : hint? word = some (kind, opened)) : word = LexError.hintLetter kind :: '(' :: opened := by
  unfold hint? at h
  split at h
  · cases h
    rfl
  · cases h
    rfl
  · cases h

/-- A word with a hint is the opening, and what follows it. -/
theorem hint?_eq_some {word opened : List Char} {kind : Kind} (h : hint? word = some (kind, opened)) :
    word = word.take 2 ++ opened := by
  rw [eq_of_hint?_eq_some h]
  rfl

theorem literalToken_eq_ok {index : Text.LineIndex} {start : Nat} {word : List Char}
    {tokens : List Token} (h : literalToken index start word = .ok tokens) :
    tokens = [.ofText .name word start] := by
  rw [literalToken] at h
  split at h
  · cases h
  · exact (Except.ok.inj h).symm

/-- A word is a name as a whole, or a hint around a name. -/
theorem wordTokens_cases {index : Text.LineIndex} {start : Nat} {word : List Char}
    {tokens : List Token} (h : wordTokens index start word = .ok tokens) :
    tokens = [.ofText .name word start] ∨
      ∃ kind inner opening closing, tokens = [opening, .ofText .name inner (start + 2), closing] ∧
        opening.kind = (hintTokens kind).1 ∧ closing.kind = (hintTokens kind).2 ∧
        word = word.take 2 ++ inner ++ [')'] := by
  rw [wordTokens] at h
  split at h
  · cases h
  · split at h
    · exact Or.inl (literalToken_eq_ok h)
    · rename_i kind opened hhint
      split at h
      · cases h
      · cases h
      · rename_i inner _ hsplit
        cases h
        refine Or.inr ⟨kind, inner, _, _, rfl, rfl, rfl, ?_⟩
        conv_lhs => rw [hint?_eq_some hhint, eq_append_of_splitClose hsplit]
        rw [List.append_assoc]
      · exact Or.inl (literalToken_eq_ok h)

/-- The kinds of the tokens of a word. -/
theorem map_kind_of_wordTokens {index : Text.LineIndex} {start : Nat} {word : List Char}
    {tokens : List Token} (h : wordTokens index start word = .ok tokens) :
    tokens.map (·.kind) = [.name] ∨
      ∃ kind, tokens.map (·.kind) = [(hintTokens kind).1, .name, (hintTokens kind).2] := by
  rcases wordTokens_cases h with rfl | ⟨kind, inner, opening, closing, rfl, hopening, hclosing, -⟩
  · exact Or.inl rfl
  · refine Or.inr ⟨kind, ?_⟩
    rw [List.map_cons, List.map_cons, List.map_singleton, hopening, hclosing]
    rfl

theorem findFrom_eq_none_iff {p : Char → Bool} {offset : Nat} {cs : List Char} :
    findFrom p offset cs = none ↔ ∀ c ∈ cs, p c = false := by
  induction cs generalizing offset with
  | nil => simp [findFrom]
  | cons c cs ih =>
    rw [findFrom, List.forall_mem_cons]
    by_cases hc : p c = true
    · simp [hc]
    · simp [hc, ih]

theorem strayClose_eq_none_iff (other : Nat) {depth offset : Nat} {cs : List Char} :
    strayClose depth offset cs = none ↔ strayClose depth other cs = none := by
  induction cs generalizing depth offset other with
  | nil => simp [strayClose]
  | cons c cs ih =>
    rw [strayClose, strayClose]
    by_cases hc : (decide (c = ')') && decide (depth = 0)) = true
    · simp [hc]
    · rw [if_neg hc, if_neg hc]
      exact ih _

theorem literalToken_eq_ok_iff {index : Text.LineIndex} {start : Nat} {word : List Char} :
    literalToken index start word = .ok [.ofText .name word start] ↔
      strayClose 0 0 word = none := by
  rw [strayClose_eq_none_iff start, literalToken]
  cases strayClose 0 start word <;> simp

/-- Whether a word is a name as a whole does not depend on where it stands. -/
theorem wordTokens_eq_name {index : Text.LineIndex} {start : Nat} {word : List Char}
    (h : wordTokens index start word = .ok [.ofText .name word start])
    (other : Text.LineIndex) (place : Nat) :
    wordTokens other place word = .ok [.ofText .name word place] := by
  have hcontrol : ∀ offset, findFrom Text.isControl offset word = none := by
    intro offset
    rw [wordTokens] at h
    split at h
    · cases h
    · rename_i hfree
      exact findFrom_eq_none_iff.mpr (findFrom_eq_none_iff.mp hfree)
  rw [wordTokens, hcontrol] at h ⊢
  cases hhint : hint? word with
  | none =>
    rw [hhint] at h
    exact literalToken_eq_ok_iff.mpr (literalToken_eq_ok_iff.mp h)
  | some hint =>
    obtain ⟨kind, opened⟩ := hint
    rw [hhint] at h
    simp only [] at h ⊢
    split at h
    · cases h
    · cases h
    · have hlength := congrArg List.length (Except.ok.inj h)
      simp at hlength
    · exact literalToken_eq_ok_iff.mpr (literalToken_eq_ok_iff.mp h)

/-- The name in a token of a word is part of the word. -/
theorem mem_of_mem_wordTokens {index : Text.LineIndex} {start : Nat} {word : List Char}
    {tokens : List Token} (h : wordTokens index start word = .ok tokens) {token : Token}
    (htoken : token ∈ tokens) (hname : token.kind = .name) : ∀ c ∈ token.text.toList, c ∈ word := by
  rcases wordTokens_cases h with rfl | ⟨kind, inner, opening, closing, rfl, hopening, hclosing, hword⟩
  · obtain rfl := List.mem_singleton.mp htoken
    simp [Token.ofText]
  · simp only [List.mem_cons, List.not_mem_nil, or_false] at htoken
    rcases htoken with rfl | rfl | rfl
    · rw [hopening] at hname
      cases kind <;> cases hname
    · intro c hc
      rw [Token.ofText, String.toList_ofList] at hc
      rw [hword]
      exact List.mem_append_left _ (List.mem_append_right _ hc)
    · rw [hclosing] at hname
      cases kind <;> cases hname

/-- The tokens of a chunk are among the tokens of the source. -/
theorem exists_tokens_of_mem_chunks {source : List Char} {tokens : List Token}
    (h : tokenize source = .ok tokens) {chunk : Chunk} (hchunk : chunk ∈ chunks 0 source) :
    ∃ group, chunkTokens (Text.LineIndex.ofText source) chunk = .ok group ∧
      ∀ token ∈ group, token ∈ tokens := by
  obtain ⟨groups, hgroups, htokens⟩ := bind_eq_ok_iff.mp h
  obtain rfl := Except.ok.inj htokens
  obtain ⟨group, hgroup, hread⟩ :=
    exists_mem_of_forall₂ (mapM_eq_ok_iff.mp hgroups).flip hchunk
  refine ⟨group, hread, fun token htoken => ?_⟩
  exact List.mem_append_left _ (List.mem_flatten.mpr ⟨group, hgroup, htoken⟩)

/-- The names of a source hold characters of the source, and only such that words are made of. -/
theorem mem_of_mem_tokenize {source : List Char} {tokens : List Token}
    (h : tokenize source = .ok tokens) {token : Token} (htoken : token ∈ tokens)
    (hname : token.kind = .name) : ∀ c ∈ token.text.toList, c ∈ source ∧ isWordChar c = true := by
  obtain ⟨groups, hgroups, htokens⟩ := bind_eq_ok_iff.mp h
  obtain rfl := Except.ok.inj htokens
  rcases List.mem_append.mp htoken with hgroup | hlast
  · obtain ⟨group, hmem, htoken⟩ := List.mem_flatten.mp hgroup
    obtain ⟨chunk, hchunk, hread⟩ := exists_mem_of_forall₂ (mapM_eq_ok_iff.mp hgroups) hmem
    cases chunk with
    | word start text =>
      intro c hc
      exact mem_of_word_mem_chunks hchunk c (mem_of_mem_wordTokens hread htoken hname c hc)
    | operator start c =>
      cases hread
      obtain rfl := List.mem_singleton.mp htoken
      simp only [Token.ofText] at hname
      split at hname <;> cases hname
  · obtain rfl := List.mem_singleton.mp hlast
    cases hname

end TreeSketch.Declarative
