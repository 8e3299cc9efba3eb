import TreeSketch.Proofs.Declarative.Lexis
import TreeSketch.Proofs.Declarative.Script

/-!
# The words that entries come from

Every entry of a tree comes from one word of its source: from a word that is a name as a whole (`Literal`), or
from a hint, whose name is balanced (`worded_of_parse`). A name that was written without a hint can be written so
again, and a directory always can, with a slash behind its name (`literal_diagramLabel`). The name of a file that
was hinted may look like a hint itself, and then it cannot.
-/

namespace TreeSketch.Declarative

open Diagram (readsAsName)

/-- The word is read as a name, all of it. -/
structure Literal (word : List Char) : Prop where
  chars : ∀ c ∈ word, isWordChar c = true
  clean : Clean word
  not_encloses : ∀ kind inner, ¬ Encloses kind inner word
  not_leavesOpen : ∀ kind, ¬ LeavesOpen kind word
  covered : Covered 0 word

/-- What one word of a source says about an entry. -/
inductive Worded : Label → Prop
  | literal {word : List Char} (h : Literal word) : Worded (wordLabel (String.ofList word))
  | hint {kind : Kind} {inner : List Char} (hchars : ∀ c ∈ inner, isWordChar c = true) (hclean : Clean inner)
    (hinner : Balanced inner) : Worded ⟨String.ofList inner, some ⟨kind, .hint⟩⟩

variable {index : Text.LineIndex}

theorem Literal.wordTokens_eq {word : List Char} (h : Literal word) (index : Text.LineIndex) (start : Nat) :
    wordTokens index start word = .ok [.ofText .name word start] :=
  wordTokens_of_yields (.name h.clean h.not_encloses h.not_leavesOpen (covered_zero_iff.mp h.covered))

/-- The name of an entry is part of its word. -/
theorem Worded.of_mem_name {label : Label} (h : Worded label) :
    ∀ c ∈ label.name.toList, isWordChar c = true ∧ Text.isControl c = false := by
  cases h with
  | @literal word hword =>
    have hsubset := (name_wordLabel (String.ofList word)).1.subset
    rw [String.toList_ofList] at hsubset
    exact fun c hc => ⟨hword.chars c (hsubset hc), hword.clean c (hsubset hc)⟩
  | hint hchars hclean hinner =>
    rw [String.toList_ofList]
    exact fun c hc => ⟨hchars c hc, hclean c hc⟩

/-! ## From words to entries -/

/-- The tokens of a word or an operator are read as one move. -/
theorem exists_move_of_yields {chunk : Chunk} {group rest : List Token} {moves : List Item}
    (hchars : ∀ start word, chunk = .word start word → ∀ c ∈ word, isWordChar c = true)
    (hgroup : chunk.Yields group) (h : items index (group ++ rest) = .ok moves) :
    ∃ move more, moves = move :: more ∧ items index rest = .ok more ∧
      ∀ label place, move = .entry label place → Worded label := by
  cases chunk with
  | operator start c =>
    rcases hgroup with ⟨-, rfl⟩ | ⟨-, rfl⟩
    · obtain ⟨more, hmore, rfl⟩ := map_eq_ok_iff.mp h
      exact ⟨_, more, rfl, hmore, nofun⟩
    · obtain ⟨more, hmore, rfl⟩ := map_eq_ok_iff.mp h
      exact ⟨_, more, rfl, hmore, nofun⟩
  | word start word =>
    have hword := hchars start word rfl
    cases hgroup with
    | name hclean hhint hopen hcovered =>
      obtain ⟨more, hmore, rfl⟩ := map_eq_ok_iff.mp h
      refine ⟨_, more, rfl, hmore, ?_⟩
      rintro _ _ ⟨⟩
      exact .literal ⟨hword, hclean, hhint, hopen, covered_zero_iff.mpr hcovered⟩
    | @hint kind inner hclean hencloses hne =>
      have hsubset : inner ⊆ word := by
        rw [hencloses.1]
        exact fun c hc => List.mem_append_left _ (List.mem_append_right _ hc)
      have hitems : items index (.ofText (hintTokens kind).1 (opening kind) start ::
          .ofText .name inner (start + 2) :: .ofText (hintTokens kind).2 [')']
            (start + 2 + Text.byteSize inner) :: rest) =
          (items index rest).map (.entry ⟨String.ofList inner, some ⟨kind, .hint⟩⟩
            (placeAt index (start + 2)) :: ·) := by
        cases kind <;> rfl
      obtain ⟨more, hmore, rfl⟩ := map_eq_ok_iff.mp (hitems.symm.trans h)
      refine ⟨_, more, rfl, hmore, ?_⟩
      rintro _ _ ⟨⟩
      exact .hint (fun c hc => hword c (hsubset hc)) (fun c hc => hclean c (hsubset hc)) hencloses.2

theorem worded_of_items {parts : List Chunk} {groups : List (List Token)} {moves : List Item} {stop : Nat}
    (hchars : ∀ start word, .word start word ∈ parts → ∀ c ∈ word, isWordChar c = true)
    (hparts : List.Forall₂ Chunk.Yields parts groups)
    (h : items index (groups.flatten ++ [Token.mark .endOfInput stop]) = .ok moves) :
    ∀ label place, .entry label place ∈ moves → Worded label := by
  induction hparts generalizing moves with
  | nil =>
    cases h
    exact nofun
  | @cons part group parts groups hpart _ ih =>
    rw [List.flatten_cons, List.append_assoc] at h
    obtain ⟨move, more, rfl, hmore, hmove⟩ := exists_move_of_yields
      (fun start word heq => hchars start word (heq ▸ List.mem_cons_self)) hpart h
    have hrest := ih (fun start word hmem => hchars start word (List.mem_cons_of_mem part hmem)) hmore
    intro label place hmem
    rcases List.mem_cons.mp hmem with heq | hmem
    · exact hmove label place heq.symm
    · exact hrest label place hmem

theorem Runs.exists_entry_mem {frames : Frames} {moves : List Item} {outline : Outline}
    (h : Runs frames moves outline) :
    ∀ entry ∈ outline, ∃ place, .entry entry.2 place ∈ moves := by
  have hskip (move : Item) {rest : List Item} {below : Outline}
      (ih : ∀ entry ∈ below, ∃ place, Item.entry entry.2 place ∈ rest) :
      ∀ entry ∈ below, ∃ place, Item.entry entry.2 place ∈ move :: rest := fun entry hentry => by
    obtain ⟨place, hplace⟩ := ih entry hentry
    exact ⟨place, List.mem_cons_of_mem move hplace⟩
  induction h with
  | done => exact nofun
  | @entry _ _ label place _ _ hwrite hrest ih =>
    exact List.forall_mem_cons.mpr ⟨⟨place, List.mem_cons_self⟩, hskip _ ih⟩
  | descend henter hrest ih => exact hskip _ ih
  | ascend hleave hrest ih => exact hskip _ ih

/-- Every entry of a tree is what one word of the source says, and what stands below it. -/
theorem worded_of_parse {source : String} {tree : Node} (h : parse source = .ok tree) :
    ∀ shown ∈ tree.walk, ∃ label, Worded label ∧ label.close shown.2.children = shown.2 := by
  obtain ⟨tokens, moves, outline, htokens, hmoves, hruns, hshows⟩ := exists_outline_of_parse h
  obtain ⟨-, parts, hcut, hread, -⟩ := tokenize_iff_yields source.toList
  obtain ⟨groups, hgroups, rfl⟩ := (hread tokens).mp htokens
  obtain rfl := (hcut (chunks 0 source.toList)).mp (cut_chunks 0 source.toList)
  have hworded := worded_of_items
    (fun start word hmem c hc => (mem_of_word_mem_chunks hmem c hc).2) hgroups hmoves
  intro shown hshown
  obtain ⟨entry, hentry, -, hclose⟩ := exists_mem_of_forall₂ hshows hshown
  obtain ⟨place, hplace⟩ := hruns.exists_entry_mem entry hentry
  exact ⟨entry.2, hworded entry.2 place hplace, hclose⟩

/-- The moves of a tree that are read from a source build the tree. -/
theorem parse_of_recites {source : String} {tree : Node} (h : Recites source.toList tree.moves)
    (hreads : ∀ entry ∈ tree.preorder 0, readsAsName entry.2.name.toList = true) :
    parse source = .ok tree := by
  obtain ⟨groups, moves, hgroups, hmoves, hsame⟩ :=
    h (Text.LineIndex.ofText source.toList) 0 (Text.byteSize source.toList)
  obtain ⟨outline, houtline, htrees⟩ := exists_outline_of_moves hsame hreads
  have htokens : tokenize source.toList = .ok (groups.flatten ++
      [Token.mark .endOfInput (Text.byteSize source.toList)]) :=
    bind_eq_ok_iff.mpr ⟨groups, hgroups, rfl⟩
  exact parse_eq_ok_iff.mpr ⟨_, moves, outline, htokens, hmoves, houtline, by rw [htrees]; rfl⟩

/-! ## Names that are written again -/

theorem Covered.of_isPrefix {depth : Nat} {start text : List Char} (h : Covered depth text)
    (hstart : start <+: text) : Covered depth start := fun more hmore =>
  h more (hmore.trans hstart)

theorem Covered.append {depth : Nat} {text more : List Char} (h : Covered depth text) (hmore : ')' ∉ more) :
    Covered depth (text ++ more) := by
  intro start hstart
  rcases List.prefix_or_prefix_of_prefix hstart (List.prefix_append text more) with hbefore | ⟨part, rfl⟩
  · exact h start hbefore
  · have hpart := (List.prefix_append_right_inj text).mp hstart
    have hnone : part.count ')' = 0 := List.count_eq_zero.mpr fun hmem => hmore (hpart.subset hmem)
    have hle := h text List.prefix_rfl
    simp only [List.count_append]
    omega

theorem Clean.of_subset {text more : List Char} (h : Clean text) (hsubset : more ⊆ text) : Clean more :=
  fun c hc => h c (hsubset hc)

/-- What follows a word that is open to the end leaves it open, if it closes nothing. -/
theorem LeavesOpen.append {kind : Kind} {word more : List Char} (h : LeavesOpen kind word)
    (hmore : ')' ∉ more) : LeavesOpen kind (word ++ more) := by
  obtain ⟨opened, rfl, hopened⟩ := h
  refine ⟨opened ++ more, List.append_assoc _ _ _, fun inner rest heq => ?_⟩
  rcases List.append_eq_append_iff.mp heq with ⟨part, rfl, hpart⟩ | ⟨part, hpart, hrest⟩
  · exact absurd (hpart ▸ List.mem_append_right part List.mem_cons_self) hmore
  · cases part with
    | nil =>
      rw [List.nil_append] at hrest
      exact absurd (hrest ▸ List.mem_cons_self) hmore
    | cons c part =>
      obtain ⟨rfl, -⟩ := List.cons.inj hrest
      exact hopened inner part hpart

/-- More is opened than closed in a word that is open to the end. -/
theorem LeavesOpen.count_lt {kind : Kind} {word : List Char} (h : LeavesOpen kind word) :
    word.count ')' < word.count '(' := by
  obtain ⟨opened, rfl, hopened⟩ := h
  have hstray : strayClose 0 0 opened = none := by
    rw [strayClose_eq, splitClose_eq_none_iff.mpr hopened]
    rfl
  have hle := strayClose_eq_none_iff_covered.mp hstray opened List.prefix_rfl
  have hopening : (opening kind).count ')' = 0 ∧ (opening kind).count '(' = 1 := by
    cases kind <;> exact ⟨rfl, rfl⟩
  simp only [List.count_append]
  omega

/-- What encloses something ends in a parenthesis. -/
theorem Encloses.getLast?_eq {kind : Kind} {inner word : List Char} (h : Encloses kind inner word) :
    word.getLast? = some ')' := by
  rw [h.1, List.getLast?_concat]

/-- One slash is as good as several. -/
theorem Literal.slash {name more : List Char} (h : Literal (name ++ '/' :: more)) (hmore : ')' ∉ more) :
    Literal (name ++ ['/']) := by
  have hword : name ++ '/' :: more = name ++ ['/'] ++ more := List.append_cons name '/' more
  rw [hword] at h
  have hsubset : name ++ ['/'] ⊆ name ++ ['/'] ++ more := List.subset_append_left _ _
  refine ⟨fun c hc => h.chars c (hsubset hc), h.clean.of_subset hsubset, ?_, fun kind hopen => ?_,
    h.covered.of_isPrefix (List.prefix_append _ _)⟩
  · intro kind inner hencloses
    simpa using hencloses.getLast?_eq
  · exact h.not_leavesOpen kind (hopen.append hmore)

/-- A balanced text that encloses nothing is a name. -/
theorem literal_of_balanced {text : List Char} (hchars : ∀ c ∈ text, isWordChar c = true)
    (hclean : Clean text) (hbalanced : Balanced text) (hhint : ∀ kind inner, ¬ Encloses kind inner text) :
    Literal text := by
  refine ⟨hchars, hclean, hhint, fun kind hopen => ?_, hbalanced.covered⟩
  have hlt := hopen.count_lt
  have htotal := hbalanced.total
  omega

theorem Balanced.concat_slash {text : List Char} (h : Balanced text) : Balanced (text ++ ['/']) := by
  refine ⟨h.covered.append (by decide), ?_⟩
  have htotal := h.total
  simp only [List.count_append]
  simpa using htotal

/-- A word is the name of its label, or this name and slashes. -/
theorem wordLabel_cases (word : List Char) :
    wordLabel (String.ofList word) = ⟨String.ofList word, none⟩ ∨
      ∃ name more, word = name ++ '/' :: more ∧ ')' ∉ more ∧
        wordLabel (String.ofList word) = ⟨String.ofList name, some ⟨.directory, .marker⟩⟩ := by
  rw [wordLabel, String.toList_ofList]
  split
  · exact Or.inl rfl
  · rename_i hname
    rw [Bool.or_eq_true, decide_eq_true_eq, decide_eq_true_eq, not_or] at hname
    obtain ⟨rest, hrest⟩ := Text.dropEndWhile_isPrefix (· = '/') word
    have hslashes : ∀ c ∈ rest, c = '/' := by
      have hword := List.rdropWhile_append_rtakeWhile (p := (· = '/')) (l := word)
      rw [← Text.dropEndWhile_eq_rdropWhile] at hword
      obtain rfl := List.append_cancel_left (hrest.trans hword.symm)
      intro c hc
      simpa using List.mem_rtakeWhile_imp hc
    cases rest with
    | nil => exact absurd (congrArg List.length (by rwa [List.append_nil] at hrest)) hname.2
    | cons c more =>
      obtain rfl := hslashes c List.mem_cons_self
      refine Or.inr ⟨_, more, hrest.symm, fun hmem => ?_, rfl⟩
      exact absurd (hslashes ')' (List.mem_cons_of_mem _ hmem)) (by decide)

/-- The line of an entry without entries below it is a word that is a name, unless the entry is a file whose name
encloses something. -/
theorem literal_diagramLabel {label : Label} {node : Node} (h : Worded label) (hclose : label.close [] = node)
    (hhint : node.isFile = true → ∀ kind inner, ¬ Encloses kind inner node.name.toList) :
    Literal node.diagramLabel.toList := by
  cases h with
  | @literal word hword =>
    rcases wordLabel_cases word with hlabel | ⟨name, more, rfl, hmore, hlabel⟩
    · have hkind : (Label.verdict ⟨String.ofList word, none⟩ []).kind = .file :=
        Verdict.infer_kind (String.ofList word) false
      rw [hlabel, Label.close, hkind] at hclose
      obtain rfl := hclose
      rwa [Node.diagramLabel, String.toList_ofList]
    · rw [hlabel] at hclose
      obtain rfl : Node.directory (String.ofList name) [] = node := hclose
      rw [Node.toList_diagramLabel_of_not_isFile rfl, Node.name, String.toList_ofList]
      exact hword.slash hmore
  | @hint kind inner hchars hclean hinner =>
    cases kind with
    | file =>
      obtain rfl : Node.file (String.ofList inner) = node := hclose
      have hencloses := hhint rfl
      rw [Node.name, String.toList_ofList] at hencloses
      rw [Node.diagramLabel, String.toList_ofList]
      exact literal_of_balanced hchars hclean hinner hencloses
    | directory =>
      obtain rfl : Node.directory (String.ofList inner) [] = node := hclose
      rw [Node.toList_diagramLabel_of_not_isFile rfl, Node.name, String.toList_ofList]
      refine literal_of_balanced ?_ ?_ hinner.concat_slash fun kind inner hencloses => ?_
      · simpa [or_imp, forall_and] using And.intro hchars (show isWordChar '/' = true by decide)
      · simpa [Clean, or_imp, forall_and] using
          And.intro hclean (show Text.isControl '/' = false by decide)
      · simpa using hencloses.getLast?_eq

end TreeSketch.Declarative
