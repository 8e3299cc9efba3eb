import TreeSketch.Proofs.Diagram.Fault
import TreeSketch.Proofs.Diagram.Isolation

/-!
# One tree or all of them

`parse` and `parseAll` read the same blocks, and `parse` stops after the first one. So `parse` gives the first of all
trees, and fails as `parseAll` does where the first block is at fault; and where only `parseAll` fails, the fault lies
below the lines of the first block (`parse_and_parseAll`).

Blocks stand one below the other: the entries of the first one stand above `firstBlockEnd`, and those of all others
below it (`line_lt_firstBlockEnd`, `firstBlockEnd_lt_line`).
-/

namespace TreeSketch.Diagram

/-! ## Lines of blocks -/

/-- The number of lines up to the end of the first block: those before its first entry, and those from there on up to a
line that separates blocks. -/
def firstBlockEnd (rows : List Row) : Nat :=
  (rows.takeWhile (!·.hasName)).length +
    ((rows.dropWhile (!·.hasName)).takeWhile (· ≠ .blank)).length

/-- Every entry stands on one of the lines. -/
theorem le_line_of_mem_splitBlocks {line : Nat} {rows : List Row} {entry : Entry}
    (h : entry ∈ (splitBlocks line rows).1 ++ (splitBlocks line rows).2.flatten) :
    line ≤ entry.line := by
  induction rows generalizing line with
  | nil => cases h
  | cons row rows ih =>
    cases row with
    | blank =>
      rw [splitBlocks_blank, List.nil_append, flatten_consBlock] at h
      exact Nat.le_of_succ_le (ih h)
    | entry margin name slashes =>
      by_cases hname : name = []
      · rw [splitBlocks_nameless hname] at h
        exact Nat.le_of_succ_le (ih h)
      · rw [splitBlocks_named hname, List.cons_append] at h
        rcases List.mem_cons.mp h with rfl | h
        · exact Nat.le_refl line
        · exact Nat.le_of_succ_le (ih h)

/-- The blocks behind a line that separates blocks stand below it. -/
theorem lt_line_of_mem_splitBlocks {line : Nat} {rows : List Row} {entry : Entry}
    (h : entry ∈ (splitBlocks line rows).2.flatten) :
    line + (rows.takeWhile (· ≠ .blank)).length < entry.line := by
  induction rows generalizing line with
  | nil => cases h
  | cons row rows ih =>
    cases row with
    | blank =>
      rw [splitBlocks_blank, flatten_consBlock] at h
      rw [List.takeWhile_cons_of_neg (by simp), List.length_nil]
      exact le_line_of_mem_splitBlocks h
    | entry margin name slashes =>
      rw [snd_splitBlocks_entry] at h
      have hline := ih h
      rw [List.takeWhile_cons_of_pos (by simp), List.length_cons]
      omega

/-- The entries before a line that separates blocks stand above it. -/
theorem line_lt_of_mem_splitBlocks {line : Nat} {rows : List Row} {entry : Entry}
    (h : entry ∈ (splitBlocks line rows).1) :
    entry.line < line + (rows.takeWhile (· ≠ .blank)).length := by
  induction rows generalizing line with
  | nil => cases h
  | cons row rows ih =>
    cases row with
    | blank => cases h
    | entry margin name slashes =>
      rw [List.takeWhile_cons_of_pos (by simp), List.length_cons]
      by_cases hname : name = []
      · rw [splitBlocks_nameless hname] at h
        have hline := ih h
        omega
      · rw [splitBlocks_named hname] at h
        rcases List.mem_cons.mp h with rfl | h
        · show line < _
          omega
        · have hline := ih h
          omega

/-- The first block starts with the first row that holds an entry. -/
theorem splitBlocks_of_blocksFrom {line : Nat} {rows : List Row} {first : List Entry}
    {rest : List (List Entry)} (h : blocksFrom line rows = first :: rest) :
    splitBlocks (line + (rows.takeWhile (!·.hasName)).length) (rows.dropWhile (!·.hasName)) =
      (first, rest) := by
  induction rows generalizing line with
  | nil => cases h
  | cons row rows ih =>
    have hskip (hsame : blocksFrom line (row :: rows) = blocksFrom (line + 1) rows)
        (hrow : row.hasName = false) :
        splitBlocks (line + ((row :: rows).takeWhile (!·.hasName)).length)
          ((row :: rows).dropWhile (!·.hasName)) = (first, rest) := by
      rw [List.takeWhile_cons_of_pos (by simp [hrow]), List.dropWhile_cons_of_pos (by simp [hrow]),
        List.length_cons, Nat.add_comm _ 1, ← Nat.add_assoc]
      exact ih (hsame.symm.trans h)
    cases row with
    | blank => exact hskip rfl rfl
    | entry margin name slashes =>
      by_cases hname : name = []
      · refine hskip ?_ (by simp [Row.hasName, hname])
        rw [blocksFrom, splitBlocks_nameless hname]
        rfl
      · have hrow : Row.hasName (.entry margin name slashes) = true := by simp [Row.hasName, hname]
        rw [List.takeWhile_cons_of_neg (by simp [hrow]), List.dropWhile_cons_of_neg (by simp [hrow]),
          List.length_nil, Nat.add_zero]
        rw [blocksFrom, splitBlocks_named hname] at h
        obtain ⟨rfl, rfl⟩ := List.cons.inj h
        rw [splitBlocks_named hname]

section FirstBlock

variable {line : Nat} {rows : List Row} {first : List Entry} {rest : List (List Entry)} {entry : Entry}

/-- The entries of the first block stand before its end, -/
theorem line_lt_firstBlockEnd (h : blocksFrom line rows = first :: rest) (hentry : entry ∈ first) :
    entry.line < line + firstBlockEnd rows := by
  have hmem : entry ∈ (splitBlocks (line + (rows.takeWhile (!·.hasName)).length)
      (rows.dropWhile (!·.hasName))).1 := by
    rw [splitBlocks_of_blocksFrom h]
    exact hentry
  rw [firstBlockEnd, ← Nat.add_assoc]
  exact line_lt_of_mem_splitBlocks hmem

/-- and those of the other blocks beyond it. -/
theorem firstBlockEnd_lt_line (h : blocksFrom line rows = first :: rest)
    (hentry : entry ∈ rest.flatten) : line + firstBlockEnd rows < entry.line := by
  have hmem : entry ∈ (splitBlocks (line + (rows.takeWhile (!·.hasName)).length)
      (rows.dropWhile (!·.hasName))).2.flatten := by
    rw [splitBlocks_of_blocksFrom h]
    exact hentry
  rw [firstBlockEnd, ← Nat.add_assoc]
  exact lt_line_of_mem_splitBlocks hmem

end FirstBlock

/-! ## The first tree -/

theorem Entry.Faults.line?_eq {entry : Entry} {fault : ParseError} (h : entry.Faults fault) :
    fault.line? = some entry.line := by
  cases h <;> rfl

/-- What is read as all trees starts with what is read as the first one. -/
theorem parse_of_parseAll {source : String} {trees : List Node} (h : parseAll source = .ok trees) :
    ∃ first rest, trees = first :: rest ∧ parse source = .ok first := by
  obtain ⟨blocks, forests, hblocks, hforests, rfl⟩ := exists_blocks_of_parseAll h
  obtain ⟨hne, hentries⟩ := ne_nil_of_readBlocks hblocks
  obtain ⟨block, others, rfl⟩ := List.exists_cons_of_ne_nil hne
  obtain ⟨shown, more, htrees, -, rfl⟩ := List.forall₂_cons_left_iff.mp hforests
  have hshown := Block.ne_nil_of_trees (hentries block List.mem_cons_self) htrees
  obtain ⟨first, rest, rfl⟩ := List.exists_cons_of_ne_nil hshown
  exact ⟨first, rest ++ more.flatten, rfl, parse_of_trees hblocks htrees⟩

/-- Where the first tree cannot be read, all trees cannot for the same fault. -/
theorem parseAll_of_parse_eq_error {source : String} {fault : ParseError}
    (h : parse source = .error fault) : parseAll source = .error fault := by
  rw [parse] at h
  rw [parseAll]
  rcases bind_eq_error_iff.mp h with hread | ⟨blocks, hblocks, h⟩
  · rw [hread]
    rfl
  · obtain ⟨hne, hentries⟩ := ne_nil_of_readBlocks hblocks
    obtain ⟨block, others, rfl⟩ := List.exists_cons_of_ne_nil hne
    rcases bind_eq_error_iff.mp h with htrees | ⟨trees, htrees, h⟩
    · have hforests : (block :: others).mapM Block.trees = .error fault :=
        mapM_eq_error_iff.mpr ⟨[], block, others, rfl, List.forall_mem_nil _, htrees⟩
      rw [hblocks]
      show List.mapM Block.trees (block :: others) >>= _ = _
      rw [hforests]
      rfl
    · -- A block with entries has a tree, so nothing else goes wrong.
      have hshown := Block.ne_nil_of_trees (hentries block List.mem_cons_self) htrees
      obtain ⟨first, rest, rfl⟩ := List.exists_cons_of_ne_nil hshown
      cases h

/-- Where only the first tree can be read, the fault is found beyond the end of the first block. -/
theorem firstBlockEnd_lt_of_parse {source : String} {tree : Node} {fault : ParseError}
    (h : parse source = .ok tree) (hall : parseAll source = .error fault) :
    ∃ line, fault.line? = some line ∧ firstBlockEnd (rows source.toList) < line := by
  obtain ⟨first, rest, more, hblocks, htrees⟩ := exists_block_of_parse h
  have hsplit : blocksFrom 1 (rows source.toList) = first :: rest :=
    (eq_blocksOf_of_readBlocks hblocks).symm
  have hforests : (first :: rest).mapM Block.trees = .error fault := by
    rw [parseAll, hblocks] at hall
    change (first :: rest).mapM Block.trees >>= _ = _ at hall
    rcases bind_eq_error_iff.mp hall with hforests | ⟨_, -, hall⟩
    · exact hforests
    · cases hall
  obtain ⟨block, hblock, hfault⟩ := exists_mem_of_mapM_eq_error hforests
  have hlater : block ∈ rest := by
    refine (List.mem_cons.mp hblock).resolve_left ?_
    rintro rfl
    rw [htrees] at hfault
    cases hfault
  obtain ⟨entry, hentry, hfaults⟩ := Block.exists_faults_of_trees hfault
  have hline := firstBlockEnd_lt_line hsplit (List.mem_flatten.mpr ⟨block, hlater, hentry⟩)
  exact ⟨entry.line, hfaults.line?_eq, by omega⟩

/-- To read one tree and to read all of them agree.

* All trees are at least one, and the first of them is the one that is read alone.
* A fault that is found with one tree is found with all of them.
* A fault that is found only with all of them lies below the first block. -/
theorem parse_and_parseAll (source : String) :
    (∀ trees, parseAll source = .ok trees →
      ∃ first rest, trees = first :: rest ∧ parse source = .ok first) ∧
    (∀ fault, parse source = .error fault → parseAll source = .error fault) ∧
    (∀ tree fault, parse source = .ok tree → parseAll source = .error fault →
      ∃ line, fault.line? = some line ∧ firstBlockEnd (rows source.toList) < line) :=
  ⟨fun _ h => parse_of_parseAll h, fun _ h => parseAll_of_parse_eq_error h,
    fun _ _ h hall => firstBlockEnd_lt_of_parse h hall⟩

/-- The first block ends with the second line, and the entry on the sixth has no place in the second one. -/
theorem parse_and_parseAll_six :
    let source := "a/\n└── b\n\nr\n  x\n   y\n"
    let fault := ParseError.inconsistentIndent 6 (.partialUnit 3 2)
    parse source = .ok (.directory "a" [.file "b"]) ∧ parseAll source = .error fault ∧
      firstBlockEnd (rows source.toList) = 2 ∧
      ∃ line, fault.line? = some line ∧ firstBlockEnd (rows source.toList) < line := by
  intro source fault
  have hparse : parse source = .ok (.directory "a" [.file "b"]) := by decide +kernel
  have hall : parseAll source = .error fault := by decide +kernel
  exact ⟨hparse, hall, by decide +kernel, (parse_and_parseAll source).2.2 _ _ hparse hall⟩

end TreeSketch.Diagram
