import TreeSketch.Diagram.Parser
import TreeSketch.Proofs.Checked.Position
import TreeSketch.Proofs.Checked.Rows

/-!
# Blocks by tokens

The blocks of a diagram from its tokens. A reader keeps what the tokens of a line have said so far, and at
the end of the line it makes an entry of it; margins and names are cut out of the source by the offsets of
their tokens. Tokens that the lexer of diagrams does not make are traps.

`readBlocks_eq` says that every cut gives the text of its token and that the blocks are those of the rows.
-/

namespace TreeSketch.Diagram.Checked

open Text (HasAt)
open TreeSketch.Checked

/-- What has been read of a diagram. -/
structure Reader where
  /-- The line that is being read. -/
  line : Nat
  /-- What its tokens have said. -/
  margin : List Char
  name : Option Token
  marked : Bool
  /-- The entries since the last line that separates blocks. -/
  block : List Entry
  /-- The blocks before it. -/
  blocks : List (List Entry)

/-- The text of a token. -/
def textOf (source : List Char) (token : Token) : TreeSketch.Checked ParseError (List Char) :=
  slice source token.start token.stop

namespace Reader

/-- Nothing has been read. -/
def start : Reader :=
  ⟨1, [], none, false, [], []⟩

/-- The entries since the last line that separates blocks, with that of the line that ends. -/
def entries (reader : Reader) (source : List Char) : TreeSketch.Checked ParseError (List Entry) :=
  match reader.name with
  | none => .ok reader.block
  | some name => do
    let text ← textOf source name
    return reader.block ++ [⟨reader.line, reader.margin, String.ofList text, reader.marked⟩]

/-- Ends a line. -/
def endLine (reader : Reader) (source : List Char) (separates : Bool) :
    TreeSketch.Checked ParseError Reader := do
  let block ← reader.entries source
  if separates && block ≠ [] then
    return ⟨reader.line + 1, [], none, false, [], reader.blocks ++ [block]⟩
  else
    return ⟨reader.line + 1, [], none, false, block, reader.blocks⟩

/-- Reads tokens. -/
def read (reader : Reader) (source : List Char) : List Token → TreeSketch.Checked ParseError Reader
  | [] => .ok reader
  | token :: rest =>
    match token.kind with
    | .margin => do
      let margin ← textOf source token
      read { reader with margin := margin } source rest
    | .name => read { reader with name := some token } source rest
    | .slash => read { reader with marked := true } source rest
    | .newline => do
      let next ← reader.endLine source false
      next.read source rest
    | .blankLine => do
      let next ← reader.endLine source true
      next.read source rest
    | .endOfInput => .ok reader
    | _ => fail .token

/-- The blocks that have been read. -/
def finish (reader : Reader) : TreeSketch.Checked ParseError (List (List Entry)) :=
  let blocks := if reader.block = [] then reader.blocks else reader.blocks ++ [reader.block]
  if blocks = [] then do
    let last ← minus reader.line 1
    refuse (.noEntries (max last 1))
  else
    .ok blocks

end Reader

/-- The blocks of a diagram. -/
def readBlocks (source : List Char) : TreeSketch.Checked ParseError (List (List Entry)) :=
  if Text.allBlank source then refuse .emptyInput
  else do
    let tokens ← tokenize source
    let reader ← Reader.start.read source tokens
    reader.finish

/-! ## Rows -/

namespace Reader

/-- The entry of a row. -/
def entryOf (line : Nat) : Row → List Entry
  | .blank => []
  | .entry margin name slashes =>
    if name = [] then [] else [⟨line, margin, String.ofList name, slashes ≠ 0⟩]

variable {source : List Char}

/-- A reader that has read nothing of its line. -/
def fresh (line : Nat) (block : List Entry) (blocks : List (List Entry)) : Reader :=
  ⟨line, [], none, false, block, blocks⟩

/-- The tokens of a line that separates blocks end the block before it. -/
theorem read_blank (start width line : Nat) (block : List Entry) (blocks : List (List Entry))
    (rest : List Token) :
    (fresh line block blocks).read source (Row.blank.tokens start width ++ rest) =
      (fresh (line + 1) [] (if block = [] then blocks else blocks ++ [block])).read source rest := by
  rw [Row.tokens, List.singleton_append, read]
  by_cases hblock : block = []
  · simp [endLine, entries, fresh, hblock]
  · simp [endLine, entries, fresh, hblock]

/-- The tokens of a margin and a name that stand in the source are read as an entry, if the name is not
empty. -/
theorem read_entry {start : Nat} {margin name : List Char} (h : HasAt source start (margin ++ name))
    (slashes width line : Nat) (block : List Entry) (blocks : List (List Entry)) (rest : List Token) :
    (fresh line block blocks).read source ((Row.entry margin name slashes).tokens start width ++ rest) =
      (fresh (line + 1) (block ++ entryOf line (.entry margin name slashes)) blocks).read source
        rest := by
  have hmargin : textOf source (.ofText .margin margin start) = .ok margin :=
    slice_of_hasAt h.left rfl
  have hname : textOf source (.ofText .name name (start + Text.byteSize margin)) = .ok name :=
    slice_of_hasAt h.right rfl
  have hreadMargin (more : List Token) :
      (fresh line block blocks).read source
          ((if margin = [] then [] else [.ofText .margin margin start]) ++ more) =
        (⟨line, margin, none, false, block, blocks⟩ : Reader).read source more := by
    by_cases hne : margin = []
    · rw [if_pos hne, hne]
      rfl
    · rw [if_neg hne, List.singleton_append, read]
      show textOf source (.ofText .margin margin start) >>= _ = _
      rw [hmargin]
      rfl
  rw [Row.tokens]
  simp only [List.append_assoc, hreadMargin]
  -- What is left is the name with its slashes, and the end of the line.
  by_cases hne : name = []
  · simp [hne, entryOf, read, Token.mark, endLine, entries, fresh]
  · have hentries (marked : Bool) :
        (⟨line, margin, some (.ofText .name name (start + Text.byteSize margin)), marked, block,
          blocks⟩ : Reader).entries source =
          .ok (block ++ [⟨line, margin, String.ofList name, marked⟩]) := by
      show textOf source (.ofText .name name (start + Text.byteSize margin)) >>= _ = _
      rw [hname]
      rfl
    have hreadName (more : List Token) :
        (⟨line, margin, none, false, block, blocks⟩ : Reader).read source
            (.ofText .name name (start + Text.byteSize margin) :: more) =
          (⟨line, margin, some (.ofText .name name (start + Text.byteSize margin)), false, block,
            blocks⟩ : Reader).read source more := rfl
    rw [if_neg hne, List.singleton_append, hreadName]
    by_cases hslashes : slashes = 0
    · simp [hne, hslashes, entryOf, read, Token.mark, endLine, hentries, fresh]
    · simp [hne, hslashes, entryOf, read, Token.mark, endLine, hentries, fresh]

/-! ## Lines -/

/-- The lines stand in the source one behind the other, from an offset on. -/
def Stand (source : List Char) (start : Nat) : List (List Char) → Prop
  | [] => True
  | line :: rest => HasAt source start line ∧ Stand source (start + Text.byteSize line + 1) rest

theorem Stand.left {start : Nat} {lines more : List (List Char)}
    (h : Stand source start (lines ++ more)) : Stand source start lines := by
  induction lines generalizing start with
  | nil => trivial
  | cons line lines ih => exact ⟨h.1, ih h.2⟩

/-- The pieces between the line feeds of a text stand where the text does. -/
theorem stand_pieces {start : Nat} {text : List Char} (h : HasAt source start text) :
    Stand source start (Text.pieces text) := by
  induction text generalizing start with
  | nil => exact ⟨h, trivial⟩
  | cons c text ih =>
    have hrest := ih h.tail
    rw [Text.pieces]
    split
    · rename_i hc
      subst hc
      exact ⟨(show HasAt source start ([] ++ '\n' :: text) from h).left, hrest⟩
    · have hjoin := Text.joinLines_pieces text
      split
      · exact ⟨h.head, trivial⟩
      · rename_i piece rest heq
        rw [heq] at hrest hjoin
        have hstarts : piece <+: text := by
          rw [← hjoin]
          cases rest with
          | nil => exact List.prefix_rfl
          | cons next rest => exact List.prefix_append _ _
        refine ⟨h.left_of_isPrefix (List.prefix_cons_inj c |>.mpr hstarts), ?_⟩
        rw [Text.byteSize_cons, ← Nat.add_assoc]
        exact hrest.2

theorem stand_rawLines (source : List Char) : Stand source 0 (Text.rawLines source) := by
  have h := stand_pieces (HasAt.self source)
  rw [Text.rawLines]
  split
  · rename_i hlast
    rw [← List.dropLast_append_getLast? [] hlast] at h
    exact h.left
  · exact h

/-- The reader when the rows of lines have been read. -/
def readRows (line : Nat) (block : List Entry) (blocks : List (List Entry)) : List Row → Reader
  | [] => fresh line block blocks
  | .blank :: rest => readRows (line + 1) [] (if block = [] then blocks else blocks ++ [block]) rest
  | row :: rest => readRows (line + 1) (block ++ entryOf line row) blocks rest

/-- The tokens of lines that stand in the source are read as their rows. -/
theorem read_lines {start : Nat} {lines : List (List Char)} (h : Stand source start lines)
    (line : Nat) (block : List Entry) (blocks : List (List Entry)) (offset : Nat) :
    (fresh line block blocks).read source
        (Diagram.tokensFrom start lines ++ [Token.mark .endOfInput offset]) =
      .ok (readRows line block blocks ((lines.map Text.dropReturn).map Row.ofLine)) := by
  induction lines generalizing start line block blocks with
  | nil => rfl
  | cons first rest ih =>
    rw [Diagram.tokensFrom, List.append_assoc, List.map_cons, List.map_cons]
    cases hrow : Row.ofLine (Text.dropReturn first) with
    | blank =>
      rw [read_blank, ih h.2]
      rfl
    | entry margin name slashes =>
      have hat := h.1.left_of_isPrefix
        ((Row.isPrefix_of_ofLine hrow).trans (Text.dropReturn_isPrefix first))
      rw [← List.append_assoc] at hat
      rw [read_entry hat.left, ih h.2]
      rfl

/-- The blocks that are read from rows. -/
theorem finish_readRows {line : Nat} (hline : 1 ≤ line) (block : List Entry)
    (blocks : List (List Entry)) (rows : List Row) :
    (readRows line block blocks rows).finish =
      match blocks ++ consBlock (block ++ (splitBlocks line rows).1) (splitBlocks line rows).2 with
      | [] => refuse (.noEntries (max (line + rows.length - 1) 1))
      | first :: more => .ok (first :: more) := by
  induction rows generalizing line block blocks with
  | nil =>
    have hlast : (minus line 1 : TreeSketch.Checked ParseError Nat) = .ok (line - 1) :=
      minus_of_le hline
    rw [readRows, finish, splitBlocks, consBlock, List.append_nil]
    by_cases hblock : block = []
    · cases blocks <;> simp [fresh, hblock, hlast]
    · cases blocks <;> simp [fresh, hblock]
  | cons row rest ih =>
    have hlength : line + (row :: rest).length = line + 1 + rest.length := by
      rw [List.length_cons]
      omega
    rw [hlength]
    cases row with
    | blank =>
      rw [readRows, ih (Nat.le_succ_of_le hline), splitBlocks, List.append_nil, List.nil_append]
      have hblocks : (if block = [] then blocks else blocks ++ [block]) ++
            consBlock (splitBlocks (line + 1) rest).1 (splitBlocks (line + 1) rest).2 =
          blocks ++ consBlock block
            (consBlock (splitBlocks (line + 1) rest).1 (splitBlocks (line + 1) rest).2) := by
        rw [consBlock.eq_1 block]
        split
        · rfl
        · rw [List.append_assoc]
          rfl
      rw [hblocks]
    | entry margin name slashes =>
      have hfirst :
          block ++ entryOf line (.entry margin name slashes) ++ (splitBlocks (line + 1) rest).1 =
            block ++ (splitBlocks line (.entry margin name slashes :: rest)).1 := by
        rw [entryOf, splitBlocks]
        split
        · simp [*]
        · simp [*]
      have hmore : (splitBlocks line (.entry margin name slashes :: rest)).2 =
          (splitBlocks (line + 1) rest).2 := by
        rw [splitBlocks]
        by_cases hname : name = [] <;> simp [hname]
      have hread : readRows line block blocks (.entry margin name slashes :: rest) =
          readRows (line + 1) (block ++ entryOf line (.entry margin name slashes)) blocks rest := rfl
      rw [hread, ih (Nat.le_succ_of_le hline), hfirst, hmore]

end Reader

/-- The blocks of a diagram by its tokens are its blocks: no access to the source fails. -/
theorem readBlocks_eq (source : List Char) :
    readBlocks source = lift (Diagram.readBlocks source) := by
  rw [readBlocks, Diagram.readBlocks]
  split
  · rfl
  · have hread := Reader.read_lines (Reader.stand_rawLines source) 1 [] [] (Text.byteSize source)
    have hfinish := Reader.finish_readRows (Nat.le_refl 1) [] [] (rows source)
    rw [List.nil_append, List.nil_append, Nat.add_sub_cancel_left] at hfinish
    rw [tokenize_eq, ok_bind]
    show Reader.read (Reader.fresh 1 [] []) source (Diagram.tokenize source) >>= _ = _
    rw [Diagram.tokenize, hread, ok_bind]
    refine hfinish.trans ?_
    simp only [blocksOf]
    cases consBlock (splitBlocks 1 (rows source)).1 (splitBlocks 1 (rows source)).2 <;> rfl

end TreeSketch.Diagram.Checked
