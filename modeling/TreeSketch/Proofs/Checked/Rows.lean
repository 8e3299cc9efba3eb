import TreeSketch.Diagram.Lexer
import TreeSketch.Proofs.Checked.Access
import TreeSketch.Proofs.Diagram.Margin
import TreeSketch.Proofs.Diagram.Row
import TreeSketch.Proofs.Text.Lines
import TreeSketch.Proofs.Text.Trim

/-!
# Diagram lines by offsets

The tokens of a diagram, with the texts of margins and names cut out of their line: the margin up to its
width in bytes, the rest behind it and the part of the rest before a comment. `tokenize_eq` says that
every cut falls on the border of two characters, and that the tokens are those of the rows.

The test whether a name comes back from a diagram runs the lexer twice, and so it has its answer as well
(`readsAsName_eq`).
-/

namespace TreeSketch.Diagram.Checked

open Text (HasAt)
open TreeSketch.Checked

variable {ε : Type}

/-- What a comment at the end of a text leaves of it. -/
def beforeComment (rest : List Char) : TreeSketch.Checked ε (List Char) :=
  let kept := Row.cutComment rest
  if kept.length < rest.length then slice rest 0 (Text.byteSize kept) else .ok rest

/-- The tokens of an entry in what follows a margin; the text starts at `start`. -/
def entryTokens (rest : List Char) (start : Nat) : TreeSketch.Checked ε (List Token) :=
  if Row.isComment rest then .ok []
  else do
    let uncommented ← beforeComment rest
    let content := Text.trimEnd uncommented
    let name := Text.dropEndWhile (· = '/') content
    if name = [] then return []
    else
      let nameStop := start + Text.byteSize name
      let nameToken : Token := ⟨.name, String.ofList name, start, nameStop⟩
      if Text.byteSize name < Text.byteSize content then
        return [nameToken, ⟨.slash, "/", nameStop, start + Text.byteSize content⟩]
      else return [nameToken]

/-- The token of a margin of `width` bytes at the start of a line, if there is one. -/
def marginTokens (line : List Char) (start width : Nat) : TreeSketch.Checked ε (List Token) :=
  if 0 < width then do
    let margin ← slice line 0 width
    return [⟨.margin, String.ofList margin, start, start + width⟩]
  else .ok []

/-- The tokens of a line that starts at `start`. -/
def lineTokens (line : List Char) (start : Nat) : TreeSketch.Checked ε (List Token) :=
  let stop := start + Text.byteSize line
  if Text.allBlank line || Row.isReport line then .ok [⟨.blankLine, "", start, stop⟩]
  else if Row.isDecoration line then
    .ok [⟨.margin, String.ofList line, start, stop⟩, ⟨.newline, "", stop, stop⟩]
  else do
    let width := Text.byteSize (Margin.ofLine line)
    let marginTokens ← marginTokens line start width
    let rest ← slice line width (Text.byteSize line)
    let entryTokens ← entryTokens rest (start + width)
    return marginTokens ++ entryTokens ++ [⟨.newline, "", stop, stop⟩]

/-- The tokens of the pieces between line feeds, of which the first starts at `start`. An empty piece at
the end is no line. -/
def tokensFrom (start : Nat) : List (List Char) → TreeSketch.Checked ε (List Token)
  | [] => .ok []
  | line :: rest =>
    if rest = [] && line = [] then .ok []
    else do
      let tokens ← lineTokens (Text.dropReturn line) start
      let more ← tokensFrom (start + Text.byteSize line + 1) rest
      return tokens ++ more

/-- The tokens of a diagram. -/
def tokenize (source : List Char) : TreeSketch.Checked ε (List Token) := do
  let tokens ← tokensFrom 0 (Text.pieces source)
  return tokens ++ [⟨.endOfInput, "", Text.byteSize source, Text.byteSize source⟩]

/-- The tokens of the text have the given kinds, and one of them is the name `name`. -/
def readsAs (source : List Char) (kinds : List TokenKind) (name : List Char) :
    TreeSketch.Checked ε Bool := do
  let tokens ← tokenize source
  return tokens.map (·.kind) = kinds &&
    tokens.any fun token => token.isName && token.text = String.ofList name

/-- The name comes back from a diagram, from the line of the root and from behind a connector. -/
def readsAsName (name : List Char) : TreeSketch.Checked ε Bool :=
  if name.contains '\n' || name.contains '\r' then .ok false
  else do
    let alone ← readsAs name [.name, .newline, .endOfInput] name
    if alone then readsAs ("└── ".toList ++ name) [.margin, .name, .newline, .endOfInput] name
    else return false

/-! ## Cuts -/

/-- The slashes behind a name take a byte each. -/
theorem byteSize_content (content : List Char) :
    Text.byteSize content = Text.byteSize (Text.dropEndWhile (· = '/') content) +
      (content.length - (Text.dropEndWhile (· = '/') content).length) := by
  conv_lhs => rw [← Text.dropEndWhile_append_replicate '/' content]
  rw [Text.byteSize_append, Text.byteSize_slashes]

theorem byteSize_pos_iff {cs : List Char} : 0 < Text.byteSize cs ↔ cs ≠ [] := by
  cases cs with
  | nil => simp
  | cons c cs =>
    have := c.utf8Size_pos
    simp only [Text.byteSize_cons, ne_eq, List.cons_ne_nil, not_false_eq_true, iff_true]
    omega

theorem beforeComment_eq (rest : List Char) :
    (beforeComment rest : TreeSketch.Checked ε (List Char)) = .ok (Row.cutComment rest) := by
  have hkept := Row.cutComment_isPrefix rest
  rw [beforeComment]
  split
  · exact slice_of_hasAt ((HasAt.self rest).left_of_isPrefix hkept) (Nat.zero_add _).symm
  · rename_i hwhole
    rw [hkept.eq_of_length_le (Nat.le_of_not_lt hwhole)]

theorem entryTokens_eq (rest : List Char) (start : Nat) :
    (entryTokens rest start : TreeSketch.Checked ε (List Token)) =
      let content := Row.content rest
      let name := Text.dropEndWhile (· = '/') content
      let slashes := content.length - name.length
      .ok ((if name = [] then [] else [.ofText .name name start]) ++
        if name = [] || slashes = 0 then []
        else [⟨.slash, "/", start + Text.byteSize name, start + Text.byteSize name + slashes⟩]) := by
  rw [entryTokens, Row.content]
  by_cases hcomment : Row.isComment rest = true
  · rw [if_pos hcomment, if_pos hcomment]
    rfl
  · rw [if_neg hcomment, if_neg hcomment, beforeComment_eq, ok_bind]
    generalize Text.trimEnd (Row.cutComment rest) = content
    have hsize := byteSize_content content
    simp only []
    generalize Text.dropEndWhile (· = '/') content = name at hsize
    by_cases hname : name = []
    · simp [hname, pure, Except.pure]
    · by_cases hslashes : content.length - name.length = 0
      · rw [hslashes, Nat.add_zero] at hsize
        simp [hname, hslashes, hsize, Token.ofText, pure, Except.pure]
      · have hlt : Text.byteSize name < Text.byteSize content := by omega
        simp [hname, hslashes, if_pos hlt, Token.ofText, pure, Except.pure, Nat.add_assoc, ← hsize]

theorem marginTokens_eq {line margin : List Char} (h : HasAt line 0 margin) (start : Nat) :
    (marginTokens line start (Text.byteSize margin) : TreeSketch.Checked ε (List Token)) =
      .ok (if margin = [] then [] else [.ofText .margin margin start]) := by
  rw [marginTokens]
  by_cases hne : margin = []
  · rw [if_neg (by simp [hne]), if_pos hne]
  · rw [if_pos (byteSize_pos_iff.mpr hne), if_neg hne, slice_of_hasAt h (Nat.zero_add _).symm]
    rfl

/-- The cuts of a line fall on the borders of its margin and its content. -/
theorem lineTokens_eq (line : List Char) (start : Nat) :
    (lineTokens line start : TreeSketch.Checked ε (List Token)) =
      .ok ((Row.ofLine line).tokens start (Text.byteSize line)) := by
  rw [lineTokens, Row.ofLine]
  by_cases hblank : (Text.allBlank line || Row.isReport line) = true
  · rw [if_pos hblank, if_pos hblank]
    rfl
  · rw [if_neg hblank, if_neg hblank]
    by_cases hdecoration : Row.isDecoration line = true
    · have hne : line ≠ [] := by
        rintro rfl
        cases hdecoration
      rw [if_pos hdecoration, if_pos hdecoration, Row.tokens]
      simp [hne, Token.ofText, Token.mark]
    · have hwhole : HasAt line 0 (Margin.ofLine line ++ Margin.restOf line) := by
        rw [Margin.ofLine_append_restOf]
        exact HasAt.self line
      have hrest : (slice line (Text.byteSize (Margin.ofLine line)) (Text.byteSize line) :
          TreeSketch.Checked ε _) = .ok (Margin.restOf line) := by
        refine slice_of_hasAt (by simpa using hwhole.right) ?_
        rw [← Text.byteSize_append, Margin.ofLine_append_restOf]
      rw [if_neg hdecoration, if_neg hdecoration]
      simp only [marginTokens_eq hwhole.left, hrest, entryTokens_eq, ok_bind, Row.tokens,
        List.append_assoc]
      rfl

theorem tokensFrom_eq (pieces : List (List Char)) (start : Nat) :
    (tokensFrom start pieces : TreeSketch.Checked ε (List Token)) =
      .ok (Diagram.tokensFrom start
        (if pieces.getLast? = some [] then pieces.dropLast else pieces)) := by
  induction pieces generalizing start with
  | nil => rfl
  | cons line rest ih =>
    rw [tokensFrom]
    cases rest with
    | nil =>
      by_cases hline : line = []
      · subst hline
        rfl
      · simp [hline, lineTokens_eq, tokensFrom, Diagram.tokensFrom, pure, Except.pure]
    | cons next rest =>
      rw [if_neg (by simp), lineTokens_eq, ok_bind, ih, ok_bind, List.getLast?_cons_cons,
        List.dropLast_cons_cons]
      split <;> rfl

/-- The tokens of a diagram by its pieces are its tokens: no access to the source fails. -/
theorem tokenize_eq (source : List Char) :
    (tokenize source : TreeSketch.Checked ε (List Token)) = .ok (Diagram.tokenize source) := by
  rw [tokenize, tokensFrom_eq]
  rfl

theorem readsAs_eq (source : List Char) (kinds : List TokenKind) (name : List Char) :
    (readsAs source kinds name : TreeSketch.Checked ε Bool) =
      .ok (Diagram.readsAs source kinds name) := by
  rw [readsAs, tokenize_eq]
  rfl

theorem readsAsName_eq (name : List Char) :
    (readsAsName name : TreeSketch.Checked ε Bool) = .ok (Diagram.readsAsName name) := by
  rw [readsAsName, Diagram.readsAsName, readsAs_eq, readsAs_eq, ok_bind]
  cases name.contains '\n' <;> cases name.contains '\r' <;>
    cases Diagram.readsAs name [.name, .newline, .endOfInput] name <;> rfl

end TreeSketch.Diagram.Checked
