import TreeSketch.Decimal.Text
import TreeSketch.Text.Class

/-!
# Strings of settings files

The four kinds of strings of TOML: *basic* strings with escapes and *literal* strings without, each on one
line or on several. A reader takes the text behind the opening quotes and gives the content of the string and
what follows the closing quotes.
-/

namespace TreeSketch.Toml

/-- What a reader gives: the value that it has read, and the text behind it. -/
abbrev Found (α : Type) := Option (α × List Char)

/-- The characters that cannot stand in a string or a comment as they are. -/
def isForbidden (c : Char) : Bool :=
  c ≠ '\t' && (c.toNat < 0x20 || c = '\x7f')

/-- Puts characters before the content of a string that goes on behind them. -/
def prepend (cs : List Char) : Found (List Char) → Found (List Char)
  | none => none
  | some (content, rest) => some (cs ++ content, rest)

/-- The character of a code point that is one. -/
def charOfCode? (code : Nat) : Option Char :=
  if code < 0xD800 || (0xDFFF < code && code < 0x110000) then some (Char.ofNat code) else none

/-- The character that `count` hexadecimal digits at the start of a text write, and the text behind it. -/
def readCode (count : Nat) (cs : List Char) : Found Char :=
  if cs.length < count then none
  else ((Decimal.parseNat? 16 (cs.take count)).bind charOfCode?).map fun c => (c, cs.drop count)

/-- The character that an escape behind a backslash stands for. -/
def readEscape : List Char → Found Char
  | 'b' :: cs => some ('\x08', cs)
  | 't' :: cs => some ('\t', cs)
  | 'n' :: cs => some ('\n', cs)
  | 'f' :: cs => some ('\x0c', cs)
  | 'r' :: cs => some ('\r', cs)
  | '"' :: cs => some ('"', cs)
  | '\\' :: cs => some ('\\', cs)
  | 'u' :: cs => readCode 4 cs
  | 'U' :: cs => readCode 8 cs
  | _ => none

theorem length_readCode {count : Nat} {cs : List Char} {c : Char} {rest : List Char}
    (h : readCode count cs = some (c, rest)) : rest.length ≤ cs.length := by
  unfold readCode at h
  split at h
  · simp at h
  · simp only [Option.map_eq_some_iff, Prod.mk.injEq] at h
    obtain ⟨_, _, _, rfl⟩ := h
    simp

theorem length_readEscape {cs : List Char} {c : Char} {rest : List Char}
    (h : readEscape cs = some (c, rest)) : rest.length < cs.length := by
  unfold readEscape at h
  split at h
  case h_8 | h_9 =>
    have := length_readCode h
    simp only [List.length_cons]
    omega
  case h_10 => simp at h
  all_goals
    simp only [Option.some.injEq, Prod.mk.injEq] at h
    obtain ⟨_, rfl⟩ := h
    simp

/-- The content of a basic string on one line. -/
def readBasic (cs : List Char) : Found (List Char) :=
  match cs with
  | [] => none
  | '"' :: rest => some ([], rest)
  | '\\' :: rest =>
    match h : readEscape rest with
    | none => none
    | some (c, behind) =>
      have := length_readEscape h
      prepend [c] (readBasic behind)
  | c :: rest => if isForbidden c then none else prepend [c] (readBasic rest)
termination_by cs.length
decreasing_by all_goals grind

/-- The content of a literal string on one line. -/
def readLiteral : List Char → Found (List Char)
  | [] => none
  | '\'' :: rest => some ([], rest)
  | c :: rest => if isForbidden c then none else prepend [c] (readLiteral rest)

/-- Three quotes end a string on several lines; up to two more before them belong to the string. -/
def readClosing (quote : Char) (cs : List Char) : Found (List Char) :=
  let count := min 5 (cs.takeWhile (· = quote)).length
  if count < 3 then none else some (List.replicate (count - 3) quote, cs.drop count)

/-- The text behind the line feed at its start, if there is one. -/
def dropNewline? : List Char → Option (List Char)
  | '\n' :: cs => some cs
  | '\r' :: '\n' :: cs => some cs
  | _ => none

/-- The text behind the blank rest of a line and all blank characters of the lines that follow, when a
backslash stands at the end of a line. -/
def dropContinuation? (cs : List Char) : Option (List Char) :=
  (dropNewline? (cs.dropWhile fun c => c = ' ' || c = '\t')).map fun rest =>
    rest.dropWhile fun c => c = ' ' || c = '\t' || c = '\n' || c = '\r'

/-- The content of a basic string on several lines. The fuel is the length of the text. -/
def readBasicLines : Nat → List Char → Found (List Char)
  | 0, _ | _, [] => none
  | fuel + 1, '"' :: rest =>
    match readClosing '"' ('"' :: rest) with
    | some found => some found
    | none => prepend ['"'] (readBasicLines fuel rest)
  | fuel + 1, '\\' :: rest =>
    match dropContinuation? rest with
    | some behind => readBasicLines fuel behind
    | none =>
      match readEscape rest with
      | some (c, behind) => prepend [c] (readBasicLines fuel behind)
      | none => none
  | fuel + 1, c :: rest =>
    match dropNewline? (c :: rest) with
    | some behind => prepend ['\n'] (readBasicLines fuel behind)
    | none => if isForbidden c then none else prepend [c] (readBasicLines fuel rest)

/-- The content of a literal string on several lines. The fuel is the length of the text. -/
def readLiteralLines : Nat → List Char → Found (List Char)
  | 0, _ | _, [] => none
  | fuel + 1, '\'' :: rest =>
    match readClosing '\'' ('\'' :: rest) with
    | some found => some found
    | none => prepend ['\''] (readLiteralLines fuel rest)
  | fuel + 1, c :: rest =>
    match dropNewline? (c :: rest) with
    | some behind => prepend ['\n'] (readLiteralLines fuel behind)
    | none => if isForbidden c then none else prepend [c] (readLiteralLines fuel rest)

/-- A string on one line, from its opening quote on. -/
def readShortString : List Char → Found (List Char)
  | '"' :: cs => readBasic cs
  | '\'' :: cs => readLiteral cs
  | _ => none

/-- A string of any kind, from its opening quotes on. A line feed behind three opening quotes is left
out. -/
def readString : List Char → Found (List Char)
  | '"' :: '"' :: '"' :: cs => readBasicLines (cs.length + 1) ((dropNewline? cs).getD cs)
  | '\'' :: '\'' :: '\'' :: cs => readLiteralLines (cs.length + 1) ((dropNewline? cs).getD cs)
  | cs => readShortString cs

end TreeSketch.Toml
