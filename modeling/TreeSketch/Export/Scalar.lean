import TreeSketch.Decimal.Binary64
import TreeSketch.Text.Trim

/-!
# YAML scalars

How a text is written as a YAML value so that it is read back as that text. A text that YAML would read as
something else (`readsAsOther`) is quoted; a text with line feeds becomes a literal block; any other text
stands as it is where the syntax allows it (`allowsPlain`), and is quoted where not. Double quotes, the only
style that can write every character, come last.
-/

namespace TreeSketch.Yaml

/-! ## Characters -/

/-- The characters that end a line in YAML. -/
def isBreak (c : Char) : Bool :=
  c = '\r' || c = '\n' || c = '\u0085' || c = '\u2028' || c = '\u2029'

/-- The characters that separate in YAML. -/
def isSpacing (c : Char) : Bool :=
  c = ' ' || c = '\t' || c = '\x00' || isBreak c

/-- The characters that only double quotes can hold. -/
def isSpecial (c : Char) : Bool :=
  let n := c.toNat
  (n < 0x20 && c ≠ '\n') || (0x7F ≤ n && n < 0xA0) || n = 0xFEFF || n = 0xFFFE || n = 0xFFFF

/-- The characters that mean something at the start of a value. -/
def isIndicator (c : Char) : Bool :=
  "#,[]\x7b\x7d&*!|>'\"%@`".toList.contains c

/-- The characters that mean something at the start of a value when nothing follows them directly. -/
def isLooseIndicator (c : Char) : Bool :=
  c = '?' || c = ':' || c = '-'

/-! ## Texts that YAML takes for something else -/

/-- The words for nothing and for the truth values. -/
def reservedWords : List String :=
  ["", "null", "Null", "NULL", "~", "true", "True", "TRUE", "false", "False", "FALSE"]

/-- The words for what is no number, and for an infinite number without its sign. -/
def notANumberWords : List String := [".nan", ".NaN", ".NAN"]

/-- The words for an infinite number without its sign. -/
def infiniteWords : List String := [".inf", ".Inf", ".INF"]

/-- The digits behind the sign start with a zero that is not the only one: a text after all, but one that
older readers take for an octal number. -/
def isZeroPadded (cs : List Char) : Bool :=
  match (Decimal.splitSign cs).2 with
  | '0' :: digit :: rest => (digit :: rest).all Char.isDigit
  | _ => false

/-- The greatest natural number that is read as an integer. -/
def greatestNatural : Nat := Nat.pow 2 128 - 1

/-- The greatest natural number whose negative is read as an integer. -/
def greatestNegated : Nat := Nat.pow 2 127

/-- The natural number that digits behind the mark of their base write. -/
def markedNatural? : List Char → Option Nat
  | '0' :: 'x' :: cs => Decimal.parseNat? 16 cs
  | '0' :: 'o' :: cs => Decimal.parseNat? 8 cs
  | '0' :: 'b' :: cs => Decimal.parseNat? 2 cs
  | _ => none

/-- The text is an integer that fits. -/
def isInteger (cs : List Char) : Bool :=
  let (negative, unsigned) := Decimal.splitSign cs
  let limit := if negative then greatestNegated else greatestNatural
  let marked := (markedNatural? unsigned).any (· ≤ limit)
  let plain := !isZeroPadded cs && (Decimal.parseNat? 10 unsigned).any (· ≤ limit)
  marked || plain

/-- The text without one plus sign at the start. -/
def dropPlus : List Char → List Char
  | '+' :: cs => cs
  | cs => cs

/-- The text is a floating point number: a word for one, or a number that is finite in 64 bits. -/
def isFloat (cs : List Char) : Bool :=
  let unsigned := (Decimal.splitSign cs).2
  let positive := dropPlus cs
  let secondSign := positive.length < cs.length && (positive.head? = some '-' || positive.head? = some '+')
  infiniteWords.contains (String.ofList unsigned) ||
    notANumberWords.contains (String.ofList cs) ||
    (!secondSign && (Decimal.parse? positive).any fun n => (Binary64.round n).isFinite)

/-- A plain value of this text would be read as something other than the text. -/
def readsAsOther (cs : List Char) : Bool :=
  reservedWords.contains (String.ofList cs) || isInteger cs || isFloat cs || isZeroPadded cs

/-! ## Styles -/

/-- A place of the text where `p` holds of a character and `q` of the one behind it. -/
def hasNeighbours (p q : Char → Bool) : List Char → Bool
  | c :: d :: cs => (p c && q d) || hasNeighbours p q (d :: cs)
  | _ => false

/-- The text starts with the mark of a document's start or end. -/
def startsDocument (cs : List Char) : Bool :=
  cs.take 3 = ['-', '-', '-'] || cs.take 3 = ['.', '.', '.']

/-- The first character makes a value of another form of the text. -/
def startsOtherForm : List Char → Bool
  | [] => false
  | c :: cs => isIndicator c || (isLooseIndicator c && (cs.head?.map isSpacing).getD true)

/-- A colon behind the first character ends a key, or a number sign behind a blank starts a comment. -/
def holdsSeparator (cs : List Char) : Bool :=
  let later := cs.drop 1
  hasNeighbours (· = ':') isSpacing later || later.getLast? = some ':' ||
    hasNeighbours isSpacing (· = '#') cs

/-- A blank that a reader would fold away: a space beside a line's end. -/
def hasFoldedSpace (cs : List Char) : Bool :=
  hasNeighbours isBreak (· = ' ') cs || hasNeighbours (· = ' ') isBreak cs

/-- The text can stand without quotes. -/
def allowsPlain (cs : List Char) : Bool :=
  !startsDocument cs && !startsOtherForm cs && !holdsSeparator cs && !cs.any isBreak &&
    !cs.any isSpecial && cs.head? ≠ some ' ' && cs.getLast? ≠ some ' '

/-- The text can stand between single quotes. -/
def allowsSingle (cs : List Char) : Bool :=
  !cs.any isSpecial && !hasFoldedSpace cs

/-- The text can stand in a literal block. -/
def allowsLiteral (cs : List Char) : Bool :=
  !cs.any isSpecial && !hasNeighbours (· = ' ') isBreak cs && cs.getLast? ≠ some ' '

/-- The upper-case hexadecimal digits of a number, padded to `width`. -/
def paddedHex (width n : Nat) : List Char :=
  let digits := (Nat.toDigits 16 n).map Char.toUpper
  List.replicate (width - digits.length) '0' ++ digits

/-- A character between double quotes. -/
def escapeDouble (c : Char) : List Char :=
  if c = '\x00' then ['\\', '0']
  else if c = '\x07' then ['\\', 'a']
  else if c = '\x08' then ['\\', 'b']
  else if c = '\t' then ['\\', 't']
  else if c = '\n' then ['\\', 'n']
  else if c = '\x0b' then ['\\', 'v']
  else if c = '\x0c' then ['\\', 'f']
  else if c = '\r' then ['\\', 'r']
  else if c = '\x1b' then ['\\', 'e']
  else if c = '"' then ['\\', '"']
  else if c = '\\' then ['\\', '\\']
  else if c = '\u0085' then ['\\', 'N']
  else if c = '\u2028' then ['\\', 'L']
  else if c = '\u2029' then ['\\', 'P']
  else if isSpecial c then
    if c.toNat ≤ 0xFF then ['\\', 'x'] ++ paddedHex 2 c.toNat
    else ['\\', 'u'] ++ paddedHex 4 c.toNat
  else [c]

/-- The text between double quotes. -/
def doubleQuoted (cs : List Char) : List Char :=
  '"' :: cs.flatMap escapeDouble ++ ['"']

/-- The characters between single quotes, with the indentation `margin` behind the ends of lines. A
character follows the end of a line if `fresh`. -/
def singleBody (margin : List Char) (fresh : Bool) : List Char → List Char
  | [] => if fresh then margin else []
  | c :: cs =>
    if isBreak c then c :: singleBody margin true cs
    else
      let shown := if c = '\'' then ['\'', '\''] else [c]
      (if fresh then margin else []) ++ shown ++ singleBody margin false cs

/-- The text between single quotes. -/
def singleQuoted (margin : List Char) (cs : List Char) : List Char :=
  '\'' :: singleBody margin false cs ++ ['\'']

/-- The lines of a literal block, each that is not empty behind the indentation `margin`. -/
def literalBody (margin : List Char) (fresh : Bool) : List Char → List Char
  | [] => []
  | c :: cs =>
    if isBreak c then c :: literalBody margin true cs
    else (if fresh then margin else []) ++ c :: literalBody margin false cs

/-- How the line feeds at the end of a literal block are to be read: dropped, kept as one, or all kept. -/
def chomping (cs : List Char) : List Char :=
  match cs.reverse with
  | [] => ['-']
  | [last] => if isBreak last then ['+'] else ['-']
  | last :: before :: _ => if !isBreak last then ['-'] else if isBreak before then ['+'] else []

/-- The text as a literal block, its end of line included. -/
def literal (margin : List Char) (cs : List Char) : List Char :=
  let hint := if (cs.head?.map fun c => c = ' ' || isBreak c).getD false then ['2'] else []
  let ending := if (cs.getLast?.map isBreak).getD false then [] else ['\n']
  '|' :: hint ++ chomping cs ++ '\n' :: literalBody margin true cs ++ ending

/-- The text behind the key of a mapping whose keys stand in the column `column`, its end of line
included. -/
def scalar (column : Nat) (text : String) : String :=
  let cs := text.toList
  let margin := List.replicate (column + 2) ' '
  let quoted := if allowsSingle cs then singleQuoted margin cs else doubleQuoted cs
  String.ofList <|
    if cs.contains '\n' then
      if allowsLiteral cs then literal margin cs else doubleQuoted cs ++ ['\n']
    else if !readsAsOther cs && allowsPlain cs then cs ++ ['\n']
    else quoted ++ ['\n']

end TreeSketch.Yaml
