import TreeSketch.Decimal.Text
import TreeSketch.Settings.Value

/-!
# Key paths

A setting inside others is named by a path such as `create.dry_run` or `list[0].name`: names joined by dots,
each followed by any number of positions in square brackets.
-/

namespace TreeSketch.KeyPath

/-- The characters that names in a key path are made of. -/
def isNameChar (c : Char) : Bool :=
  c.isAlphanum || c = '_' || c = '-' || c = ' '

/-- Reads the name at the start of a text, which has at least one character. -/
private def name? (cs : List Char) : Option (String × List Char) :=
  match cs.takeWhile isNameChar with
  | [] => none
  | name => some (String.ofList name, cs.dropWhile isNameChar)

/-- The characters that may stand around a position. -/
def isPadding (c : Char) : Bool :=
  c = ' ' || c = '\t'

/-- The least and the greatest position. -/
def positionBounds : Int × Int :=
  (-Int.pow 2 63, Int.pow 2 63 - 1)

/-- Reads the position behind an opening bracket. -/
private def index? (cs : List Char) : Option (Int × List Char) := do
  let start := cs.dropWhile isPadding
  let (negative, unsigned) := match start with
    | '-' :: rest => (true, rest)
    | _ => (false, start)
  let n ← Decimal.parseNat? 10 (unsigned.takeWhile Char.isDigit)
  let position : Int := if negative then -n else n
  match (unsigned.dropWhile Char.isDigit).dropWhile isPadding with
  | ']' :: rest =>
    if positionBounds.1 ≤ position && position ≤ positionBounds.2 then some (position, rest) else none
  | _ => none

/-- Reads the steps behind the first name. Each takes at least one character, so `fuel` can be the length
of the text. -/
private def steps? : Nat → List Char → Option (List KeyStep)
  | _, [] => some []
  | 0, _ => none
  | fuel + 1, '.' :: cs => do
    let (key, rest) ← name? cs
    return .name key :: (← steps? fuel rest)
  | fuel + 1, '[' :: cs => do
    let (position, rest) ← index? cs
    return .index position :: (← steps? fuel rest)
  | _ + 1, _ => none

/-- Reads a key path. -/
def parse? (text : String) : Option (List KeyStep) := do
  let (key, rest) ← name? text.toList
  return .name key :: (← steps? rest.length rest)

end TreeSketch.KeyPath
