import TreeSketch.Settings.Value
import TreeSketch.Toml.Text

/-!
# Bare values of settings files

The values of TOML that stand without quotes or brackets: truth values, integers, floating point numbers,
dates and times. Each is one run of characters (`isBareChar`), read as a whole. A date or time is kept as its
text in the standard form.
-/

namespace TreeSketch.Toml

/-- The characters that bare values are made of. -/
def isBareChar (c : Char) : Bool :=
  c.isAlphanum || c = '+' || c = '-' || c = '.' || c = '_' || c = ':'

/-- Leaves out the underscores between digits; each has a digit on either side. -/
def joinDigits? (isDigit : Char → Bool) : List Char → Option (List Char)
  | [] => none
  | [c] => if isDigit c then some [c] else none
  | c :: '_' :: rest =>
    if isDigit c then (joinDigits? isDigit rest).map (c :: ·) else none
  | c :: rest => if isDigit c then (joinDigits? isDigit rest).map (c :: ·) else none

/-- The least and the greatest integer. -/
def integerBounds : Int × Int :=
  (-Int.pow 2 63, Int.pow 2 63 - 1)

/-- An integer, if it fits. -/
def boundedInteger? (n : Int) : Option Scalar :=
  if integerBounds.1 ≤ n && n ≤ integerBounds.2 then some (.integer n) else none

/-- The natural number behind the mark of its base. -/
def markedInteger? (base : Nat) (digits : List Char) : Option Scalar := do
  let joined ← joinDigits? (fun c => (Decimal.digitValue? base c).isSome) digits
  let n ← Decimal.parseNat? base joined
  boundedInteger? n

/-- The digits write a number without needless zeros at the start. -/
def isPlainNumber (digits : List Char) : Bool :=
  digits = ['0'] || digits.head? ≠ some '0'

/-- A decimal integer behind its sign. -/
def decimalInteger? (negative : Bool) (unsigned : List Char) : Option Scalar := do
  let digits ← joinDigits? Char.isDigit unsigned
  let n ← Decimal.parseNat? 10 digits
  if isPlainNumber digits then boundedInteger? (if negative then -(n : Int) else n) else none

/-- The digits of an exponent behind its sign, if the text is an exponent. -/
def exponentDigits? (text : List Char) : Option (List Char) :=
  match text with
  | [] => some []
  | c :: cs =>
    if c = 'e' || c = 'E' then
      let (negative, digits) := Decimal.splitSign cs
      (joinDigits? Char.isDigit digits).map fun joined =>
        'e' :: (if negative then ['-'] else []) ++ joined
    else none

/-- A floating point number behind its sign: it has a fraction or an exponent. -/
def decimalFloat? (negative : Bool) (unsigned : List Char) : Option Scalar := do
  let inNumber (c : Char) := c.isDigit || c = '_'
  let whole ← joinDigits? Char.isDigit (unsigned.takeWhile inNumber)
  let behind := unsigned.dropWhile inNumber
  let (fraction, rest) ← match behind with
    | '.' :: cs =>
      (joinDigits? Char.isDigit (cs.takeWhile inNumber)).map fun digits =>
        ('.' :: digits, cs.dropWhile inNumber)
    | cs => some ([], cs)
  let exponent ← exponentDigits? rest
  if !isPlainNumber whole || (fraction = [] && exponent = []) then none
  else
    let number ← Decimal.parse? (whole ++ fraction ++ exponent)
    let value := Binary64.round { number with negative := negative }
    if value.isFinite then some (.float value) else none

/-- A number behind its sign. -/
def number? (negative : Bool) (unsigned : List Char) : Option Scalar :=
  if unsigned = "inf".toList then some (.float (.infinite negative))
  else if unsigned = "nan".toList then some (.float .notANumber)
  else (decimalInteger? negative unsigned).or (decimalFloat? negative unsigned)

/-! ## Dates and times -/

/-- The number that the two digits of a text write, if it has two and the number is among `least`, …,
`greatest`. -/
def twoDigits? (least greatest : Nat) (text : List Char) : Option Nat :=
  if text.length = 2 && text.all Char.isDigit then
    (Decimal.parseNat? 10 text).filter fun n => least ≤ n && n ≤ greatest
  else none

/-- The number of days of a month. -/
def daysOf (year month : Nat) : Nat :=
  if month = 2 then
    if year % 4 = 0 && (year % 100 ≠ 0 || year % 400 = 0) then 29 else 28
  else if month = 4 || month = 6 || month = 9 || month = 11 then 30
  else 31

/-- The text is a date: a year of four digits, a month and a day. -/
def isDate (text : List Char) : Bool :=
  match text with
  | [y1, y2, y3, y4, '-', m1, m2, '-', d1, d2] =>
    if [y1, y2, y3, y4].all Char.isDigit then
      match Decimal.parseNat? 10 [y1, y2, y3, y4], twoDigits? 1 12 [m1, m2] with
      | some year, some month => (twoDigits? 1 (daysOf year month) [d1, d2]).isSome
      | _, _ => false
    else false
  | _ => false

/-- The difference to universal time in its standard form; the text may be empty. -/
def offset? (text : List Char) : Option (List Char) :=
  match text with
  | [] => some []
  | ['Z'] | ['z'] => some ['Z']
  | [sign, h1, h2, ':', m1, m2] =>
    if sign = '+' || sign = '-' then
      match twoDigits? 0 23 [h1, h2], twoDigits? 0 59 [m1, m2] with
      | some 0, some 0 => some ['+', '0', '0', ':', '0', '0']
      | some _, some _ => some text
      | _, _ => none
    else none
  | _ => none

/-- The fraction of a second in its standard form: at most nine places and no zeros at the end. -/
def secondFraction (digits : List Char) : List Char :=
  let kept := ((digits.take 9).reverse.dropWhile (· = '0')).reverse
  if kept = [] then [] else '.' :: kept

/-- A time in its standard form, and the text behind it. -/
def readTime : List Char → Found (List Char)
  | h1 :: h2 :: ':' :: m1 :: m2 :: ':' :: s1 :: s2 :: rest =>
    match twoDigits? 0 23 [h1, h2], twoDigits? 0 59 [m1, m2], twoDigits? 0 60 [s1, s2] with
    | some _, some _, some _ =>
      let clock := [h1, h2, ':', m1, m2, ':', s1, s2]
      match rest with
      | '.' :: digit :: behind =>
        if digit.isDigit then
          let digits := (digit :: behind).takeWhile Char.isDigit
          some (clock ++ secondFraction digits, (digit :: behind).dropWhile Char.isDigit)
        else none
      | _ => some (clock, rest)
    | _, _, _ => none
  | _ => none

/-- A date, a time, or both with or without the difference to universal time, in its standard form. -/
def moment? (text : List Char) : Option (List Char) :=
  let date := text.take 10
  if isDate date then
    match text.drop 10 with
    | [] => some date
    | c :: rest => do
      if c = 'T' || c = 't' || c = ' ' then
        let (clock, behind) ← readTime rest
        let offset ← offset? behind
        return date ++ 'T' :: clock ++ offset
      else none
  else
    match readTime text with
    | some (clock, []) => some clock
    | _ => none

/-! ## Bare values -/

/-- The value of a run of bare characters. -/
def scalar? (text : List Char) : Option Scalar :=
  if text = "true".toList then some (.boolean true)
  else if text = "false".toList then some (.boolean false)
  else
    match text with
    | '0' :: 'x' :: digits => markedInteger? 16 digits
    | '0' :: 'o' :: digits => markedInteger? 8 digits
    | '0' :: 'b' :: digits => markedInteger? 2 digits
    | _ =>
      let (negative, unsigned) := Decimal.splitSign text
      (number? negative unsigned).or ((moment? text).map fun form => .string (String.ofList form))

/-- A bare value at the start of a text. A space may stand between a date and a time. -/
def readScalar (cs : List Char) : Found Scalar :=
  let text := cs.takeWhile isBareChar
  let rest := cs.dropWhile isBareChar
  match rest with
  | ' ' :: digit :: behind =>
    if isDate text && digit.isDigit then
      let time := (digit :: behind).takeWhile isBareChar
      (scalar? (text ++ ' ' :: time)).map (·, (digit :: behind).dropWhile isBareChar)
    else (scalar? text).map (·, rest)
  | _ => (scalar? text).map (·, rest)

end TreeSketch.Toml
