/-!
# Decimal numbers as text

A `Decimal` is a number with finitely many decimal places. `Decimal.parse?` reads one from text: a sign,
digits with at most one point among them, and an exponent, all but the digits optional.
-/

namespace TreeSketch

/-- The number `± digits · 10 ^ exponent`. -/
structure Decimal where
  negative : Bool
  digits : Nat
  exponent : Int
deriving Repr, DecidableEq

namespace Decimal

/-- The number that digits write in a base, given the number that the digits before them write. -/
def foldDigits (base : Nat) (start : Nat) (digits : List Nat) : Nat :=
  digits.foldl (fun n digit => n * base + digit) start

/-- The value of a digit of either case in a base up to 16. -/
def digitValue? (base : Nat) (c : Char) : Option Nat :=
  let value :=
    if '0' ≤ c && c ≤ '9' then some (c.toNat - '0'.toNat)
    else if 'a' ≤ c && c ≤ 'f' then some (c.toNat - 'a'.toNat + 10)
    else if 'A' ≤ c && c ≤ 'F' then some (c.toNat - 'A'.toNat + 10)
    else none
  value.filter (· < base)

/-- The natural number that a text of at least one digit writes in a base. -/
def parseNat? (base : Nat) (cs : List Char) : Option Nat :=
  if cs = [] then none else (cs.mapM (digitValue? base)).map (foldDigits base 0)

/-- Splits a sign off a text; without one the number is positive. -/
def splitSign : List Char → Bool × List Char
  | '-' :: cs => (true, cs)
  | '+' :: cs => (false, cs)
  | cs => (false, cs)

/-- The exponent at the end of a number; without one it is 0. -/
def parseExponent? : List Char → Option Int
  | [] => some 0
  | c :: cs =>
    if c = 'e' || c = 'E' then
      let (negative, digits) := splitSign cs
      (parseNat? 10 digits).map fun n => if negative then -(n : Int) else n
    else none

/-- The digits after the point at the start of a text, and what follows them; without a point there are
none. -/
def splitFraction : List Char → List Char × List Char
  | '.' :: cs => (cs.takeWhile Char.isDigit, cs.dropWhile Char.isDigit)
  | cs => ([], cs)

/-- Reads a number. At least one digit stands before or after the point. -/
def parse? (text : List Char) : Option Decimal := do
  let (negative, unsigned) := splitSign text
  let whole := unsigned.takeWhile Char.isDigit
  let (fraction, rest) := splitFraction (unsigned.dropWhile Char.isDigit)
  let digits ← parseNat? 10 (whole ++ fraction)
  let exponent ← parseExponent? rest
  return ⟨negative, digits, exponent - fraction.length⟩

end Decimal

end TreeSketch
