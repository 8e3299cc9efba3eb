import TreeSketch.Decimal.Text

/-!
# Binary numbers of 64 bits

The numbers that a 64-bit floating point format holds, as exact values: `mantissa · 2 ^ exponent` with at
most 53 bits of mantissa. `Binary64.round` finds the one nearest to a decimal number, and
`Binary64.shortest` the decimal number with the fewest digits that is rounded to a given one. Everything is
computed in natural numbers.
-/

namespace TreeSketch

/-- A binary number of 64 bits. -/
inductive Binary64 where
  /-- The number `± mantissa · 2 ^ exponent`. -/
  | finite (negative : Bool) (mantissa : Nat) (exponent : Int)
  | infinite (negative : Bool)
  | notANumber
deriving Repr, DecidableEq

namespace Binary64

/-- The least exponent of a finite number. -/
def leastExponent : Int := -1074

/-- One more than the greatest bit of a finite number. -/
def bitLimit : Nat := 1024

/-- The bits of a mantissa. -/
def mantissaBits : Nat := 53

/-- The power `base ^ exponent` as a fraction. -/
def power (base : Nat) (exponent : Int) : Nat × Nat :=
  if 0 ≤ exponent then (base.pow exponent.toNat, 1) else (1, base.pow (-exponent).toNat)

/-- The integer nearest to a fraction; a half goes to the even neighbour. -/
def nearest (num den : Nat) : Nat :=
  let whole := num / den
  let rest := 2 * (num % den)
  if rest < den then whole
  else if den < rest then whole + 1
  else if whole % 2 = 0 then whole else whole + 1

/-- The greatest exponent `k` with `2 ^ k` at most a positive fraction. -/
def floorLog2 (num den : Nat) : Int :=
  let guess := (num.log2 : Int) - den.log2
  let (up, down) := power 2 guess
  if up * den ≤ num * down then guess else guess - 1

/-- The greatest exponent `k` with `10 ^ k` at most a positive fraction. -/
def floorLog10 (num den : Nat) : Int :=
  let guess := ((Nat.toDigits 10 num).length : Int) - (Nat.toDigits 10 den).length
  let (up, down) := power 10 guess
  if up * den ≤ num * down then guess else guess - 1

/-- The number nearest to a fraction, or infinity where the format ends. -/
def ofFraction (negative : Bool) (num den : Nat) : Binary64 :=
  if num = 0 then finite negative 0 0
  else
    let exponent := max (floorLog2 num den - (mantissaBits - 1)) leastExponent
    let (up, down) := power 2 exponent
    let mantissa := nearest (num * down) (den * up)
    if bitLimit ≤ mantissa.log2 + exponent then infinite negative
    else finite negative mantissa exponent

/-- The decimal exponents beyond which a number is infinite or zero whatever its digits. -/
def decimalLimit : Int := 400

/-- The number nearest to a decimal number. Exponents far outside the format are settled by the count of
digits alone. -/
def round (decimal : Decimal) : Binary64 :=
  let magnitude := decimal.exponent + (Nat.toDigits 10 decimal.digits).length
  if decimal.digits = 0 || magnitude < -decimalLimit then finite decimal.negative 0 0
  else if decimalLimit < magnitude then infinite decimal.negative
  else
    let (up, down) := power 10 decimal.exponent
    ofFraction decimal.negative (decimal.digits * up) down

/-- The number is finite. -/
def isFinite : Binary64 → Bool
  | finite _ _ _ => true
  | _ => false

/-- The number is zero, with either sign. -/
def isZero : Binary64 → Bool
  | finite _ mantissa _ => mantissa = 0
  | _ => false

/-! ## The shortest decimal number -/

/-- The decimal number `digits · 10 ^ exponent` is rounded to the number `mantissa · 2 ^ binary`. -/
private def roundsTo (mantissa : Nat) (binary : Int) (digits : Nat) (exponent : Int) : Bool :=
  let (up, down) := power 10 exponent
  match ofFraction false (digits * up) down with
  | finite _ m e =>
    let (upA, downA) := power 2 e
    let (upB, downB) := power 2 binary
    m * upA * downB = mantissa * upB * downA
  | _ => false

/-- The nearest decimal number with `count` digits or fewer, starting at the power of ten `top`, that is
rounded to the number. -/
private def withDigits (mantissa : Nat) (binary top : Int) (count : Nat) : Option (Nat × Int) :=
  let exponent := top - count + 1
  let (up, down) := power 2 binary
  let (tenUp, tenDown) := power 10 exponent
  let num := mantissa * up * tenDown
  let den := down * tenUp
  let first := nearest num den
  let below := num / den
  ([first, below, below + 1].find? fun digits => roundsTo mantissa binary digits exponent).map
    fun digits => (digits, exponent)

/-- Leaves out zeros at the end of the digits. -/
private def dropZeros : Nat → Nat × Int → Nat × Int
  | 0, number => number
  | fuel + 1, (digits, exponent) =>
    if digits ≠ 0 && digits % 10 = 0 then dropZeros fuel (digits / 10, exponent + 1)
    else (digits, exponent)

/-- The decimal number with the fewest digits that is rounded to `mantissa · 2 ^ exponent`. Seventeen
digits are always enough. -/
def shortest (mantissa : Nat) (exponent : Int) : Nat × Int :=
  if mantissa = 0 then (0, 0)
  else
    let (up, down) := power 2 exponent
    let top := floorLog10 (mantissa * up) down
    let counts := (List.range 17).map (· + 1)
    dropZeros 17 ((counts.findSome? (withDigits mantissa exponent top)).getD (mantissa, 0))

/-- Digits with a point among them or zeros around them, without an exponent. -/
def positional (digits : Nat) (exponent : Int) : List Char :=
  let shown := Nat.toDigits 10 digits
  if 0 ≤ exponent then
    if digits = 0 then shown else shown ++ List.replicate exponent.toNat '0'
  else
    let places := (-exponent).toNat
    let padded := List.replicate (places + 1 - shown.length) '0' ++ shown
    padded.take (padded.length - places) ++ '.' :: padded.drop (padded.length - places)

/-- The number in the fewest digits, never with an exponent. -/
def display : Binary64 → String
  | finite negative mantissa exponent =>
    let (digits, power) := shortest mantissa exponent
    (if negative then "-" else "") ++ String.ofList (positional digits power)
  | infinite negative => if negative then "-inf" else "inf"
  | notANumber => "NaN"

end Binary64

end TreeSketch
