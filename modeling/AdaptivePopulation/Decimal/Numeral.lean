import AdaptivePopulation.Text.Blank

/-!
# Numerals

Written numbers, and the numbers that they denote.  A numeral has a sign, digits, a point with more
digits and an exponent, of which only some digits are required.
-/

namespace AdaptivePopulation.Decimal

/-- The number that a list of digits denotes. -/
def natOfDigits (digits : List Char) : Nat :=
  digits.foldl (fun n c => 10 * n + (c.toNat - '0'.toNat)) 0

/-- The sign in front of a text, and the rest. -/
def splitSign : List Char → Bool × List Char
  | '-' :: rest => (true, rest)
  | '+' :: rest => (false, rest)
  | text => (false, text)

/-- A number as it is written. -/
structure Numeral where
  negative : Bool
  whole : List Char
  /-- The digits after the point, if there is a point. -/
  fraction : Option (List Char)
  exponent : Option Int
  deriving DecidableEq, Repr

namespace Numeral

/-- The exponent at the end of a numeral; the text must hold nothing else. -/
def readExponent : List Char → Option (Option Int)
  | [] => some none
  | c :: rest =>
    if c = 'e' ∨ c = 'E' then
      let (negative, digits) := splitSign rest
      if digits.isEmpty ∨ ¬ digits.all Char.isDigit then none
      else some (some (if negative then -(natOfDigits digits : Int) else natOfDigits digits))
    else none

/-- Reads a numeral with a digit before or after the point. -/
def read? (text : List Char) : Option Numeral := do
  let (negative, unsigned) := splitSign text
  let whole := unsigned.takeWhile Char.isDigit
  let (fraction, rest) :=
    match unsigned.dropWhile Char.isDigit with
    | '.' :: rest => (some (rest.takeWhile Char.isDigit), rest.dropWhile Char.isDigit)
    | rest => (none, rest)
  if whole.isEmpty ∧ (fraction.getD []).isEmpty then none
  else
    let exponent ← readExponent rest
    some ⟨negative, whole, fraction, exponent⟩

/-- Written without a point and without an exponent. -/
def IsWhole (n : Numeral) : Prop := n.fraction = none ∧ n.exponent = none

instance (n : Numeral) : Decidable n.IsWhole := inferInstanceAs (Decidable (_ ∧ _))

/-- The number is `coefficient * 10 ^ scale`, up to its sign. -/
def coefficient (n : Numeral) : Nat := natOfDigits (n.whole ++ n.fraction.getD [])

/-- The power of ten by which the digits, read as one whole number, are to be scaled. -/
def scale (n : Numeral) : Int := n.exponent.getD 0 - (n.fraction.getD []).length

/-- The double nearest to `coefficient * 10 ^ scale`.  Scales that leave the range of doubles on
either side are answered without computing the power. -/
def nearest (coefficient : Nat) (scale : Int) : Float :=
  let magnitude : Int := (Nat.toDigits 10 coefficient).length + scale
  if coefficient = 0 ∨ magnitude < -330 then 0.0
  else if 310 < magnitude then 1.0 / 0.0
  else Float.ofScientific coefficient (scale < 0) scale.natAbs

/-- The double nearest to the number. -/
def toFloat (n : Numeral) : Float :=
  let x := nearest n.coefficient n.scale
  if n.negative then -x else x

end Numeral

/-- Reads a double: a numeral, or a name of infinity or of the undefined value in any case. -/
def readFloat? (text : List Char) : Option Float :=
  let (negative, unsigned) := splitSign text
  let signed (x : Float) := if negative then -x else x
  if Text.sameLetters unsigned "inf".toList ∨ Text.sameLetters unsigned "infinity".toList then
    some (signed (1.0 / 0.0))
  else if Text.sameLetters unsigned "nan".toList then some (signed (0.0 / 0.0))
  else (Numeral.read? text).map Numeral.toFloat

/-- Reads a natural number up to `greatest`: digits after an optional plus sign. -/
def readNat? (greatest : Nat) (text : List Char) : Option Nat :=
  let digits := match text with
    | '+' :: rest => rest
    | text => text
  if digits.isEmpty ∨ ¬ digits.all Char.isDigit ∨ greatest < natOfDigits digits then none
  else some (natOfDigits digits)

end AdaptivePopulation.Decimal
