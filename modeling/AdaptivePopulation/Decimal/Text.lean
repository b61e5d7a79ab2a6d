import AdaptivePopulation.Decimal.Shortest

/-!
# Number texts

How numbers are written.  A whole number has its digits and a minus sign; a double has the shortest
digits that read back, positionally or with an exponent.
-/

namespace AdaptivePopulation.Decimal

/-- The digits of an integer, after its sign if it is negative. -/
def writeInt (n : Int) : List Char :=
  if n < 0 then '-' :: Nat.toDigits 10 n.natAbs else Nat.toDigits 10 n.natAbs

/-- A number with leading zeros up to a width. -/
def padded (width n : Nat) : List Char :=
  let digits := Nat.toDigits 10 n
  List.replicate (width - digits.length) '0' ++ digits

/-- The decisions of a number format. -/
structure NumberFormat where
  tie : Tie
  /-- The least power of ten whose multiples are written positionally. -/
  leastPositional : Int
  /-- The least power of ten from which on an exponent is written. -/
  leastExponential : Int
  /-- What stands before an exponent that is not negative. -/
  exponentSign : String
  undefined : String
  infinity : String
  negativeInfinity : String

/-- The format of reports and of hashed content. -/
def NumberFormat.report : NumberFormat := ⟨.away, -4, 16, "", "NaN", "inf", "-inf"⟩

/-- The digits with a point after the first `k` of them and a digit on both sides of it. -/
def positional (digits : List Char) (k : Int) : List Char :=
  if k ≤ 0 then '0' :: '.' :: (List.replicate (-k).toNat '0' ++ digits)
  else
    let whole := digits.take k.toNat
    let fraction := digits.drop k.toNat
    whole ++ List.replicate (k.toNat - digits.length) '0' ++
      '.' :: (if fraction.isEmpty then ['0'] else fraction)

/-- The digits with a point after the first one, if there are more, and an exponent. -/
def exponential (f : NumberFormat) (digits : List Char) (exponent : Int) : List Char :=
  let fraction := digits.drop 1
  digits.take 1 ++ (if fraction.isEmpty then [] else '.' :: fraction) ++ 'e' ::
    (if exponent < 0 then ['-'] else f.exponentSign.toList) ++ Nat.toDigits 10 exponent.natAbs

/-- The text of a finite double without its sign, by its bits. -/
def magnitudeText (f : NumberFormat) (bits : Nat) : List Char :=
  if bits % Nat.pow 2 63 = 0 then ['0', '.', '0']
  else
    let (digits, k) := shortest f.tie (.ofBits (bits % Nat.pow 2 63))
    if f.leastPositional ≤ k - 1 ∧ k - 1 < f.leastExponential then positional digits k
    else exponential f digits (k - 1)

/-- The text of a double. -/
def NumberFormat.write (f : NumberFormat) (x : Float) : List Char :=
  if x.isNaN then f.undefined.toList
  else if x.isInf then (if x < 0.0 then f.negativeInfinity else f.infinity).toList
  else
    let bits := x.toBits.toNat
    (if Nat.pow 2 63 ≤ bits then ['-'] else []) ++ magnitudeText f bits

end AdaptivePopulation.Decimal
