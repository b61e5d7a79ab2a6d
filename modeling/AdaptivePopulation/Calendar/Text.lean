import AdaptivePopulation.Calendar.Instant
import AdaptivePopulation.Decimal.Numeral
import AdaptivePopulation.Decimal.Text

/-!
# Timestamps

The written form of instants: date and time of day in universal time.  Writing gives one form only;
reading also takes blanks between the parts, short numbers, a space for the `T`, and other offsets.
-/

namespace AdaptivePopulation.Instant

open Calendar Text Decimal

/-! ## Writing -/

/-- Four digits; a year beyond them gets a sign. -/
def writeYear (year : Int) : List Char :=
  if 0 ≤ year ∧ year ≤ 9999 then padded 4 year.toNat
  else (if year < 0 then '-' else '+') :: padded 4 year.natAbs

/-- The fraction of a second with the fewest groups of three digits that give it exactly. -/
def writeFraction (nanos : Nat) : List Char :=
  if nanos = 0 then []
  else if nanos % 1000000 = 0 then '.' :: padded 3 (nanos / 1000000)
  else if nanos % 1000 = 0 then '.' :: padded 6 (nanos / 1000)
  else '.' :: padded 9 nanos

/-- The timestamp of an instant; a leap second is written as the sixtieth of its minute. -/
def write (t : Instant) : List Char :=
  let date := Date.ofDays (t.seconds / 86400)
  let time := (t.seconds % 86400).toNat
  let leap := t.nanos / 1000000000
  writeYear date.year ++ '-' :: padded 2 date.month ++ '-' :: padded 2 date.day ++
    'T' :: padded 2 (time / 3600) ++ ':' :: padded 2 (time / 60 % 60) ++
    ':' :: padded 2 (time % 60 + leap) ++ writeFraction (t.nanos % 1000000000) ++ ['Z']

/-- The text of an instant in universal time. -/
def toText (t : Instant) : String := String.ofList t.write

/-! ## Reading -/

/-- The text without the blanks in front. -/
def dropBlanks (text : List Char) : List Char := text.dropWhile isBlank

/-- A number of at least one and at most `width` digits, and the rest. -/
def readDigits (width : Nat) (text : List Char) : Option (Nat × List Char) :=
  let digits := (text.take width).takeWhile Char.isDigit
  if digits.isEmpty then none
  else some (natOfDigits digits, text.drop digits.length)

/-- A number of one or two digits within bounds, after blanks. -/
def readItem (least greatest : Nat) (text : List Char) : Option (Nat × List Char) := do
  let (n, rest) ← readDigits 2 (dropBlanks text)
  if least ≤ n ∧ n ≤ greatest then some (n, rest) else none

/-- A year after blanks: up to four digits, or a sign and any number of digits. -/
def readYear (text : List Char) : Option (Int × List Char) :=
  match dropBlanks text with
  | '-' :: rest => (readDigits rest.length rest).map fun (n, rest) => (-(n : Int), rest)
  | '+' :: rest => (readDigits rest.length rest).map fun (n, rest) => ((n : Int), rest)
  | text => (readDigits 4 text).map fun (n, rest) => ((n : Int), rest)

/-- A mark after blanks. -/
def readMark (mark : Char) (text : List Char) : Option (List Char) :=
  match dropBlanks text with
  | c :: rest => if c = mark then some rest else none
  | [] => none

/-- A fraction of a second, if there is one; digits after the ninth do not count. -/
def readFraction : List Char → Option (Nat × List Char)
  | '.' :: rest =>
    let digits := rest.takeWhile Char.isDigit
    if digits.isEmpty then none
    else
      let kept := digits.take 9
      some (natOfDigits kept * Nat.pow 10 (9 - kept.length), rest.dropWhile Char.isDigit)
  | text => some (0, text)

/-- An offset in hours and minutes from universal time, in seconds. -/
def readClockOffset (text : List Char) : Option (Int × List Char) :=
  match text with
  | a :: b :: rest =>
    if a.isDigit ∧ b.isDigit then
      match rest.dropWhile fun c => c == ':' || isBlank c with
      | c :: d :: rest =>
        if c.isDigit ∧ c.toNat < '6'.toNat ∧ d.isDigit then
          let minutes := 60 * natOfDigits [a, b] + natOfDigits [c, d]
          some (60 * (minutes : Int), rest)
        else none
      | _ => none
    else none
  | _ => none

/-- The offset at the end of a timestamp, in seconds; less than a day. -/
def readOffset (text : List Char) : Option (Int × List Char) :=
  if sameLetters (text.take 3) "UTC".toList then some (0, text.drop 3)
  else
    match text with
    | 'Z' :: rest => some (0, rest)
    | 'z' :: rest => some (0, rest)
    | '+' :: rest => readClockOffset rest
    | '-' :: rest => (readClockOffset rest).map fun (n, rest) => (-n, rest)
    | '\u2212' :: rest => (readClockOffset rest).map fun (n, rest) => (-n, rest)
    | _ => none

/-- The instant of a date and a time of day at an offset.  A second of sixty is a leap second. -/
def ofLocal? (date : Date) (hour minute second fraction : Nat) (offset : Int) : Option Instant :=
  let leap := second / 60
  let time := 3600 * hour + 60 * minute + (second - leap)
  let t : Instant :=
    ⟨86400 * date.toDays + time - offset, fraction + 1000000000 * leap⟩
  if date.IsValid ∧ offset.natAbs < 86400 ∧ -262143 ≤ date.year ∧ date.year ≤ 262142 ∧
      t.InCalendar then some t
  else none

/-- Reads a timestamp. -/
def read? (text : List Char) : Option Instant := do
  let (year, rest) ← readYear text
  let rest ← readMark '-' rest
  let (month, rest) ← readItem 1 12 rest
  let rest ← readMark '-' rest
  let (day, rest) ← readItem 1 31 rest
  let rest ← match rest with
    | 'T' :: rest => some rest
    | 't' :: rest => some rest
    | ' ' :: rest => some rest
    | _ => none
  let (hour, rest) ← readItem 0 23 rest
  let rest ← readMark ':' rest
  let (minute, rest) ← readItem 0 59 rest
  let rest ← readMark ':' rest
  let (second, rest) ← readItem 0 60 rest
  let (fraction, rest) ← readFraction rest
  let (offset, rest) ← readOffset (dropBlanks rest)
  if (dropBlanks rest).isEmpty then
    ofLocal? ⟨year, month, day⟩ hour minute second fraction offset
  else none

end AdaptivePopulation.Instant
