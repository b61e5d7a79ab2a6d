import AdaptivePopulation.Decimal.Text
import AdaptivePopulation.Json.Basic

/-!
# JSON writer

The compact text of a JSON value: no blanks, fields in their order, and only those characters
escaped that have to be.
-/

namespace AdaptivePopulation.Json

/-- How doubles are written; what is not finite has no number text and becomes `null`. -/
def numberFormat : Decimal.NumberFormat := ⟨.even, -5, 16, "+", "null", "null", "null"⟩

/-- A character of a string. -/
def writeChar (c : Char) : List Char :=
  match c with
  | '"' => ['\\', '"']
  | '\\' => ['\\', '\\']
  | '\x08' => ['\\', 'b']
  | '\x0c' => ['\\', 'f']
  | '\n' => ['\\', 'n']
  | '\r' => ['\\', 'r']
  | '\t' => ['\\', 't']
  | c =>
    if c.toNat < 0x20 then
      ['\\', 'u', '0', '0', Nat.digitChar (c.toNat / 16), Nat.digitChar (c.toNat % 16)]
    else [c]

/-- The string between quotation marks. -/
def writeString (s : String) : List Char := '"' :: s.toList.flatMap writeChar ++ ['"']

/-- The digits of a number. -/
def Number.write : Number → List Char
  | .int n => Decimal.writeInt n
  | .float x => numberFormat.write x

mutual

/-- The text of a value. -/
def write : Json → List Char
  | .null => "null".toList
  | .bool b => (if b then "true" else "false").toList
  | .num n => n.write
  | .str s => writeString s
  | .arr items => '[' :: writeItems items
  | .obj fields => '{' :: writeFields fields

/-- The items of an array and its closing bracket. -/
def writeItems : List Json → List Char
  | [] => [']']
  | [j] => write j ++ [']']
  | j :: k :: rest => write j ++ ',' :: writeItems (k :: rest)

/-- The fields of an object and its closing brace. -/
def writeFields : List (String × Json) → List Char
  | [] => ['}']
  | [(name, j)] => writeString name ++ ':' :: write j ++ ['}']
  | (name, j) :: f :: rest => writeString name ++ ':' :: write j ++ ',' :: writeFields (f :: rest)

end

/-- The text of a value. -/
def toText (j : Json) : String := String.ofList j.write

end AdaptivePopulation.Json
