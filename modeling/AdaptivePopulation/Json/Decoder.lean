import AdaptivePopulation.Tag
import AdaptivePopulation.Json.Basic
import AdaptivePopulation.Json.Document
import Std.Data.TreeMap

/-!
# Decoding

What a document means as a value of a given kind.  A decoder is given the number of containers that
it may still enter, so that the nesting of what is decoded is limited; the parts of a document that
are passed over are not.
-/

namespace AdaptivePopulation.Json

/-- A way to read a document, given how many containers it may still enter. -/
abbrev Decoder (τ : Type) := Nat → Document → Option τ

/-- The greatest nesting of containers. -/
def nestingLimit : Nat := 127

/-! ## Strings -/

/-- The first half of a pair of UTF-16 units for one character. -/
def isHighSurrogate (code : Nat) : Bool := 0xd800 ≤ code && code < 0xdc00

/-- The second half of a pair of UTF-16 units for one character. -/
def isLowSurrogate (code : Nat) : Bool := 0xdc00 ≤ code && code < 0xe000

/-- The characters of a string; a high and a low surrogate make one character, either alone none. -/
def charsOf? : List Piece → Option (List Char)
  | [] => some []
  | .char c :: rest => (charsOf? rest).map (c :: ·)
  | .unit high :: .unit low :: rest =>
    if isHighSurrogate high then
      if isLowSurrogate low then
        (charsOf? rest).map (Char.ofNat (0x10000 + (high - 0xd800) * 0x400 + (low - 0xdc00)) :: ·)
      else none
    else if isLowSurrogate high then none
    else (charsOf? (.unit low :: rest)).map (Char.ofNat high :: ·)
  | .unit code :: rest =>
    if isHighSurrogate code ∨ isLowSurrogate code then none
    else (charsOf? rest).map (Char.ofNat code :: ·)

/-- The string of pieces as they are written; a surrogate without its partner has none. -/
def stringOf? (pieces : List Piece) : Option String := (charsOf? pieces).map String.ofList

/-! ## Plain kinds -/

namespace Decoder

/-- Reads a string. -/
def string : Decoder String
  | _, .str pieces => stringOf? pieces
  | _, _ => none

/-- Whole numbers from zero to `greatest`, without sign, point and exponent. -/
def nat (greatest : Nat) : Decoder Nat
  | _, .num n =>
    if n.IsWhole ∧ ¬ n.negative ∧ n.coefficient ≤ greatest then some n.coefficient else none
  | _, _ => none

/-- Whole numbers that fit sixty-four bits without a sign. -/
def word : Decoder Nat := nat (Nat.pow 2 64 - 1)

/-- The number of a whole numeral; a zero has no minus sign. -/
def intOf? (n : Decimal.Numeral) : Option Int :=
  if ¬ n.IsWhole then none
  else if n.negative then if n.coefficient = 0 then none else some (-(n.coefficient : Int))
  else some n.coefficient

/-- Whole numbers that fit sixty-four bits with a sign. -/
def signedWord : Decoder Int
  | _, .num n => (intOf? n).filter fun i => -Int.pow 2 63 ≤ i ∧ i < Int.pow 2 63
  | _, _ => none

/-- The double nearest to a number, unless that is infinite. -/
def floatOf? (n : Decimal.Numeral) : Option Float :=
  let x := n.toFloat
  if x.isInf then none else some x

/-- Reads a number as a double. -/
def float : Decoder Float
  | _, .num n => floatOf? n
  | _, _ => none

/-- Null, or what `d` reads. -/
def optional {τ : Type} (d : Decoder τ) : Decoder (Option τ)
  | _, .null => some none
  | depth, doc => (d depth doc).map some

/-- Reads an array whose items are read one nesting level further in. -/
def list {τ : Type} (d : Decoder τ) : Decoder (List τ)
  | depth + 1, .arr items => items.mapM (d depth)
  | _, _ => none

/-- A tag by its name, alone or as the only field of an object with the value null. -/
def tag {τ : Type} [Tag τ] : Decoder τ
  | _, .str pieces => (stringOf? pieces).bind Tag.ofName?
  | _ + 1, .obj [(name, .null)] => (stringOf? name).bind Tag.ofName?
  | _, _ => none

end Decoder

/-! ## Values -/

/-- The number of a numeral: whole if it fits sixty-four bits, else a finite double. -/
def Number.ofNumeral? (n : Decimal.Numeral) : Option Number :=
  match (Decoder.intOf? n).filter fun i => -Int.pow 2 63 ≤ i ∧ i < Int.pow 2 64 with
  | some i => some (.int i)
  | none => (Decoder.floatOf? n).map .float

/-- Fields in the order of their names; of a repeated name the last value stays. -/
def sortFields {τ : Type} (fields : List (String × τ)) : List (String × τ) :=
  (Std.TreeMap.ofList fields compare).toList

mutual

/-- Any value. -/
def decode (depth : Nat) : Document → Option Json
  | .null => some .null
  | .bool b => some (.bool b)
  | .num n => (Number.ofNumeral? n).map .num
  | .str pieces => (stringOf? pieces).map .str
  | .arr items =>
    match depth with
    | 0 => none
    | depth + 1 => (decodeItems depth items).map .arr
  | .obj fields =>
    match depth with
    | 0 => none
    | depth + 1 => (decodeFields depth fields).map fun fs => .obj (sortFields fs)

/-- The values of the items of an array. -/
def decodeItems (depth : Nat) : List Document → Option (List Json)
  | [] => some []
  | d :: rest => do
    let j ← decode depth d
    let js ← decodeItems depth rest
    some (j :: js)

/-- The values of the fields of an object, repeated names included. -/
def decodeFields (depth : Nat) : List (List Piece × Document) → Option (List (String × Json))
  | [] => some []
  | (name, d) :: rest => do
    let name ← stringOf? name
    let j ← decode depth d
    let fs ← decodeFields depth rest
    some ((name, j) :: fs)

end

/-- An object of arbitrary names, in the order of its fields. -/
def Decoder.entries {τ : Type} (d : Decoder τ) : Decoder (List (String × τ))
  | depth + 1, .obj fields =>
    fields.mapM fun (name, doc) => do
      let name ← stringOf? name
      let value ← d depth doc
      some (name, value)
  | _, _ => none

/-! ## Records -/

/-- The fields of a record that are there.  A record is an object, whose unknown fields are passed
over, or an array of its fields in order. -/
structure Record where
  fields : List (String × Document)
  positional : Bool
  /-- How many containers its fields may still enter. -/
  depth : Nat

namespace Record

/-- The known fields of an object; a known name must not be repeated. -/
def known? (names : List String) : List (List Piece × Document) →
    Option (List (String × Document))
  | [] => some []
  | (name, d) :: rest => do
    let name ← stringOf? name
    let found ← known? names rest
    if name ∉ names then some found
    else if (found.lookup name).isSome then none
    else some ((name, d) :: found)

/-- Reads a record with the given fields. -/
def read (names : List String) : Decoder Record
  | depth + 1, .obj fields => (known? names fields).map fun found => ⟨found, false, depth⟩
  | depth + 1, .arr items =>
    if names.length < items.length then none else some ⟨names.zip items, true, depth⟩
  | _, _ => none

variable {τ : Type}

/-- A field that must be there. -/
def required (r : Record) (name : String) (d : Decoder τ) : Option τ :=
  (r.fields.lookup name).bind (d r.depth)

/-- A field that an object may leave out. -/
def optional (r : Record) (name : String) (d : Decoder τ) : Option (Option τ) :=
  match r.fields.lookup name with
  | some doc => Decoder.optional d r.depth doc
  | none => if r.positional then none else some none

/-- A field that has a default. -/
def withDefault (r : Record) (name : String) (d : Decoder τ) (default : τ) : Option τ :=
  match r.fields.lookup name with
  | some doc => d r.depth doc
  | none => some default

end Record

/-- Reads a text as a value of a kind. -/
def read? {τ : Type} (d : Decoder τ) (text : String) : Option τ :=
  (Document.read? text.toList).bind (d nestingLimit)

end AdaptivePopulation.Json
