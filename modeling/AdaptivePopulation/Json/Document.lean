import AdaptivePopulation.Json.Token

/-!
# JSON documents

A JSON text as it is written: numbers keep their digits, strings their escapes, and objects all
their fields, repeated names included.  What a document means is decided when it is decoded, so that
a part that nobody asks for is checked for its form only.
-/

namespace AdaptivePopulation.Json

/-- A value as it is written. -/
inductive Document where
  | null
  | bool (b : Bool)
  | num (n : Decimal.Numeral)
  | str (pieces : List Piece)
  | arr (items : List Document)
  | obj (fields : List (List Piece × Document))

/-- The container around a value that is being read, with what stands before it, last first. -/
inductive Frame where
  | items (before : List Document)
  | fields (before : List (List Piece × Document)) (name : List Piece)

/-- What a reader has read and what may come next. -/
inductive Reader where
  /-- A value must come. -/
  | value (stack : List Frame)
  /-- A value or the end of an empty array must come. -/
  | itemOrEnd (stack : List Frame)
  /-- A name or the end of an empty object must come. -/
  | nameOrEnd (stack : List Frame)
  /-- A name must come. -/
  | name (before : List (List Piece × Document)) (stack : List Frame)
  /-- The colon after a name must come. -/
  | colon (before : List (List Piece × Document)) (name : List Piece) (stack : List Frame)
  /-- A value is complete; a comma or the end of its container may come. -/
  | complete (d : Document) (stack : List Frame)

namespace Reader

/-- The reader after the first token of a value. -/
def begin (stack : List Frame) : Token → Option Reader
  | .null => some (complete .null stack)
  | .bool b => some (complete (.bool b) stack)
  | .num n => some (complete (.num n) stack)
  | .str pieces => some (complete (.str pieces) stack)
  | .openBracket => some (itemOrEnd stack)
  | .openBrace => some (nameOrEnd stack)
  | _ => none

/-- The reader after one more token, unless that token cannot come. -/
def step : Reader → Token → Option Reader
  | value stack, t => begin stack t
  | itemOrEnd stack, .closeBracket => some (complete (.arr []) stack)
  | itemOrEnd stack, t => begin (.items [] :: stack) t
  | nameOrEnd stack, .closeBrace => some (complete (.obj []) stack)
  | nameOrEnd stack, .str n => some (colon [] n stack)
  | name before stack, .str n => some (colon before n stack)
  | colon before n stack, .colon => some (value (.fields before n :: stack))
  | complete d (.items before :: stack), .comma => some (value (.items (d :: before) :: stack))
  | complete d (.items before :: stack), .closeBracket =>
    some (complete (.arr (d :: before).reverse) stack)
  | complete d (.fields before n :: stack), .comma => some (name ((n, d) :: before) stack)
  | complete d (.fields before n :: stack), .closeBrace =>
    some (complete (.obj ((n, d) :: before).reverse) stack)
  | _, _ => none

/-- The document, if the reader has read exactly one. -/
def finish : Reader → Option Document
  | complete d [] => some d
  | _ => none

end Reader

/-- Reads a text that holds one document and nothing else. -/
def Document.read? (text : List Char) : Option Document := do
  let tokens ← tokens? text
  let reader ← tokens.foldlM Reader.step (.value [])
  reader.finish

end AdaptivePopulation.Json
