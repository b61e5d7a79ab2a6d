/-!
# JSON values

Values of the JSON data model.  Whole numbers that fit sixty-four bits are kept exactly, all other
numbers are doubles.  The fields of an object stand in the order in which they are written.
-/

namespace AdaptivePopulation

/-- A number of the data model: a whole one, or a double. -/
inductive Json.Number where
  | int (n : Int)
  | float (x : Float)
  deriving BEq

/-- A value of the data model. -/
inductive Json where
  | null
  | bool (b : Bool)
  | num (n : Json.Number)
  | str (s : String)
  | arr (items : List Json)
  | obj (fields : List (String × Json))
  deriving BEq

namespace Json

instance : Inhabited Json := ⟨null⟩

/-- The value of a natural number. -/
def ofNat (n : Nat) : Json := .num (.int n)

/-- The value of a double. -/
def ofFloat (x : Float) : Json := .num (.float x)

/-- The value, or null where there is none. -/
def ofOption (o : Option Json) : Json := o.getD .null

/-- The bag that stands for absent attributes. -/
def orEmptyObject : Json → Json
  | .null => .obj []
  | j => j

end Json

end AdaptivePopulation
