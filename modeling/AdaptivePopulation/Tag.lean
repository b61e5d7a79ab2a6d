import AdaptivePopulation.Text.Blank

/-!
# Tags

The names of a closed set of choices.  A written tag may stand between blanks and in any case of its
ASCII letters.
-/

namespace AdaptivePopulation

/-- A finite set of tags, each with its name. -/
class Tag (τ : Type) where
  all : List τ
  name : τ → String

/-- A text that names no tag of the set. -/
structure UnknownTag where
  text : String
  deriving DecidableEq, Repr

/-- The text of the error. -/
def UnknownTag.message (e : UnknownTag) : String := "Unknown strategy tag: " ++ e.text

namespace Tag

variable {τ : Type} [Tag τ]

/-- The tag with exactly this name. -/
def ofName? (name : String) : Option τ := (all : List τ).find? fun t => Tag.name t == name

/-- The tag that a text names. -/
def read (text : String) : Except UnknownTag τ :=
  let written := Text.trim text.toList
  match (all : List τ).find? fun t => Text.sameLetters (Tag.name t).toList written with
  | some t => .ok t
  | none => .error ⟨text⟩

end Tag

end AdaptivePopulation
