import AdaptivePopulation.Hash.Sha256

/-!
# Content hashes

The hash of a piece of content, alone or linked to a preceding hash, and its hexadecimal forms.
-/

namespace AdaptivePopulation

/-- The hash of a content, alone or together with a hash before it. -/
structure ContentHash where
  bytes : Vector UInt8 32
  deriving DecidableEq

namespace ContentHash

/-- The hash of a content alone. -/
def digest (content : List UInt8) : ContentHash := ⟨Sha256.digest content⟩

/-- The hash of the preceding hash followed by the content. -/
def chain (previous : ContentHash) (content : List UInt8) : ContentHash :=
  digest (previous.bytes.toList ++ content)

/-- The hash of content with or without a preceding hash. -/
def linked (previous : Option ContentHash) (content : List UInt8) : ContentHash :=
  match previous with
  | some p => chain p content
  | none => digest content

/-- Two lower-case hexadecimal digits. -/
def hexOfByte (b : UInt8) : List Char :=
  [Nat.digitChar (b.toNat / 16), Nat.digitChar (b.toNat % 16)]

/-- The hash in sixty-four hexadecimal digits. -/
def toHex (h : ContentHash) : String := String.ofList (h.bytes.toList.flatMap hexOfByte)

/-- The first sixteen hexadecimal digits. -/
def short (h : ContentHash) : String := String.ofList (h.toHex.toList.take 16)

/-- The form in which a hash shows up in diagnostics. -/
def describe (h : ContentHash) : String := "ContentHash(" ++ h.short ++ ")"

/-- A hash from its bytes, if there are thirty-two of them. -/
def ofBytes? (bytes : List UInt8) : Option ContentHash :=
  if h : bytes.length = 32 then some ⟨⟨bytes.toArray, by simp [h]⟩⟩ else none

end ContentHash

end AdaptivePopulation
