import AdaptivePopulation.Calendar.Text
import AdaptivePopulation.Handover.Log
import AdaptivePopulation.Json.Decoder
import AdaptivePopulation.Json.Writer

/-!
# Handovers as JSON
-/

namespace AdaptivePopulation

/-- A timestamp in its written form. -/
def Instant.decode : Json.Decoder Instant := fun depth d =>
  (Json.Decoder.string depth d).bind fun s => Instant.read? s.toList

namespace Handover

/-- The object that a handover is written as. -/
def toJson (h : Handover Float) : Json :=
  .obj [("source", .str h.source), ("target", .str h.target), ("intensity", .ofFloat h.intensity),
    ("protocol", .str (Tag.name h.protocol)), ("at", .str h.time.toText)]

/-- Reads a handover; every field is required. -/
def decode : Json.Decoder (Handover Float) := fun depth d => do
  let r ← Json.Record.read ["source", "target", "intensity", "protocol", "at"] depth d
  return {
    source := ← r.required "source" Json.Decoder.string
    target := ← r.required "target" Json.Decoder.string
    intensity := ← r.required "intensity" Json.Decoder.float
    protocol := ← r.required "protocol" Json.Decoder.tag
    time := ← r.required "at" Instant.decode }

end Handover

end AdaptivePopulation
