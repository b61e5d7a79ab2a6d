import AdaptivePopulation.History
import AdaptivePopulation.Json.Decoder
import AdaptivePopulation.Json.Writer

/-!
# History windows as JSON

A window that is read keeps the capacity and the snapshots of the text, whether they fit or not.
-/

namespace AdaptivePopulation.HistoryWindow

/-- The object that a window is written as. -/
def toJson (w : HistoryWindow Float) : Json :=
  .obj [("capacity", .ofNat w.capacity),
    ("snapshots", .arr (w.snapshots.map fun s => .arr (s.map .ofFloat)))]

/-- Reads a window; both fields are required, and nothing ties the snapshots to the capacity. -/
def decode : Json.Decoder (HistoryWindow Float) := fun depth d => do
  let r ← Json.Record.read ["capacity", "snapshots"] depth d
  return {
    capacity := ← r.required "capacity" Json.Decoder.word
    snapshots := ←
      r.required "snapshots" (Json.Decoder.list (Json.Decoder.list Json.Decoder.float)) }

/-- The text under which a window is kept. -/
def toText (w : HistoryWindow Float) : String := w.toJson.toText

/-- The window that a text holds. -/
def ofText? (text : String) : Option (HistoryWindow Float) := Json.read? decode text

end AdaptivePopulation.HistoryWindow
