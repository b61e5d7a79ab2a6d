import AdaptivePopulation.Handover.Json
import AdaptivePopulation.Ledger.Edit

/-!
# Ledgers as JSON

The text under which ledgers are kept.  A hash is an array of thirty-two whole numbers.
-/

namespace AdaptivePopulation

namespace ContentHash

/-- The array of bytes that a hash is written as. -/
def toJson (h : ContentHash) : Json := .arr (h.bytes.toList.map fun b => .ofNat b.toNat)

/-- Reads a hash: an array of thirty-two bytes. -/
def decode : Json.Decoder ContentHash := fun depth d => do
  let bytes ← Json.Decoder.list (Json.Decoder.nat 255) depth d
  ofBytes? (bytes.map UInt8.ofNat)

end ContentHash

namespace LedgerBlock

/-- The object that a block is written as. -/
def toJson (b : LedgerBlock) : Json :=
  .obj [("index", .ofNat b.index), ("subject", .str b.subject), ("from", .str b.source),
    ("to", .str b.target), ("transition", .str b.transition),
    ("integration", .ofFloat b.integration), ("timestamp", .str b.time.toText),
    ("hash", b.hash.toJson), ("previous_hash", .ofOption (b.previous.map ContentHash.toJson))]

/-- The fields of a block in the order in which they are written. -/
def fieldNames : List String :=
  ["index", "subject", "from", "to", "transition", "integration", "timestamp", "hash",
    "previous_hash"]

/-- Reads a block; only the preceding hash may be omitted. -/
def decode : Json.Decoder LedgerBlock := fun depth d => do
  let r ← Json.Record.read fieldNames depth d
  return {
    index := ← r.required "index" Json.Decoder.word
    subject := ← r.required "subject" Json.Decoder.string
    source := ← r.required "from" Json.Decoder.string
    target := ← r.required "to" Json.Decoder.string
    transition := ← r.required "transition" Json.Decoder.string
    integration := ← r.required "integration" Json.Decoder.float
    time := ← r.required "timestamp" Instant.decode
    hash := ← r.required "hash" ContentHash.decode
    previous := ← r.optional "previous_hash" ContentHash.decode }

end LedgerBlock

/-- The edit that puts a JSON value into the field with a name. -/
def BlockEdit.decode (name : String) : Json.Decoder BlockEdit := fun depth d =>
  match name with
  | "index" => (Json.Decoder.word depth d).map .index
  | "subject" => (Json.Decoder.string depth d).map .subject
  | "from" => (Json.Decoder.string depth d).map .source
  | "to" => (Json.Decoder.string depth d).map .target
  | "transition" => (Json.Decoder.string depth d).map .transition
  | "integration" => (Json.Decoder.float depth d).map .integration
  | "timestamp" => (Instant.decode depth d).map .time
  | "hash" => (ContentHash.decode depth d).map .hash
  | "previous_hash" => (Json.Decoder.optional ContentHash.decode depth d).map .previous
  | _ => none

namespace Ledger

/-- The object that a ledger is written as. -/
def toJson (l : Ledger) : Json :=
  .obj [("linkage", .str (Tag.name l.linkage)), ("blocks", .arr (l.blocks.map LedgerBlock.toJson))]

/-- Reads a ledger; both fields are required and nothing is verified. -/
def decode : Json.Decoder Ledger := fun depth d => do
  let r ← Json.Record.read ["linkage", "blocks"] depth d
  return {
    linkage := ← r.required "linkage" Json.Decoder.tag
    blocks := ← r.required "blocks" (Json.Decoder.list LedgerBlock.decode) }

/-- The text under which a ledger is kept. -/
def toText (l : Ledger) : String := l.toJson.toText

/-- The ledger that a text holds. -/
def ofText? (text : String) : Option Ledger := Json.read? decode text

end Ledger

end AdaptivePopulation
