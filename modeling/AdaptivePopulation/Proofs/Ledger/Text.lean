import AdaptivePopulation.Ledger.Json
import AdaptivePopulation.Proofs.Calendar.Text
import AdaptivePopulation.Proofs.Json.Decoding
import AdaptivePopulation.Proofs.Ledger.Verification

/-!
# Ledgers as text

The text under which a ledger is kept is read as the ledger itself, block by block and field by
field, if all integrations are finite.  A text with another integration, which stands there as null,
is refused.
-/

namespace AdaptivePopulation

open Json

/-! ## Moments and hashes -/

theorem Instant.decode_toText {t : Instant} (h : t.FourDigit) (depth : Nat) :
    decode depth (document (.str t.toText)) = some t := by
  simp [decode, document, Decoder.string, stringOf?_piecesOf, toText, read?_write h]

theorem Json.tag_name (linkage : HashLinkage) (depth : Nat) :
    Decoder.tag depth (document (.str (Tag.name linkage))) = some linkage := by
  rw [document, Decoder.tag, stringOf?_piecesOf]
  cases linkage <;> decide

namespace ContentHash

theorem legible_toJson (h : ContentHash) : h.toJson.Legible := by
  refine .arr fun j hj => ?_
  obtain ⟨b, -, rfl⟩ := List.mem_map.1 hj
  refine .num ⟨by omega, ?_⟩
  have := b.toNat_lt
  omega

theorem ofBytes?_bytes (h : ContentHash) : ofBytes? h.bytes.toList = some h := by
  rcases h with ⟨⟨bytes, size⟩⟩
  simp [ofBytes?, Vector.toList, size]

theorem decode_toJson (h : ContentHash) (depth : Nat) :
    decode (depth + 1) h.toJson.document = some h := by
  have bytes : Decoder.list (Decoder.nat 255) (depth + 1) h.toJson.document =
      some (h.bytes.toList.map UInt8.toNat) := by
    have small : ∀ n ∈ h.bytes.toList.map UInt8.toNat,
        Decoder.nat 255 depth (document (.ofNat n)) = some n := by
      intro n hn
      obtain ⟨b, -, rfl⟩ := List.mem_map.1 hn
      exact nat_ofNat (Nat.le_of_lt_succ b.toNat_lt) depth
    simpa [toJson, Function.comp_def] using list_documents small
  simp [decode, bytes, ofBytes?_bytes, Function.comp_def]

end ContentHash

/-! ## Blocks -/

namespace LedgerBlock

/-- The index fits sixty-four bits, and the moment has a timestamp that can be read. -/
structure Plain (b : LedgerBlock) : Prop where
  index : b.index < 2 ^ 64
  time : b.time.FourDigit

/-- What stands in a text for the fields of a block. -/
def written (b : LedgerBlock) : List (String × Json) :=
  [("index", .ofNat b.index), ("subject", .str b.subject), ("from", .str b.source),
    ("to", .str b.target), ("transition", .str b.transition),
    ("integration", (ofFloat b.integration).settled), ("timestamp", .str b.time.toText),
    ("hash", b.hash.toJson), ("previous_hash", .ofOption (b.previous.map ContentHash.toJson))]

theorem legible_previous (o : Option ContentHash) :
    (ofOption (o.map ContentHash.toJson)).Legible := by
  cases o with
  | none => exact .null
  | some h => exact h.legible_toJson

theorem settled_toJson (b : LedgerBlock) : b.toJson.settled = .obj b.written := by
  simp [toJson, written, settled, settledFields, Json.ofNat, b.hash.legible_toJson.settled_eq,
    (legible_previous b.previous).settled_eq]

theorem legible_written {b : LedgerBlock} (h : b.Plain) : (Json.obj b.written).Legible := by
  have index : (Json.ofNat b.index).Legible := .num ⟨by omega, by exact_mod_cast h.index⟩
  refine .obj ?_
  simp only [written, List.forall_mem_cons, List.not_mem_nil, false_imp_iff, implies_true,
    and_true]
  exact ⟨index, .str _, .str _, .str _, .str _, legible_settled_ofFloat _, .str _,
    b.hash.legible_toJson, legible_previous _⟩

theorem decode_written {b : LedgerBlock} (h : b.Plain) (depth : Nat) :
    decode (depth + 2) (Json.obj b.written).document =
      if b.integration.isFinite then some b else none := by
  have record := read_documents b.written (by simp [written]) (depth + 1)
  have index : Decoder.word (depth + 1) (document (.ofNat b.index)) = some b.index :=
    nat_ofNat (Nat.le_pred_of_lt h.index) _
  have text (s : String) : Decoder.string (depth + 1) (document (.str s)) = some s :=
    stringOf?_piecesOf s
  have time := Instant.decode_toText h.time (depth + 1)
  have hash := b.hash.decode_toJson depth
  have previous : Decoder.optional ContentHash.decode (depth + 1)
      (ofOption (b.previous.map ContentHash.toJson)).document = some b.previous := by
    cases b.previous with
    | none => rfl
    | some p =>
      have := p.decode_toJson depth
      show (ContentHash.decode (depth + 1) p.toJson.document).map some = some (some p)
      rw [this, Option.map_some]
  have names : b.written.map Prod.fst = fieldNames := rfl
  rw [names] at record
  rw [decode, record]
  simp only [written, List.map_cons, List.map_nil, Record.required, Record.optional,
    Option.pure_def, Option.bind_eq_bind, Option.bind_some, List.lookup, BEq.rfl, String.reduceBEq,
    index, text, float_settled, time, hash, previous]
  split_ifs <;> rfl

end LedgerBlock

/-! ## Ledgers -/

namespace Ledger

theorem settled_toJson (l : Ledger) : l.toJson.settled =
    .obj [("linkage", .str (Tag.name l.linkage)),
      ("blocks", .arr (l.blocks.map fun b => .obj b.written))] := by
  simp [toJson, settled, settledFields, settledItems_eq_map, LedgerBlock.settled_toJson]

theorem legible_settled {l : Ledger} (h : ∀ b ∈ l.blocks, b.Plain) : l.toJson.settled.Legible := by
  rw [settled_toJson]
  refine .obj fun f hf => ?_
  obtain rfl | rfl : f = _ ∨ f = _ := by simpa using hf
  · exact .str _
  · refine .arr fun j hj => ?_
    obtain ⟨b, hb, rfl⟩ := List.mem_map.1 hj
    exact LedgerBlock.legible_written (h b hb)

/-- A ledger is read from its own text if all its integrations are finite; otherwise the text is
refused. -/
theorem ofText?_toText {l : Ledger} (h : ∀ b ∈ l.blocks, b.Plain) :
    ofText? l.toText = if l.Readable then some l else none := by
  have read : Document.read? l.toText.toList = some l.toJson.settled.document := by
    rw [toText, ← toText_settled]
    exact read?_toText (legible_settled h)
  have record := read_documents [("linkage", .str (Tag.name l.linkage)),
    ("blocks", .arr (l.blocks.map fun b => .obj b.written))] (by simp) 126
  have linkage := tag_name l.linkage 126
  have blocks : Decoder.list LedgerBlock.decode 126
      (document (.arr (l.blocks.map fun b => .obj b.written))) =
        if l.Readable then some l.blocks else none :=
    list_documents_ite fun b hb => LedgerBlock.decode_written (h b hb) 123
  simp only [List.map_cons, List.map_nil] at record
  rw [ofText?, Json.read?, read, Option.bind_some, nestingLimit, decode, settled_toJson, record]
  by_cases readable : l.Readable <;>
    simp [Record.required, List.lookup, linkage, blocks, readable]

/-! ## Recorded ledgers -/

/-- A recorded ledger tells of what was recorded, in this order. -/
theorem records_recorded (linkage : HashLinkage) (records : List (Instant × Transition)) :
    (recorded linkage records).blocks.map (fun b => (b.time, b.change)) = records := by
  induction records using List.reverseRecOn with
  | nil => rfl
  | append_singleton records r ih =>
    rw [recorded, List.foldl_concat, blocks_record, List.map_append]
    exact congrArg (· ++ [r]) ih

theorem length_recorded (linkage : HashLinkage) (records : List (Instant × Transition)) :
    (recorded linkage records).blocks.length = records.length := by
  rw [← List.length_map (fun b => (b.time, b.change)), records_recorded]

theorem plain_recorded (linkage : HashLinkage) {records : List (Instant × Transition)}
    (clock : ∀ r ∈ records, r.1.FourDigit) (count : records.length ≤ 2 ^ 64) :
    ∀ b ∈ (recorded linkage records).blocks, b.Plain := by
  intro b hb
  have index := index_lt_of_verify (recorded_spec linkage records).2 hb
  rw [length_recorded] at index
  have told : (b.time, b.change) ∈ records := by
    have := List.mem_map_of_mem (f := fun b : LedgerBlock => (b.time, b.change)) hb
    rwa [records_recorded] at this
  exact ⟨index.trans_le count, clock _ told⟩

theorem readable_recorded (linkage : HashLinkage) (records : List (Instant × Transition)) :
    (recorded linkage records).Readable ↔ ∀ r ∈ records, r.2.integration.isFinite := by
  have := List.forall_mem_map (l := (recorded linkage records).blocks)
    (f := fun b => (b.time, b.change)) (P := fun r => r.2.integration.isFinite = true)
  rw [records_recorded] at this
  exact this.symm

/-- What is recorded by clocks of the years from 0 to 9999, in no more blocks than sixty-four bits
can count, is read from its text as the same ledger, which is consistent, if all integrations are
finite.  If one is infinite or undefined, the text of the ledger is refused. -/
theorem recorded_survives_text (linkage : HashLinkage) (records : List (Instant × Transition))
    (clock : ∀ r ∈ records, r.1.FourDigit) (count : records.length ≤ 2 ^ 64) :
    let l := recorded linkage records
    ((∀ r ∈ records, r.2.integration.isFinite) →
        ofText? l.toText = some l ∧ l.verify = .ok ()) ∧
      ((∃ r ∈ records, ¬ r.2.integration.isFinite) → ofText? l.toText = none) := by
  have read := ofText?_toText (plain_recorded linkage clock count)
  refine ⟨fun finite => ⟨?_, (recorded_spec linkage records).2⟩, fun ⟨r, hr, infinite⟩ => ?_⟩
  · rw [read, if_pos ((readable_recorded linkage records).2 finite)]
  · rw [read, if_neg]
    exact fun readable => infinite ((readable_recorded linkage records).1 readable r hr)

/-- A name that needs escapes in a leap second, and the population in the first second of all. -/
def oddlyRecorded : List (Instant × Transition) :=
  [(⟨951782399, 1500000000⟩, ⟨"node-\"0\"\n", "Explore", "Sync", 0.1⟩),
    (⟨-62167219200, 1⟩, ⟨"", "é", "\\", -1.5e300⟩)]

/-- A transition with an undefined integration at the epoch. -/
def undefinedRecord : Instant × Transition :=
  (.epoch, ⟨"population", "Exploration", "Crisis", 0.0 / 0.0⟩)

theorem recorded_survives_text_chained :
    (ofText? (recorded .chained oddlyRecorded).toText = some (recorded .chained oddlyRecorded) ∧
        (recorded .chained oddlyRecorded).verify = .ok ()) ∧
      ofText? (recorded .independent [undefinedRecord]).toText = none := by
  have clock : ∀ r ∈ oddlyRecorded, r.1.FourDigit := by
    simp only [oddlyRecorded, List.forall_mem_cons, List.not_mem_nil, false_imp_iff, implies_true,
      and_true]
    exact ⟨⟨by decide, by decide, by decide⟩, ⟨by decide, by decide, by decide⟩⟩
  have epoch : ∀ r ∈ [undefinedRecord], r.1.FourDigit :=
    List.forall_mem_singleton.2 ⟨by decide, by decide, by decide⟩
  constructor
  · exact (recorded_survives_text .chained oddlyRecorded clock (by decide)).1 (by decide +kernel)
  · exact (recorded_survives_text .independent [undefinedRecord] epoch (by decide)).2
      ⟨undefinedRecord, List.mem_singleton_self _, by decide +kernel⟩

/-- The text of a ledger with an undefined integration cannot be read. -/
theorem undefined_integration_is_lost :
    undefinedRecord.1.FourDigit ∧
      ¬ ∃ loaded, ofText? (recorded .chained [undefinedRecord]).toText = some loaded := by
  have epoch : undefinedRecord.1.FourDigit := ⟨by decide, by decide, by decide⟩
  refine ⟨epoch, fun ⟨loaded, read⟩ => ?_⟩
  rw [ofText?_toText (plain_recorded .chained (List.forall_mem_singleton.2 epoch) (by decide)),
    if_neg] at read
  · contradiction
  · rw [readable_recorded]
    decide +kernel

end Ledger

end AdaptivePopulation
