import AdaptivePopulation.History.Json
import AdaptivePopulation.Proofs.Json.Decoding

/-!
# Windows as text

The text under which a window is kept is read as the window itself if all its values are finite, and
refused otherwise.  Reading does not ask whether the snapshots fit the capacity.
-/

namespace AdaptivePopulation

open Json

namespace HistoryWindow

/-- All values are finite. -/
def IsFinite (w : HistoryWindow Float) : Prop := ∀ s ∈ w.snapshots, ∀ x ∈ s, x.isFinite

instance (w : HistoryWindow Float) : Decidable w.IsFinite :=
  inferInstanceAs (Decidable (∀ s ∈ w.snapshots, ∀ x ∈ s, _))

/-- What stands in a text for a snapshot. -/
def writtenSnapshot (s : List Float) : Json := .arr (s.map fun x => (ofFloat x).settled)

/-- What stands in a text for the fields of a window. -/
def written (w : HistoryWindow Float) : List (String × Json) :=
  [("capacity", .ofNat w.capacity), ("snapshots", .arr (w.snapshots.map writtenSnapshot))]

variable {w : HistoryWindow Float}

theorem settled_toJson (w : HistoryWindow Float) : w.toJson.settled = .obj w.written := by
  simp [toJson, written, writtenSnapshot, settled, settledFields, settledItems_eq_map, Json.ofNat,
    Function.comp_def]

theorem legible_written (h : w.capacity < 2 ^ 64) : (Json.obj w.written).Legible := by
  have capacity : (Json.ofNat w.capacity).Legible := .num ⟨by omega, by exact_mod_cast h⟩
  have snapshots : (Json.arr (w.snapshots.map writtenSnapshot)).Legible := by
    refine .arr fun j hj => ?_
    obtain ⟨s, -, rfl⟩ := List.mem_map.1 hj
    refine .arr fun k hk => ?_
    obtain ⟨x, -, rfl⟩ := List.mem_map.1 hk
    exact legible_settled_ofFloat x
  exact .obj (List.forall_mem_cons.2 ⟨capacity, List.forall_mem_singleton.2 snapshots⟩)

/-- A window is read from its own text if all its values are finite; otherwise the text is
refused. -/
theorem ofText?_toText (h : w.capacity < 2 ^ 64) :
    ofText? w.toText = if w.IsFinite then some w else none := by
  have read : Document.read? w.toText.toList = some (Json.obj w.written).document := by
    rw [toText, ← toText_settled, settled_toJson]
    exact read?_toText (legible_written h)
  have record := read_documents w.written (by simp [written]) 126
  have capacity : Decoder.word 126 (document (.ofNat w.capacity)) = some w.capacity :=
    nat_ofNat (Nat.le_pred_of_lt h) _
  have snapshots : Decoder.list (Decoder.list Decoder.float) 126
      (document (.arr (w.snapshots.map writtenSnapshot))) =
        if w.IsFinite then some w.snapshots else none :=
    list_documents_ite fun s _ => list_documents_ite fun x _ => float_settled x 124
  simp only [written, List.map_cons, List.map_nil] at record
  rw [ofText?, Json.read?, read, Option.bind_some, nestingLimit, decode, written, record]
  by_cases finite : w.IsFinite <;>
    simp [Record.required, List.lookup, capacity, snapshots, finite]

end HistoryWindow

end AdaptivePopulation
