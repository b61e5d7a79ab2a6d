import AdaptivePopulation.History
import AdaptivePopulation.Proofs.Retention

/-!
# What a window holds

A window that has only been pushed into and cleared holds the last snapshots that were pushed since
it was cleared, as many as its capacity admits.
-/

namespace AdaptivePopulation

namespace HistoryWindow

variable {α : Type} {w : HistoryWindow α} {pushed : List (List α)}

/-- The window holds the most recent of the snapshots that have been pushed. -/
def Holds (w : HistoryWindow α) (pushed : List (List α)) : Prop :=
  w.snapshots = pushed.rtake w.capacity

theorem holds_empty (capacity : Nat) : (empty capacity : HistoryWindow α).Holds [] :=
  (List.rtake_nil _).symm

theorem holds_clear (w : HistoryWindow α) : w.clear.Holds [] :=
  (List.rtake_nil _).symm

@[simp] theorem capacity_push (w : HistoryWindow α) (s : List α) :
    (w.push s).capacity = w.capacity :=
  rfl

/-- What holds of every snapshot and of a new one holds of every snapshot after it is pushed. -/
theorem forall_mem_push {P : List α → Prop} {s : List α} (h : ∀ t ∈ w.snapshots, P t) (hs : P s) :
    ∀ t ∈ (w.push s).snapshots, P t := by
  refine List.forall_mem_append.2 ⟨fun t ht => h t ?_, List.forall_mem_singleton.2 hs⟩
  split_ifs at ht
  · exact List.mem_of_mem_drop ht
  · exact ht

theorem latest?_push (w : HistoryWindow α) (s : List α) : (w.push s).latest? = some s :=
  List.getLast?_concat

theorem Holds.length_eq (h : w.Holds pushed) : w.length = min pushed.length w.capacity := by
  rw [length, h, length_rtake]

theorem Holds.push (h : w.Holds pushed) (hc : 0 < w.capacity) (s : List α) :
    (w.push s).Holds (pushed ++ [s]) := by
  have kept := rtake_concat pushed hc s
  rw [← h] at kept
  simpa only [Holds, HistoryWindow.push, isFull, length, beq_iff_eq] using kept

end HistoryWindow

end AdaptivePopulation
