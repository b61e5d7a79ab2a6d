import Mathlib.Data.String.Basic
import AdaptivePopulation.NodeId

/-!
# Identifiers in order

A list of distinct identifiers in increasing order is found by sorting, and is searched by halves.
-/

namespace AdaptivePopulation

theorem sortIds_pairwise (ids : List NodeId) : (sortIds ids).Pairwise (· < ·) :=
  (Std.TreeSet.ofList ids compare).ordered_toList.imp compare_lt_iff_lt.1

@[simp] theorem mem_sortIds {ids : List NodeId} {id : NodeId} : id ∈ sortIds ids ↔ id ∈ ids := by
  simp [sortIds, Std.TreeSet.mem_toList, Std.TreeSet.mem_ofList]

theorem nodup_sortIds (ids : List NodeId) : (sortIds ids).Nodup :=
  (sortIds_pairwise ids).imp ne_of_lt

variable {ids : List NodeId} {id : NodeId}

/-- An entry of an ordered list splits it into what is less and what is greater. -/
theorem mem_iff_of_getElem (h : ids.Pairwise (· < ·)) {i : Nat} (hi : i < ids.length) :
    id ∈ ids ↔
      id < ids[i] ∧ id ∈ ids.take i ∨ id = ids[i] ∨ ids[i] < id ∧ id ∈ ids.drop (i + 1) := by
  have halves : ids = ids.take i ++ ids[i] :: ids.drop (i + 1) := by
    rw [← List.drop_eq_getElem_cons hi, List.take_append_drop]
  have parts : (ids.take i ++ ids[i] :: ids.drop (i + 1)).Pairwise (· < ·) := halves ▸ h
  obtain ⟨-, above, below⟩ := List.pairwise_append.1 parts
  have less : id ∈ ids.take i → id < ids[i] := fun hm => below id hm _ List.mem_cons_self
  have greater : id ∈ ids.drop (i + 1) → ids[i] < id := fun hm => List.rel_of_pairwise_cons above hm
  have mem : id ∈ ids ↔ id ∈ ids.take i ∨ id = ids[i] ∨ id ∈ ids.drop (i + 1) := by
    conv_lhs => rw [halves]
    rw [List.mem_append, List.mem_cons]
  rw [mem, and_iff_right_of_imp less, and_iff_right_of_imp greater]

/-- Searching by halves finds exactly the entries of an ordered list. -/
theorem searchSorted_iff (h : ids.Pairwise (· < ·)) : searchSorted id ids ↔ id ∈ ids := by
  fun_induction searchSorted id ids with
  | case1 ids _ middle hc ih =>
    have hlt := compare_lt_iff_lt.1 hc
    rw [ih (h.sublist (List.take_sublist _ _)), mem_iff_of_getElem h middle]
    simp [hlt, hlt.ne, hlt.not_gt]
  | case2 ids _ middle hc =>
    simp [compare_eq_iff_eq.1 hc]
  | case3 ids _ middle hc ih =>
    have hgt := compare_gt_iff_gt.1 hc
    rw [ih (h.sublist (List.drop_sublist _ _)), mem_iff_of_getElem h middle]
    simp [hgt, hgt.ne', hgt.not_gt]
  | case4 ids empty =>
    simp [List.length_eq_zero_iff.1 (Nat.eq_zero_of_not_pos empty)]

end AdaptivePopulation
