import Mathlib.Data.List.DropRight
import Mathlib.Tactic.SplitIfs

/-!
# What a bounded record retains

Windows and logs make room for a new entry by giving up their oldest one, if they hold exactly as
many as they may.  A record that holds the last entries of what was recorded then goes on to do so.
-/

namespace AdaptivePopulation

variable {β : Type} {recorded : List β} {bound : ℕ}

theorem length_rtake (recorded : List β) (bound : ℕ) :
    (recorded.rtake bound).length = min recorded.length bound := by
  rw [List.rtake, List.length_drop]
  omega

theorem rtake_of_length_le (h : recorded.length ≤ bound) : recorded.rtake bound = recorded := by
  rw [List.rtake, Nat.sub_eq_zero_of_le h, List.drop_zero]

/-- The last entries after a new one, from the last entries before it. -/
theorem rtake_concat (recorded : List β) (pos : 0 < bound) (b : β) :
    (if (recorded.rtake bound).length = bound then (recorded.rtake bound).drop 1
      else recorded.rtake bound) ++ [b] = (recorded ++ [b]).rtake bound := by
  obtain ⟨k, rfl⟩ : ∃ k, bound = k + 1 := ⟨bound - 1, by omega⟩
  rw [List.rtake_concat_succ]
  congr 1
  rw [length_rtake]
  unfold List.rtake
  split_ifs with full
  · rw [List.drop_drop]
    congr 1
    omega
  · congr 1
    omega

end AdaptivePopulation
