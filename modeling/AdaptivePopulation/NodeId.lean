import AdaptivePopulation.Random.Stream
import Std.Data.TreeSet

/-!
# Node identifiers

Stable names of nodes, ordered by code points.
-/

namespace AdaptivePopulation

/-- The identifier of a node: a text, ordered by its code points. -/
abbrev NodeId := String

/-- The distinct identifiers of a list in increasing order. -/
def sortIds (ids : List NodeId) : List NodeId := (Std.TreeSet.ofList ids compare).toList

/-- Whether a list in increasing order holds an identifier.  The entry in the middle tells on which
side of it to go on. -/
def searchSorted (id : NodeId) (ids : List NodeId) : Bool :=
  if h : 0 < ids.length then
    have middle : ids.length / 2 < ids.length := Nat.div_lt_self h Nat.one_lt_two
    match compare id ids[ids.length / 2] with
    | .lt => searchSorted id (ids.take (ids.length / 2))
    | .eq => true
    | .gt => searchSorted id (ids.drop (ids.length / 2 + 1))
  else false
termination_by ids.length
decreasing_by
  all_goals
    simp only [List.length_take, List.length_drop]
    omega

/-- The lowest `digits` hexadecimal digits of a number, the highest first. -/
def hexDigits : (digits : Nat) → Nat → List Char
  | 0, _ => []
  | k + 1, n => hexDigits k (n / 16) ++ [Nat.digitChar (n % 16)]

/-- A universally unique identifier of version four, from two draws. -/
def NodeId.generate (g : RandomStream) : NodeId × RandomStream :=
  let (high, g) := g.next
  let (low, g) := g.next
  let high := high.toNat
  let low := low.toNat
  let text := hexDigits 8 (high >>> 32) ++ '-' :: hexDigits 4 (high >>> 16) ++
    '-' :: '4' :: hexDigits 3 high ++
    '-' :: Nat.digitChar (8 + low >>> 60 % 4) :: hexDigits 3 (low >>> 48) ++
    '-' :: hexDigits 12 low
  (String.ofList text, g)

end AdaptivePopulation
