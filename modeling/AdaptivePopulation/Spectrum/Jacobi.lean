import AdaptivePopulation.Fault
import AdaptivePopulation.Spectrum.SquareMatrix

/-!
# Jacobi eigenvalues

Eigenvalues of a symmetric matrix by rotations.  Each rotation annihilates the largest entry above
the diagonal; the diagonal of the last matrix is the answer, in no particular order.  A tolerance
that is not positive never stops a diagonal matrix, whose next rotation then takes the corner entry
for its pivot on both sides.
-/

namespace AdaptivePopulation.Spectrum

variable {α : Type} [Scalar α] {n : Nat}

/-- The positions above the diagonal, row by row. -/
def upperPositions (n : Nat) : List (Fin n × Fin n) :=
  (List.finRange n).flatMap fun i => ((List.finRange n).filter (i < ·)).map (i, ·)

/-- The largest magnitude above the diagonal and where it is first reached; no position if no entry
there has a positive magnitude. -/
def largestOffDiagonal (A : SquareMatrix α n) : α × Option (Fin n × Fin n) :=
  (upperPositions n).foldl
    (fun best (i, j) =>
      let magnitude := Scalar.abs (A.get i j)
      if best.1 < magnitude then (magnitude, some (i, j)) else best)
    (0.0, none)

/-- A plane rotation, by the tangent, cosine and sine of its angle. -/
structure Rotation (α : Type) where
  tangent : α
  cosine : α
  sine : α

/-- The rotation by the smaller of the two angles that annihilate the entry `(p, q)`. -/
def Rotation.annihilating (A : SquareMatrix α n) (p q : Fin n) : Rotation α :=
  let theta := (A.get q q - A.get p p) / (2.0 * A.get p q)
  let tangent :=
    if 0.0 ≤ theta then 1.0 / (theta + Scalar.sqrt (1.0 + theta * theta))
    else -1.0 / (-theta + Scalar.sqrt (1.0 + theta * theta))
  let cosine := 1.0 / Scalar.sqrt (1.0 + tangent * tangent)
  ⟨tangent, cosine, tangent * cosine⟩

/-- The entry `(i, j)` after the rotation in the plane of `p` and `q`. -/
def Rotation.entry (r : Rotation α) (A : SquareMatrix α n) (p q i j : Fin n) : α :=
  if (i = p ∧ j = q) ∨ (i = q ∧ j = p) then 0.0
  else if i = p ∧ j = p then A.get p p - r.tangent * A.get p q
  else if i = q ∧ j = q then A.get q q + r.tangent * A.get p q
  else if j = q then r.sine * A.get i p + r.cosine * A.get i q
  else if i = q then r.sine * A.get j p + r.cosine * A.get j q
  else if j = p then r.cosine * A.get i p - r.sine * A.get i q
  else if i = p then r.cosine * A.get j p - r.sine * A.get j q
  else A.get i j

/-- One rotation, which makes the entry `(p, q)` zero. -/
def rotate (A : SquareMatrix α n) (p q : Fin n) : SquareMatrix α n :=
  let r := Rotation.annihilating A p q
  .ofFn fun i j => r.entry A p q i j

/-- At most `limit` rotations, fewer if the largest entry above the diagonal falls below the
tolerance. -/
def diagonalize (h : 0 < n) (tolerance : α) : Nat → SquareMatrix α n → SquareMatrix α n
  | 0, A => A
  | limit + 1, A =>
    let (magnitude, position) := largestOffDiagonal A
    if magnitude < tolerance then A
    else
      let (p, q) := position.getD (⟨0, h⟩, ⟨0, h⟩)
      diagonalize h tolerance limit (rotate A p q)

/-- The eigenvalues of a matrix that is not empty. -/
def eigenvalues (h : 0 < n) (A : SquareMatrix α n) (tolerance : α) (limit : Nat) : List α :=
  (diagonalize h tolerance limit A).diagonal

/-- The eigenvalues of a matrix of any size; an empty matrix has none, but no corner entry for a
rotation to start from either. -/
def jacobiEigenvalues : (n : Nat) → SquareMatrix α n → (tolerance : α) → (limit : Nat) →
    Except Fault (List α)
  | 0, _, tolerance, limit =>
    if limit = 0 ∨ (0.0 : α) < tolerance then .ok [] else .error .emptyMatrix
  | _ + 1, A, tolerance, limit => .ok (eigenvalues (Nat.succ_pos _) A tolerance limit)

end AdaptivePopulation.Spectrum
