import AdaptivePopulation.Scalar

/-!
# Square matrices

Matrices of a fixed size, given by their entries.
-/

namespace AdaptivePopulation

/-- An `n × n` matrix, row by row. -/
structure SquareMatrix (α : Type) (n : Nat) where
  rows : Vector (Vector α n) n

namespace SquareMatrix

variable {α : Type} {n : Nat}

/-- The entry at a row and a column. -/
def get (A : SquareMatrix α n) (i j : Fin n) : α := A.rows[i][j]

/-- The matrix with the given entries. -/
def ofFn (f : Fin n → Fin n → α) : SquareMatrix α n := ⟨Vector.ofFn fun i => Vector.ofFn (f i)⟩

/-- The entries row by row. -/
def toList (A : SquareMatrix α n) : List α := A.rows.toList.flatMap Vector.toList

/-- The entries on the diagonal, in order. -/
def diagonal (A : SquareMatrix α n) : List α := List.ofFn fun i => A.get i i

@[simp] theorem get_ofFn (f : Fin n → Fin n → α) (i j : Fin n) : (ofFn f).get i j = f i j := by
  simp [get, ofFn]

@[ext] theorem ext {A B : SquareMatrix α n} (h : ∀ i j, A.get i j = B.get i j) : A = B := by
  obtain ⟨a⟩ := A
  obtain ⟨b⟩ := B
  congr 1
  ext i hi j hj
  exact h ⟨i, hi⟩ ⟨j, hj⟩

end SquareMatrix

end AdaptivePopulation
