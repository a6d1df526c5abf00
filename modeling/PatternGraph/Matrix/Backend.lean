/-
  PatternGraph.Matrix.Backend

  What a projection needs of a boolean matrix: a matrix without entries and a
  way to set one entry.  Either may refuse, in an error type of its own.
-/

namespace PatternGraph

/-- Operations on boolean matrices of type `M` that fail with an `ε`. -/
structure MatrixBackend (M ε : Type) where
  /-- A matrix of so many rows and columns in which every entry is false. -/
  zero : (rowCount columnCount : Nat) → Except ε M
  /-- The matrix with the entry at a row and a column set to true. -/
  setEntry : M → (row column : Nat) → Except ε M
  /-- A refusal in words. -/
  describe : ε → String

end PatternGraph
