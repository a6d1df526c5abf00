/-
  PatternGraph.Matrix.Sparse

  Sparse boolean matrices.  Each row lists the columns of its true entries in
  increasing order, so equal sets of entries make equal matrices.  Columns are
  32-bit words: a matrix is refused when its columns do not fit, and an entry
  when it lies outside, so no column is ever cut off.
-/
import PatternGraph.Matrix.Backend

namespace PatternGraph

/-- Why a sparse matrix refuses. -/
inductive SparseMatrix.Refusal where
  /-- The entry lies outside the matrix. -/
  | outOfBounds (row column rowCount columnCount : Nat)
  /-- So many columns cannot be numbered in 32 bits. -/
  | tooLarge (columnCount : Nat)
deriving DecidableEq

namespace SparseMatrix.Refusal

/-- One word per cause. -/
def code : Refusal → String
  | .outOfBounds _ _ _ _ => "OutOfBounds"
  | .tooLarge _ => "TooLarge"

/-- The cause in words. -/
def message : Refusal → String
  | .outOfBounds row column rowCount columnCount =>
    "entry (" ++ toString row ++ ", " ++ toString column ++ ") outside "
      ++ toString rowCount ++ "x" ++ toString columnCount ++ " matrix"
  | .tooLarge columnCount =>
    "dimension " ++ toString columnCount ++ " exceeds the supported maximum"

end SparseMatrix.Refusal

/-- A boolean matrix as the increasing columns of each row. -/
structure SparseMatrix where
  columnCount : Nat
  rows : Array (List UInt32)
deriving DecidableEq

namespace SparseMatrix

/-- The matrix without rows and columns. -/
def empty : SparseMatrix := ⟨0, #[]⟩

/-- The matrix of that size without entries. -/
def zero (rowCount columnCount : Nat) : Except Refusal SparseMatrix :=
  if columnCount < UInt32.size then .ok ⟨columnCount, Array.replicate rowCount []⟩
  else .error (.tooLarge columnCount)

/-- Number of rows. -/
def rowCount (m : SparseMatrix) : Nat := m.rows.size

/-- Puts a column into an increasing list that may hold it already. -/
def insertColumn (c : UInt32) : List UInt32 → List UInt32
  | [] => [c]
  | d :: rest =>
    if c < d then c :: d :: rest
    else if c = d then d :: rest
    else d :: insertColumn c rest

/-- Sets an entry to true; setting it again changes nothing. -/
def setEntry (m : SparseMatrix) (row column : Nat) : Except Refusal SparseMatrix :=
  if row < m.rowCount ∧ column < m.columnCount then
    .ok { m with rows := m.rows.modify row (insertColumn (.ofNat column)) }
  else .error (.outOfBounds row column m.rowCount m.columnCount)

/-- The entry at a row and a column; false outside the matrix. -/
def get (m : SparseMatrix) (row column : Nat) : Bool :=
  decide (column < UInt32.size) && m.rows[row]?.any (·.contains (.ofNat column))

/-- Number of true entries. -/
def entryCount (m : SparseMatrix) : Nat :=
  m.rows.toList.flatten.length

/-- The true entries, row by row. -/
def entries (m : SparseMatrix) : List (Nat × Nat) :=
  m.rows.toList.zipIdx.flatMap fun (columns, row) => columns.map fun c => (row, c.toNat)

/-- Sparse matrices as a backend. -/
def backend : MatrixBackend SparseMatrix Refusal where
  zero := zero
  setEntry := setEntry
  describe := Refusal.message

/-! ## Inserting a column -/

theorem mem_insertColumn {c x : UInt32} {l : List UInt32} :
    x ∈ insertColumn c l ↔ x = c ∨ x ∈ l := by
  induction l with
  | nil => simp [insertColumn]
  | cons d rest ih => grind [insertColumn]

/-- Increasing rows stay increasing. -/
theorem pairwise_insertColumn {c : UInt32} {l : List UInt32} (h : l.Pairwise (· < ·)) :
    (insertColumn c l).Pairwise (· < ·) := by
  induction l with
  | nil => simp [insertColumn]
  | cons d rest ih =>
    obtain ⟨hd, hrest⟩ := List.pairwise_cons.mp h
    rw [insertColumn]
    split
    next hlt =>
      refine List.pairwise_cons.mpr ⟨fun x hx => ?_, h⟩
      rcases List.mem_cons.mp hx with rfl | hx
      · exact hlt
      · exact UInt32.lt_trans hlt (hd x hx)
    next hge =>
      split
      · exact h
      next hne =>
        refine List.pairwise_cons.mpr ⟨fun x hx => ?_, ih hrest⟩
        rcases mem_insertColumn.mp hx with rfl | hx
        · grind
        · exact hd x hx

end SparseMatrix

end PatternGraph
