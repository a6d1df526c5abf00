/-
  PatternGraph.Proofs.EntrySet

  Sparse matrices under calls that may be refused.  A call that lies outside is
  refused and leaves the matrix as it was; all others are accepted, and what
  was accepted makes the matrix, whatever the order and however often a pair
  was set.  Every row increases at every time, so a search in a row is never
  misled, and no column is ever cut off.
-/
import PatternGraph.Matrix.Search
import PatternGraph.Proofs.Sparse

namespace PatternGraph.SparseMatrix

variable {m start : SparseMatrix} {cells calls : List (Nat × Nat)}
  {rowCount columnCount row column : Nat}

/-- A matrix without entries: one that was made with its size, or the default one. -/
inductive Blank : SparseMatrix → (rowCount columnCount : Nat) → Prop where
  | made {m : SparseMatrix} {rowCount columnCount : Nat} (h : zero rowCount columnCount = .ok m) :
      Blank m rowCount columnCount
  | default : Blank .empty 0 0

/-- The matrix after a call, whether the call is accepted or refused. -/
def attempt (m : SparseMatrix) (cell : Nat × Nat) : SparseMatrix :=
  match m.setEntry cell.1 cell.2 with
  | .ok m' => m'
  | .error _ => m

/-- The matrix after calls, one after the other. -/
def setAll (m : SparseMatrix) (calls : List (Nat × Nat)) : SparseMatrix := calls.foldl attempt m

/-- The pairs whose calls are accepted, in the order of the calls. -/
def accepted : SparseMatrix → List (Nat × Nat) → List (Nat × Nat)
  | _, [] => []
  | m, cell :: rest =>
    match m.setEntry cell.1 cell.2 with
    | .ok m' => cell :: accepted m' rest
    | .error _ => accepted m rest

/-! ## One call -/

/-- A call is refused exactly outside the matrix. -/
theorem setEntry_eq_error {e : Refusal} :
    m.setEntry row column = .error e ↔
      (m.rowCount ≤ row ∨ m.columnCount ≤ column) ∧
        e = .outOfBounds row column m.rowCount m.columnCount := by
  by_cases hin : row < m.rowCount ∧ column < m.columnCount
  · rw [setEntry, if_pos hin]
    refine ⟨nofun, ?_⟩
    rintro ⟨hout, -⟩
    omega
  · rw [setEntry, if_neg hin, Except.error.injEq, eq_comm]
    exact (and_iff_right (by omega)).symm

/-- A call that is accepted lies inside and adds the pair to what was set. -/
theorem Represents.of_setEntry {m' : SparseMatrix}
    (represents : m.Represents rowCount columnCount cells) (h : m.setEntry row column = .ok m') :
    m'.Represents rowCount columnCount (cells ++ [(row, column)]) := by
  have hin : row < m.rowCount ∧ column < m.columnCount := by
    rw [SparseMatrix.setEntry] at h
    split at h
    next hin => exact hin
    next => cases h
  rw [represents.rows, represents.columns] at hin
  obtain ⟨k, hk, represents'⟩ := represents.setEntry hin.1 hin.2
  rw [h] at hk
  cases hk
  exact represents'

/-- A call that searches the row does what the call does that goes through it. -/
theorem Canonical.write_eq (canonical : m.Canonical) (row column : Nat) :
    write row column m =
      match m.setEntry row column with
      | .ok m' => .ok () m'
      | .error e => .error e m := by
  have hrefused (hout : m.rowCount ≤ row ∨ m.columnCount ≤ column) :
      m.setEntry row column = .error (.outOfBounds row column m.rowCount m.columnCount) :=
    setEntry_eq_error.mpr ⟨hout, rfl⟩
  rw [write]
  by_cases hcolumn : m.columnCount ≤ column
  · rw [if_pos hcolumn, hrefused (.inr hcolumn)]
  rw [if_neg hcolumn]
  cases hrow : m.rows[row]? with
  | none => rw [hrefused (.inl (Array.getElem?_eq_none_iff.mp hrow))]
  | some columns =>
      obtain ⟨hlt, hget⟩ := Array.getElem?_eq_some_iff.mp hrow
      have hin : row < m.rowCount ∧ column < m.columnCount := ⟨hlt, Nat.lt_of_not_le hcolumn⟩
      -- changing the row where it stands is setting it to what it is changed to
      have hsame : m.rows.modify row (insertColumn (.ofNat column))
          = m.rows.setIfInBounds row (insertColumn (.ofNat column) columns) := by
        refine Array.ext (by simp) fun i hi _ => ?_
        rw [Array.getElem_modify, Array.getElem_setIfInBounds (by simpa using hi)]
        split
        next heq =>
          subst heq
          rw [hget]
        next => rfl
      rw [setEntry, if_pos hin, hsame,
        ← insertBySearch_eq (canonical.increasing columns (Array.mem_of_getElem? hrow))]

theorem Canonical.read_eq (canonical : m.Canonical) (row column : Nat) :
    m.read row column = m.get row column := by
  rw [read, get]
  cases hrow : m.rows[row]? with
  | none => rfl
  | some columns =>
      rw [Option.any_some, Option.any_some,
        isHere_place (canonical.increasing columns (Array.mem_of_getElem? hrow))]

/-! ## Many calls -/

theorem Blank.represents (blank : Blank start rowCount columnCount) :
    start.Represents rowCount columnCount [] := by
  cases blank with
  | default =>
      refine ⟨⟨by decide, fun columns hmem => ?_⟩, rfl, rfl, fun cell => Iff.rfl⟩
      exact absurd hmem (Array.not_mem_empty columns)
  | made h =>
      have hnarrow : columnCount < UInt32.size := by
        rw [zero] at h
        split at h
        next hlt => exact hlt
        next => cases h
      obtain ⟨m, hm, represents⟩ := represents_zero rowCount hnarrow
      rw [h] at hm
      cases hm
      exact represents

/-- What was accepted is added to what was set before. -/
theorem Represents.setAll (represents : m.Represents rowCount columnCount cells)
    (calls : List (Nat × Nat)) :
    (m.setAll calls).Represents rowCount columnCount (cells ++ m.accepted calls) := by
  induction calls generalizing m cells with
  | nil =>
      rw [accepted, List.append_nil]
      exact represents
  | cons cell rest ih =>
      rw [SparseMatrix.setAll, List.foldl_cons, attempt, accepted]
      cases hcall : m.setEntry cell.1 cell.2 with
      | error e => exact ih represents
      | ok m' =>
          have hrest := ih (represents.of_setEntry hcall)
          rw [List.append_assoc] at hrest
          exact hrest

/-- All that can be seen of a matrix which is a finite set of pairs. -/
structure Shows (m : SparseMatrix) (rowCount columnCount : Nat) (cells : List (Nat × Nat)) :
    Prop where
  /-- A call is refused exactly outside the matrix. -/
  refused : ∀ row column e, m.setEntry row column = .error e ↔
    (rowCount ≤ row ∨ columnCount ≤ column) ∧ e = .outOfBounds row column rowCount columnCount
  /-- A call that searches the row does the same, and leaves the matrix alone if it is refused. -/
  write : ∀ row column, write row column m =
    match m.setEntry row column with
    | .ok m' => .ok () m'
    | .error e => .error e m
  get : ∀ row column, m.get row column = true ↔ (row, column) ∈ cells
  read : ∀ row column, m.read row column = true ↔ (row, column) ∈ cells
  increasing : m.entries.Pairwise (Prod.Lex (· < ·) (· < ·))
  entries : ∀ cell, cell ∈ m.entries ↔ cell ∈ cells
  count : m.entryCount = cells.eraseDups.length
  /-- The word that stands for a column is the column. -/
  columns : ∀ cell ∈ cells, (UInt32.ofNat cell.2).toNat = cell.2

theorem Represents.shows (represents : m.Represents rowCount columnCount cells) :
    m.Shows rowCount columnCount cells where
  refused row column e := by rw [setEntry_eq_error, represents.rows, represents.columns]
  write := represents.canonical.write_eq
  get := represents.get_iff
  read row column := by rw [represents.canonical.read_eq, represents.get_iff]
  increasing := represents.canonical.pairwise_entries
  entries := represents.mem
  count := represents.entryCount_eq
  columns := by
    -- an accepted pair is an entry, and the column of an entry is a word
    rintro ⟨i, j⟩ hcell
    obtain ⟨columns, -, c, -, rfl⟩ := mem_entries.mp ((represents.mem _).mpr hcell)
    rw [UInt32.ofNat_toNat]

/-- At every time of a run the matrix is the finite set of the pairs that were accepted, and runs
    that accept the same pairs lead to equal matrices. -/
theorem Blank.setAll_exact (blank : Blank start rowCount columnCount) (calls : List (Nat × Nat)) :
    (start.setAll calls).Shows rowCount columnCount (start.accepted calls) ∧
      ∀ start' calls', Blank start' rowCount columnCount →
        (∀ cell, cell ∈ start.accepted calls ↔ cell ∈ start'.accepted calls') →
          start.setAll calls = start'.setAll calls' := by
  have represents := blank.represents.setAll calls
  refine ⟨represents.shows, ?_⟩
  intro start' calls' blank' hsame
  exact represents.unique (blank'.represents.setAll calls') hsame

/-- Two runs on a made matrix accept the same pairs in another order, one of them twice; other calls
    lie outside by a row, by a column, and by more columns than there are words. -/
theorem Blank.setAll_exact_of_refusals :
    let start : SparseMatrix := ⟨3, #[[], []]⟩
    let calls := [(1, 2), (2, 0), (1, 0), (1, 2), (0, 3), (0, 1)]
    let calls' := [(0, 1), (1, 4294967296), (1, 0), (1, 2)]
    zero 2 3 = .ok start ∧ start.accepted calls = [(1, 2), (1, 0), (1, 2), (0, 1)] ∧
      start.accepted calls' = [(0, 1), (1, 0), (1, 2)] ∧
      (start.setAll calls).entryCount = 3 ∧ start.setAll calls = start.setAll calls' := by
  intro start calls calls'
  have hmade : zero 2 3 = .ok start := by decide +kernel
  have hcalls : start.accepted calls = [(1, 2), (1, 0), (1, 2), (0, 1)] := by decide +kernel
  have hcalls' : start.accepted calls' = [(0, 1), (1, 0), (1, 2)] := by decide +kernel
  obtain ⟨-, hunique⟩ := Blank.setAll_exact (.made hmade) calls
  refine ⟨hmade, hcalls, hcalls', by decide +kernel, hunique _ _ (.made hmade) fun cell => ?_⟩
  rw [hcalls, hcalls']
  simp only [List.mem_cons, List.not_mem_nil, or_false]
  grind

end PatternGraph.SparseMatrix
