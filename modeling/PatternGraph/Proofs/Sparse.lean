/-
  PatternGraph.Proofs.Sparse

  Sparse matrices are finite sets of entries.  Every row lists its columns in
  increasing order, so each entry stands once in the list of all entries and
  the number of entries is that of the different pairs that were set.
  `Represents` says which pairs a matrix was given; setting one more entry
  within the bounds adds it, and nothing else.  A matrix is made by its size
  and by what was set; its transpose has the same pairs the other way round.
-/
import Mathlib.Data.Prod.Basic
import PatternGraph.Matrix.Sparse
import PatternGraph.Proofs.Lists

namespace PatternGraph

namespace SparseMatrix

variable {m : SparseMatrix} {cells : List (Nat × Nat)} {rowCount columnCount row column : Nat}

/-! ## The list of all entries -/

theorem mem_entries {i j : Nat} :
    (i, j) ∈ m.entries ↔ ∃ columns, m.rows[i]? = some columns ∧ ∃ c ∈ columns, c.toNat = j := by
  rw [entries, List.mem_flatMap]
  refine ⟨?_, ?_⟩
  · rintro ⟨⟨columns, k⟩, hrow, hcell⟩
    rw [List.mem_zipIdx_iff_getElem?, Array.getElem?_toList] at hrow
    obtain ⟨c, hc, heq⟩ := List.mem_map.mp hcell
    cases heq
    exact ⟨columns, hrow, c, hc, rfl⟩
  · rintro ⟨columns, hrow, c, hc, rfl⟩
    refine ⟨(columns, i), ?_, List.mem_map.mpr ⟨c, hc, rfl⟩⟩
    rw [List.mem_zipIdx_iff_getElem?, Array.getElem?_toList]
    exact hrow

/-- An entry is true exactly when it is listed; a column that is no word is in no row. -/
theorem get_iff_mem_entries {i j : Nat} : m.get i j = true ↔ (i, j) ∈ m.entries := by
  rw [mem_entries, get, Bool.and_eq_true, decide_eq_true_iff, Option.any_eq_true]
  refine ⟨?_, ?_⟩
  · rintro ⟨hj, columns, hrow, hmem⟩
    refine ⟨columns, hrow, .ofNat j, by simpa using hmem, ?_⟩
    exact UInt32.toNat_ofNat_of_lt' hj
  · rintro ⟨columns, hrow, c, hc, rfl⟩
    refine ⟨c.toNat_lt_size, columns, hrow, ?_⟩
    rw [UInt32.ofNat_toNat]
    simpa using hc

theorem length_entries (m : SparseMatrix) : m.entries.length = m.entryCount := by
  have hrows : m.rows.toList.zipIdx.map Prod.fst = m.rows.toList := List.zipIdx_map_fst ..
  rw [entryCount, ← hrows, entries, List.length_flatMap, List.length_flatten, List.map_map]
  congr 1
  exact List.map_congr_left fun p _ => List.length_map ..

/-- The columns are numbered by words, and every row lists them in increasing order. -/
structure Canonical (m : SparseMatrix) : Prop where
  narrow : m.columnCount < UInt32.size
  increasing : ∀ columns ∈ m.rows, columns.Pairwise (· < ·)

/-- The entries of a canonical matrix are listed row by row, in increasing order. -/
theorem Canonical.pairwise_entries (canonical : m.Canonical) :
    m.entries.Pairwise (Prod.Lex (· < ·) (· < ·)) := by
  rw [entries, List.pairwise_flatMap]
  refine ⟨?_, ?_⟩
  · rintro ⟨columns, i⟩ hrow
    rw [List.mem_zipIdx_iff_getElem?, Array.getElem?_toList] at hrow
    rw [List.pairwise_map]
    refine (canonical.increasing columns (Array.mem_of_getElem? hrow)).imp fun hlt => ?_
    exact .right _ (UInt32.lt_iff_toNat_lt.mp hlt)
  -- what stands in a later row has a greater number of the row
  · have hnumbers : (m.rows.toList.zipIdx.map Prod.snd).Pairwise (· < ·) := by
      rw [List.zipIdx_map_snd]
      exact List.pairwise_lt_range'
    refine (List.pairwise_map.mp hnumbers).imp fun hlt p hp q hq => ?_
    obtain ⟨_, _, rfl⟩ := List.mem_map.mp hp
    obtain ⟨_, _, rfl⟩ := List.mem_map.mp hq
    exact .left _ _ hlt

theorem Canonical.nodup_entries (canonical : m.Canonical) : m.entries.Nodup := by
  refine canonical.pairwise_entries.imp fun hlt heq => ?_
  subst heq
  rcases Prod.lex_def.mp hlt with hlt | ⟨-, hlt⟩
  · exact absurd hlt (Nat.lt_irrefl _)
  · exact absurd hlt (Nat.lt_irrefl _)

/-! ## What was set -/

/-- A canonical matrix of that size whose true entries are those that were set. -/
structure Represents (m : SparseMatrix) (rowCount columnCount : Nat) (cells : List (Nat × Nat)) :
    Prop where
  canonical : m.Canonical
  rows : m.rowCount = rowCount
  columns : m.columnCount = columnCount
  mem : ∀ cell, cell ∈ m.entries ↔ cell ∈ cells

theorem Represents.get_iff (represents : m.Represents rowCount columnCount cells) (i j : Nat) :
    m.get i j = true ↔ (i, j) ∈ cells := by
  rw [get_iff_mem_entries, represents.mem]

/-- There are as many entries as different ones were set. -/
theorem Represents.entryCount_eq (represents : m.Represents rowCount columnCount cells) :
    m.entryCount = cells.eraseDups.length := by
  rw [← length_entries,
    length_eraseDups represents.canonical.nodup_entries fun cell => (represents.mem cell).symm]

/-- A new matrix has no entries. -/
theorem represents_zero (rowCount : Nat) (hnarrow : columnCount < UInt32.size) :
    ∃ m, zero rowCount columnCount = .ok m ∧ m.Represents rowCount columnCount [] := by
  refine ⟨_, if_pos hnarrow, ⟨hnarrow, fun columns hmem => ?_⟩, Array.size_replicate, rfl, ?_⟩
  · rw [(Array.mem_replicate.mp hmem).2]
    exact .nil
  · rintro ⟨i, j⟩
    rw [mem_entries]
    refine ⟨?_, nofun⟩
    rintro ⟨columns, hrow, c, hc, -⟩
    rw [(Array.mem_replicate.mp (Array.mem_of_getElem? hrow)).2] at hc
    cases hc

/-- Putting a column into a row adds one entry to those that are listed. -/
theorem mem_entries_insert {i j : Nat} (hrow : row < m.rowCount) (hcolumn : column < UInt32.size) :
    (i, j) ∈ { m with rows := m.rows.modify row (insertColumn (.ofNat column)) }.entries ↔
      (i, j) ∈ m.entries ∨ (i, j) = (row, column) := by
  have hword : (UInt32.ofNat column).toNat = column := UInt32.toNat_ofNat_of_lt' hcolumn
  rw [mem_entries, mem_entries, Array.getElem?_modify, Prod.mk.injEq]
  by_cases hi : row = i
  · subst hi
    obtain ⟨old, hold⟩ : ∃ old, m.rows[row]? = some old := ⟨_, Array.getElem?_eq_getElem hrow⟩
    rw [if_pos rfl, hold, Option.map_some]
    refine ⟨?_, ?_⟩
    · rintro ⟨_, ⟨⟩, c, hc, rfl⟩
      rcases mem_insertColumn.mp hc with rfl | hc
      · exact .inr ⟨rfl, hword⟩
      · exact .inl ⟨old, rfl, c, hc, rfl⟩
    · rintro (⟨_, ⟨⟩, c, hc, rfl⟩ | ⟨-, rfl⟩)
      · exact ⟨_, rfl, c, mem_insertColumn.mpr (.inr hc), rfl⟩
      · exact ⟨_, rfl, _, mem_insertColumn.mpr (.inl rfl), hword⟩
  · rw [if_neg hi]
    refine ⟨.inl, fun h => h.resolve_right ?_⟩
    rintro ⟨rfl, -⟩
    exact hi rfl

/-- Setting an entry within the bounds succeeds and adds it. -/
theorem Represents.setEntry (represents : m.Represents rowCount columnCount cells)
    (hrow : row < rowCount) (hcolumn : column < columnCount) :
    ∃ m', m.setEntry row column = .ok m' ∧
      m'.Represents rowCount columnCount (cells ++ [(row, column)]) := by
  obtain ⟨⟨narrow, increasing⟩, rfl, rfl, hmem⟩ := represents
  refine ⟨_, if_pos ⟨hrow, hcolumn⟩, ⟨narrow, fun columns hin => ?_⟩, Array.size_modify .., rfl, ?_⟩
  · obtain ⟨i, hi⟩ := Array.mem_iff_getElem?.mp hin
    rw [Array.getElem?_modify] at hi
    split at hi
    · obtain ⟨old, hold, rfl⟩ := Option.map_eq_some_iff.mp hi
      exact pairwise_insertColumn (increasing old (Array.mem_of_getElem? hold))
    · exact increasing columns (Array.mem_of_getElem? hi)
  · rintro ⟨i, j⟩
    rw [mem_entries_insert hrow (Nat.lt_trans hcolumn narrow), List.mem_append,
      List.mem_singleton, hmem]

/-- Setting entries within the bounds one after the other adds all of them. -/
theorem Represents.foldlM_setEntry {more : List (Nat × Nat)}
    (represents : m.Represents rowCount columnCount cells)
    (hbounds : ∀ cell ∈ more, cell.1 < rowCount ∧ cell.2 < columnCount) :
    ∃ m', more.foldlM (fun m cell => SparseMatrix.setEntry m cell.1 cell.2) m = .ok m' ∧
      m'.Represents rowCount columnCount (cells ++ more) := by
  induction more generalizing m cells with
  | nil => exact ⟨m, rfl, by rwa [List.append_nil]⟩
  | cons cell rest ih =>
      obtain ⟨hcell, hrest⟩ := List.forall_mem_cons.mp hbounds
      obtain ⟨m₁, hset, represents₁⟩ := represents.setEntry hcell.1 hcell.2
      obtain ⟨m₂, hfold, represents₂⟩ := ih represents₁ hrest
      refine ⟨m₂, ?_, ?_⟩
      · rw [List.foldlM_cons, hset]
        exact hfold
      · rwa [List.append_assoc] at represents₂

/-! ## Matrices with the same entries -/

theorem mem_row_iff {columns : List UInt32} {i : Nat} (hrow : m.rows[i]? = some columns)
    (c : UInt32) : c ∈ columns ↔ (i, c.toNat) ∈ m.entries := by
  rw [mem_entries, hrow]
  refine ⟨fun hc => ⟨columns, rfl, c, hc, rfl⟩, ?_⟩
  rintro ⟨_, ⟨⟩, d, hd, heq⟩
  rwa [← UInt32.toNat_inj.mp heq]

variable {m' : SparseMatrix}

/-- Canonical matrices of one size with the same entries are equal. -/
theorem Canonical.ext (canonical : m.Canonical) (canonical' : m'.Canonical)
    (hrows : m.rowCount = m'.rowCount) (hcolumns : m.columnCount = m'.columnCount)
    (hentries : ∀ cell, cell ∈ m.entries ↔ cell ∈ m'.entries) : m = m' := by
  have hrow : ∀ (k : SparseMatrix) (i : Nat) (hi : i < k.rows.size),
      k.rows[i]? = some k.rows[i] := fun k i hi => Array.getElem?_eq_getElem hi
  have hsame : m.rows = m'.rows := by
    refine Array.ext hrows fun i hi hi' => ?_
    have hlt := canonical.increasing m.rows[i] (Array.getElem_mem hi)
    have hlt' := canonical'.increasing m'.rows[i] (Array.getElem_mem hi')
    -- lists that increase and have the same members are equal
    have hperm : m.rows[i].Perm m'.rows[i] := by
      rw [List.perm_ext_iff_of_nodup (hlt.imp UInt32.ne_of_lt) (hlt'.imp UInt32.ne_of_lt)]
      intro c
      rw [mem_row_iff (hrow m i hi), mem_row_iff (hrow m' i hi'), hentries]
    exact hperm.eq_of_pairwise (fun _ _ _ _ hab hba => absurd hba (UInt32.lt_asymm hab)) hlt hlt'
  obtain ⟨n, rows⟩ := m
  obtain ⟨n', rows'⟩ := m'
  exact congrArg₂ SparseMatrix.mk hcolumns hsame

/-- What was set makes the matrix. -/
theorem Represents.unique {more : List (Nat × Nat)}
    (represents : m.Represents rowCount columnCount cells)
    (represents' : m'.Represents rowCount columnCount more)
    (hcells : ∀ cell, cell ∈ cells ↔ cell ∈ more) : m = m' :=
  represents.canonical.ext represents'.canonical (represents.rows.trans represents'.rows.symm)
    (represents.columns.trans represents'.columns.symm)
    fun cell => by rw [represents.mem, represents'.mem, hcells]

/-! ## The transpose -/

/-- The matrix with rows and columns exchanged. -/
def transpose (m : SparseMatrix) : SparseMatrix where
  columnCount := m.rowCount
  rows := (Array.range m.columnCount).map fun column =>
    ((List.range m.rowCount).filter (m.get · column)).map .ofNat

/-- Numbers of rows are words where the rows fit. -/
theorem toNat_ofNat_row {n i : Nat} (hnarrow : n < UInt32.size) (hi : i < n) :
    (UInt32.ofNat i).toNat = i :=
  UInt32.toNat_ofNat_of_lt' (Nat.lt_trans hi hnarrow)

theorem mem_entries_transpose (hnarrow : m.rowCount < UInt32.size) {i j : Nat} :
    (j, i) ∈ m.transpose.entries ↔ j < m.columnCount ∧ (i, j) ∈ m.entries := by
  have hrow : m.transpose.rows[j]? = if j < m.columnCount then
      some (((List.range m.rowCount).filter (m.get · j)).map .ofNat) else none := by
    rw [transpose, Array.getElem?_map, Array.getElem?_range]
    split <;> rfl
  rw [mem_entries, hrow, ← get_iff_mem_entries]
  constructor
  · rintro ⟨columns, hcolumns, c, hc, rfl⟩
    obtain ⟨hj, ⟨⟩⟩ := Option.ite_none_right_eq_some.mp hcolumns
    obtain ⟨i, hi, rfl⟩ := List.mem_map.mp hc
    obtain ⟨hi, hget⟩ := List.mem_filter.mp hi
    rw [toNat_ofNat_row hnarrow (List.mem_range.mp hi)]
    exact ⟨hj, hget⟩
  · rintro ⟨hj, hget⟩
    have hi : i < m.rowCount := by
      obtain ⟨columns, hcolumns, -⟩ := mem_entries.mp (get_iff_mem_entries.mp hget)
      exact (Array.getElem?_eq_some_iff.mp hcolumns).1
    refine ⟨_, if_pos hj, .ofNat i, List.mem_map_of_mem ?_, toNat_ofNat_row hnarrow hi⟩
    exact List.mem_filter.mpr ⟨List.mem_range.mpr hi, hget⟩

/-- The entries of the transpose are those that were set, with rows and columns exchanged. -/
theorem Represents.transpose (represents : m.Represents rowCount columnCount cells)
    (hnarrow : rowCount < UInt32.size) (hbounds : ∀ cell ∈ cells, cell.2 < columnCount) :
    m.transpose.Represents columnCount rowCount (cells.map Prod.swap) := by
  obtain ⟨-, rfl, rfl, hmem⟩ := represents
  refine ⟨⟨hnarrow, fun columns hin => ?_⟩, ?_, rfl, ?_⟩
  · obtain ⟨j, -, rfl⟩ := Array.mem_map.mp hin
    refine List.pairwise_map.mpr ((List.pairwise_lt_range.filter _).imp_of_mem ?_)
    intro a b ha hb hlt
    rwa [UInt32.lt_iff_toNat_lt,
      toNat_ofNat_row hnarrow (List.mem_range.mp (List.mem_filter.mp ha).1),
      toNat_ofNat_row hnarrow (List.mem_range.mp (List.mem_filter.mp hb).1)]
  · rw [SparseMatrix.rowCount, SparseMatrix.transpose, Array.size_map, Array.size_range]
  · rintro ⟨j, i⟩
    rw [mem_entries_transpose hnarrow, hmem, List.mem_map]
    constructor
    · rintro ⟨-, hcell⟩
      exact ⟨_, hcell, rfl⟩
    · rintro ⟨⟨i, j⟩, hcell, heq⟩
      obtain ⟨rfl, rfl⟩ := Prod.mk.inj heq
      exact ⟨hbounds _ hcell, hcell⟩

theorem Represents.get_transpose (represents : m.Represents rowCount columnCount cells)
    (hnarrow : rowCount < UInt32.size) (hbounds : ∀ cell ∈ cells, cell.2 < columnCount)
    (i j : Nat) : m.transpose.get i j = m.get j i := by
  rw [Bool.eq_iff_iff, (represents.transpose hnarrow hbounds).get_iff, represents.get_iff]
  exact List.mem_map_of_injective Prod.swap_injective (a := (j, i))

end SparseMatrix

end PatternGraph
