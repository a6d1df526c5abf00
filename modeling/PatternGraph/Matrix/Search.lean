/-
  PatternGraph.Matrix.Search

  Sparse matrices whose rows are searched by halving.  A search says where a
  column stands or where it belongs; it compares with single columns only, so
  its answer means something in rows that increase.  There the operations that
  search are those that go through a row column by column.
-/
import PatternGraph.Matrix.Sparse

namespace PatternGraph.SparseMatrix

/-- Where a search ends. -/
inductive Place where
  /-- The column stands at the index. -/
  | here (index : Nat)
  /-- The column is missing, and the index is where it belongs. -/
  | before (index : Nat)
deriving DecidableEq

/-- The search has found the column. -/
def Place.isHere : Place → Bool
  | .here _ => true
  | .before _ => false

/-- Searches a row from `low` up to `high` for a column, by halving. -/
def search (c : UInt32) (row : List UInt32) (low high : Nat) : Place :=
  if low < high then
    match row[(low + high) / 2]? with
    | none => .before low
    | some d =>
      if d = c then .here ((low + high) / 2)
      else if d < c then search c row ((low + high) / 2 + 1) high
      else search c row low ((low + high) / 2)
  else .before low
termination_by high - low

/-- Searches a whole row. -/
def place (c : UInt32) (row : List UInt32) : Place := search c row 0 row.length

/-- Puts a column where a search says that it belongs, unless it is found. -/
def insertBySearch (c : UInt32) (row : List UInt32) : List UInt32 :=
  match place c row with
  | .here _ => row
  | .before i => row.insertIdx i c

/-- Sets an entry of the matrix at hand to true. -/
def write (row column : Nat) : EStateM Refusal SparseMatrix Unit := fun m =>
  let refusal := Refusal.outOfBounds row column m.rowCount m.columnCount
  if m.columnCount ≤ column then .error refusal m
  else
    match m.rows[row]? with
    | none => .error refusal m
    | some columns =>
      .ok () { m with rows := m.rows.setIfInBounds row (insertBySearch (.ofNat column) columns) }

/-- The entry at a row and a column; false outside the matrix. -/
def read (m : SparseMatrix) (row column : Nat) : Bool :=
  decide (column < UInt32.size) && m.rows[row]?.any fun columns =>
    (place (.ofNat column) columns).isHere

variable {c : UInt32} {row l r : List UInt32} {low high i : Nat}

/-! ## Where a search ends -/

/-- What the answer of a search says of the row. -/
def Place.Fits (c : UInt32) (row : List UInt32) : Place → Prop
  | .here i => row[i]? = some c
  | .before i => i ≤ row.length ∧ (∀ d ∈ row.take i, d < c) ∧ ∀ d ∈ row.drop i, c < d

/-- In an increasing row a column has the smaller ones before it and the greater ones after it. -/
theorem lt_of_getElem?_eq_some {d : UInt32} (hrow : row.Pairwise (· < ·)) (h : row[i]? = some d) :
    (∀ x ∈ row.take i, x < d) ∧ ∀ x ∈ row.drop (i + 1), d < x := by
  obtain ⟨hi, rfl⟩ := List.getElem?_eq_some_iff.mp h
  rw [← List.take_append_drop i row, List.drop_eq_getElem_cons hi, List.pairwise_append,
    List.pairwise_cons] at hrow
  obtain ⟨-, ⟨hafter, -⟩, hbefore⟩ := hrow
  exact ⟨fun x hx => hbefore x hx _ List.mem_cons_self, hafter⟩

/-- What lies below the window is smaller than the column and what lies above is greater; every
    step keeps that, and an empty window is the place. -/
theorem fits_search (hrow : row.Pairwise (· < ·)) (hle : low ≤ high) (hhigh : high ≤ row.length)
    (hbelow : ∀ d ∈ row.take low, d < c) (habove : ∀ d ∈ row.drop high, c < d) :
    (search c row low high).Fits c row := by
  fun_induction search c row low high with
  | case1 low high hlt hnone =>
      rw [List.getElem?_eq_none_iff] at hnone
      omega
  | case2 low high hlt hfound => exact hfound
  | case3 low high hlt d hfound hne hdc ih =>
      -- the middle is smaller: the window begins after it
      obtain ⟨hbefore, -⟩ := lt_of_getElem?_eq_some hrow hfound
      refine ih (by omega) hhigh ?_ habove
      intro x hx
      rw [List.take_add_one, hfound] at hx
      rcases List.mem_append.mp hx with hx | hx
      · exact UInt32.lt_trans (hbefore x hx) hdc
      · rwa [List.mem_singleton.mp hx]
  | case4 low high hlt d hfound hne hdc ih =>
      -- the middle is greater: the window ends before it
      obtain ⟨-, hafter⟩ := lt_of_getElem?_eq_some hrow hfound
      have hcd : c < d := by grind
      refine ih (by omega) (by omega) hbelow ?_
      intro x hx
      obtain ⟨hmid, hget⟩ := List.getElem?_eq_some_iff.mp hfound
      rw [List.drop_eq_getElem_cons hmid, hget] at hx
      rcases List.mem_cons.mp hx with rfl | hx
      · exact hcd
      · exact UInt32.lt_trans hcd (hafter x hx)
  | case5 low high hge =>
      obtain rfl : low = high := by omega
      exact ⟨hhigh, hbelow, habove⟩

theorem fits_place (hrow : row.Pairwise (· < ·)) (c : UInt32) : (place c row).Fits c row := by
  refine fits_search hrow (Nat.zero_le _) (Nat.le_refl _) ?_ ?_
  · rw [List.take_zero]
    exact nofun
  · rw [List.drop_length]
    exact nofun

/-! ## Rows that increase -/

/-- A column goes between the smaller ones and the greater ones. -/
theorem insertColumn_append (hl : ∀ d ∈ l, d < c) (hr : ∀ d ∈ r, c < d) :
    insertColumn c (l ++ r) = l ++ c :: r := by
  induction l with
  | nil =>
      cases r with
      | nil => rfl
      | cons d rest => exact if_pos (hr d List.mem_cons_self)
  | cons d rest ih =>
      obtain ⟨hd, hrest⟩ := List.forall_mem_cons.mp hl
      rw [List.cons_append, insertColumn, if_neg (UInt32.lt_asymm hd),
        if_neg (UInt32.ne_of_lt hd).symm, ih hrest]
      rfl

/-- A column that is there is not put in again. -/
theorem insertColumn_of_mem (hrow : row.Pairwise (· < ·)) (hc : c ∈ row) :
    insertColumn c row = row := by
  induction row with
  | nil => cases hc
  | cons d rest ih =>
      obtain ⟨hd, hrest⟩ := List.pairwise_cons.mp hrow
      rw [insertColumn]
      rcases List.mem_cons.mp hc with rfl | hc
      · rw [if_neg (UInt32.lt_irrefl c), if_pos rfl]
      · have hlt := hd c hc
        rw [if_neg (UInt32.lt_asymm hlt), if_neg (UInt32.ne_of_lt hlt).symm, ih hrest hc]

/-- Searching finds what is there. -/
theorem isHere_place (hrow : row.Pairwise (· < ·)) (c : UInt32) :
    (place c row).isHere = row.contains c := by
  have hfits := fits_place hrow c
  cases hplace : place c row with
  | here i =>
      rw [hplace] at hfits
      exact (List.contains_iff_mem.mpr (List.mem_of_getElem? hfits)).symm
  | before i =>
      rw [hplace] at hfits
      obtain ⟨-, hbefore, hafter⟩ := hfits
      -- where the column belongs, all columns before are smaller and all after are greater
      have hmissing : c ∉ row := by
        rw [← List.take_append_drop i row, List.mem_append]
        rintro (hc | hc)
        · exact UInt32.lt_irrefl c (hbefore c hc)
        · exact UInt32.lt_irrefl c (hafter c hc)
      exact (Bool.eq_false_iff.mpr fun hc => hmissing (List.contains_iff_mem.mp hc)).symm

/-- Inserting where the search ends is going through the row. -/
theorem insertBySearch_eq (hrow : row.Pairwise (· < ·)) (c : UInt32) :
    insertBySearch c row = insertColumn c row := by
  have hfits := fits_place hrow c
  rw [insertBySearch]
  cases hplace : place c row with
  | here i =>
      rw [hplace] at hfits
      exact (insertColumn_of_mem hrow (List.mem_of_getElem? hfits)).symm
  | before i =>
      rw [hplace] at hfits
      obtain ⟨hi, hbefore, hafter⟩ := hfits
      obtain ⟨l, r, rfl, hlen, hinsert⟩ := List.exists_of_modifyTailIdx (List.cons c) hi
      rw [List.take_left' hlen] at hbefore
      rw [List.drop_left' hlen] at hafter
      rw [insertColumn_append hbefore hafter]
      exact hinsert

end PatternGraph.SparseMatrix
