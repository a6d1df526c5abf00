/-
  PatternGraph.Proofs.Slots

  A table of slots as a partial function on numbers.  The number of slots, the
  values in them and the counter determine the table, so two tables are shown
  equal slot by slot; and the lists of entries and values are that function
  read off in the order of the slots.

  `Counted` says that the counter is the number of values.  Every operation
  keeps it.  `sift` keeps, changes or drops every value where it stands, which
  is how a part of a table is described without saying in which order the
  other values were taken out.
-/
import PatternGraph.Slots

namespace PatternGraph.Slots

variable {α β : Type}

/-! ## The table as a partial function -/

theorem getElem_cells (s : Slots α) {i : Nat} (h : i < s.cells.size) : s.cells[i] = s.get? i := by
  simp [get?, h]

theorem get?_of_size_le {s : Slots α} {i : Nat} (h : s.size ≤ i) : s.get? i = none := by
  rw [get?, Array.getElem?_eq_none h]
  rfl

/-- Tables of as many slots with the same values in them are one table. -/
theorem ext_get? {s t : Slots α} (hsize : s.size = t.size) (hget : ∀ i, s.get? i = t.get? i)
    (hlive : s.live = t.live) : s = t := by
  have hcells : s.cells = t.cells := by
    apply Array.ext hsize
    intro i hi hj
    rw [getElem_cells s hi, getElem_cells t hj, hget]
  cases s
  cases t
  simp_all

/-- Only what a change does to the value in the slot matters. -/
theorem modify_congr {s : Slots α} {i : Nat} {f f' : α → α}
    (h : ∀ a, s.get? i = some a → f a = f' a) : s.modify i f = s.modify i f' := by
  refine ext_get? (by simp) ?_ rfl
  intro j
  rw [get?_modify, get?_modify]
  split
  next hji =>
    cases ha : s.get? j with
    | none => rfl
    | some a => rw [Option.map_some, Option.map_some, h a (hji ▸ ha)]
  next => rfl

theorem modify_id (s : Slots α) (i : Nat) : s.modify i id = s := by
  refine ext_get? (by simp) ?_ rfl
  intro j
  rw [get?_modify]
  split
  · exact Option.map_id_apply
  · rfl

theorem toList_cells (s : Slots α) : s.cells.toList = (List.range s.size).map s.get? := by
  apply List.ext_getElem
  · simp [size]
  · intro i hi _
    have hlt : i < s.cells.size := by simpa using hi
    rw [Array.getElem_toList, getElem_cells s hlt, List.getElem_map, List.getElem_range]

theorem values_eq_range (s : Slots α) : s.values = (List.range s.size).filterMap s.get? := by
  rw [values, toList_cells, List.filterMap_map]
  rfl

theorem entries_eq_range (s : Slots α) :
    s.entries = (List.range s.size).filterMap fun i => (s.get? i).map (i, ·) := by
  have hzip : s.cells.toList.zipIdx = (List.range s.size).map fun i => (s.get? i, i) := by
    apply List.ext_getElem
    · simp [size]
    · intro i hi _
      have hlt : i < s.cells.size := by simpa using hi
      rw [List.getElem_zipIdx, Array.getElem_toList, getElem_cells s hlt, List.getElem_map,
        List.getElem_range, Nat.zero_add]
  rw [entries, hzip, List.filterMap_map]
  rfl

theorem map_snd_entries (s : Slots α) : s.entries.map Prod.snd = s.values := by
  rw [entries_eq_range, values_eq_range, List.map_filterMap]
  congr 1
  funext i
  cases s.get? i <;> rfl

/-- The entries stand in the order of their slots. -/
theorem pairwise_entries (s : Slots α) : s.entries.Pairwise (·.1 < ·.1) := by
  rw [entries_eq_range, List.pairwise_filterMap]
  refine List.pairwise_lt_range.imp ?_
  intro i j hij p hp q hq
  obtain ⟨a, _, rfl⟩ := Option.map_eq_some_iff.mp hp
  obtain ⟨b, _, rfl⟩ := Option.map_eq_some_iff.mp hq
  exact hij

theorem mem_values {s : Slots α} {a : α} : a ∈ s.values ↔ ∃ i, s.get? i = some a := by
  rw [← map_snd_entries, List.mem_map]
  refine ⟨?_, ?_⟩
  · rintro ⟨⟨i, b⟩, hmem, rfl⟩
    exact ⟨i, mem_entries.mp hmem⟩
  · rintro ⟨i, hi⟩
    exact ⟨(i, a), mem_entries.mpr hi, rfl⟩

/-- What tells the values of different slots apart is listed without repetition. -/
theorem nodup_map_values {s : Slots α} {f : α → β}
    (hinj : ∀ i j a b, s.get? i = some a → s.get? j = some b → f a = f b → i = j) :
    (s.values.map f).Nodup := by
  rw [← map_snd_entries, List.map_map, List.Nodup, List.pairwise_map]
  refine s.pairwise_entries.imp_of_mem ?_
  intro p q hp hq hlt heq
  -- of two entries that agree the earlier would stand in the slot of the later
  have hsame : p.1 = q.1 := hinj p.1 q.1 p.2 q.2 (mem_entries.mp hp) (mem_entries.mp hq) heq
  omega

/-- No slot is entered twice. -/
theorem nodup_map_entries {f : Nat → β} (hf : ∀ i j, f i = f j → i = j) (s : Slots α) :
    (s.entries.map fun p => f p.1).Nodup := by
  rw [List.Nodup, List.pairwise_map]
  refine s.pairwise_entries.imp ?_
  intro p q hlt heq
  have hsame : p.1 = q.1 := hf p.1 q.1 heq
  omega

/-! ## Values after an operation -/

theorem values_push (s : Slots α) (a : α) : (s.push a).values = s.values ++ [a] := by
  simp [values, push]

/-- What a change does not touch stays as it is, slot by slot. -/
theorem map_values_modify {f : α → α} {h : α → β} (hf : ∀ a, h (f a) = h a) (s : Slots α)
    (i : Nat) :
    (s.modify i f).values.map h = s.values.map h := by
  rw [values_eq_range, values_eq_range, size_modify, List.map_filterMap, List.map_filterMap]
  congr 1
  funext j
  rw [get?_modify]
  split
  · cases s.get? j <;> simp [hf]
  · rfl

theorem values_map (s : Slots α) (f : α → α) : (s.map f).values = s.values.map f := by
  rw [values_eq_range, values_eq_range, size_map, List.map_filterMap]
  congr 1
  funext j
  rw [get?_map]

theorem values_ofList (l : List α) : (ofList l).values = l := by
  simp [values, ofList, List.filterMap_map]

@[simp] theorem size_ofList (l : List α) : (ofList l).size = l.length := by
  simp [ofList, size]

theorem get?_ofList (l : List α) (i : Nat) : (ofList l).get? i = l[i]? := by
  simp only [get?, ofList, List.getElem?_toArray, List.getElem?_map]
  cases l[i]? <;> rfl

theorem ofList_append_singleton (l : List α) (a : α) : ofList (l ++ [a]) = (ofList l).push a := by
  simp [ofList, push]

/-- There are no more values than slots. -/
theorem length_values_le (s : Slots α) : s.values.length ≤ s.size :=
  List.length_filterMap_le _ _

/-- The values before a slot, the value in it and the values after it. -/
theorem values_eq_append_cons {s : Slots α} {i : Nat} {a : α} (h : s.get? i = some a) :
    s.values = (s.cells.toList.take i).filterMap id
      ++ a :: (s.cells.toList.drop (i + 1)).filterMap id := by
  have hsize : i < s.cells.size := lt_size_of_get? h
  have hlt : i < s.cells.toList.length := hsize
  have hcell : s.cells.toList[i] = some a := by
    rw [Array.getElem_toList, getElem_cells s hsize, h]
  -- the slot splits the cells, and the values follow the cells
  have hsplit : s.cells.toList
      = s.cells.toList.take i ++ some a :: s.cells.toList.drop (i + 1) := by
    rw [← hcell, ← List.drop_eq_getElem_cons hlt, List.take_append_drop]
  have hmap := congrArg (List.filterMap id) hsplit
  rw [List.filterMap_append, List.filterMap_cons_some (f := id) rfl] at hmap
  exact hmap

theorem values_vacate {s : Slots α} {i : Nat} {a : α} (h : s.get? i = some a) :
    (s.vacate i).values = (s.cells.toList.take i).filterMap id
      ++ (s.cells.toList.drop (i + 1)).filterMap id := by
  have hsize : i < s.cells.size := lt_size_of_get? h
  have hlt : i < s.cells.toList.length := hsize
  have hset : (s.vacate i).cells.toList = s.cells.toList.set i none := by
    simp [vacate, h]
  rw [values, hset, List.set_eq_take_append_cons_drop, if_pos hlt, List.filterMap_append,
    List.filterMap_cons_none rfl]

theorem length_values_vacate {s : Slots α} {i : Nat} {a : α} (h : s.get? i = some a) :
    (s.vacate i).values.length + 1 = s.values.length := by
  rw [values_vacate h, values_eq_append_cons h, List.length_append, List.length_append,
    List.length_cons]
  omega

/-! ## The counter -/

/-- The counter is the number of values. -/
def Counted (s : Slots α) : Prop := s.live = s.values.length

/-- No more values are counted than there are slots. -/
theorem Counted.live_le_size {s : Slots α} (h : s.Counted) : s.live ≤ s.size :=
  h ▸ s.length_values_le

/-- Tables that count right are equal when they have equally many slots with the same in them. -/
theorem Counted.ext {s t : Slots α} (hs : s.Counted) (ht : t.Counted) (hsize : s.size = t.size)
    (hget : ∀ i, s.get? i = t.get? i) : s = t := by
  apply ext_get? hsize hget
  rw [hs, ht, values_eq_range, values_eq_range, hsize, funext hget]

theorem Counted.empty : (empty : Slots α).Counted :=
  rfl

theorem Counted.ofList (l : List α) : (ofList l).Counted := by
  rw [Counted, values_ofList]
  rfl

theorem Counted.push {s : Slots α} (h : s.Counted) (a : α) : (s.push a).Counted := by
  rw [Counted, values_push, List.length_append, List.length_singleton, ← h]
  rfl

/-- A value that is taken out was counted, so the counter does not run below zero. -/
theorem Counted.live_pos {s : Slots α} (h : s.Counted) {i : Nat} {a : α} (ha : s.get? i = some a) :
    0 < s.live := by
  rw [h]
  exact List.length_pos_of_mem (mem_values.mpr ⟨i, ha⟩)

theorem Counted.vacate {s : Slots α} (h : s.Counted) (i : Nat) : (s.vacate i).Counted := by
  cases hi : s.get? i with
  | none => simpa [Slots.vacate, hi] using h
  | some a =>
      have hlive : (s.vacate i).live = s.live - 1 := by simp [Slots.vacate, hi]
      have hlen := length_values_vacate hi
      rw [Counted] at h ⊢
      omega

theorem Counted.modify {s : Slots α} (h : s.Counted) (i : Nat) (f : α → α) :
    (s.modify i f).Counted := by
  have hlen := congrArg List.length
    (map_values_modify (f := f) (h := fun _ => ()) (fun _ => rfl) s i)
  rw [List.length_map, List.length_map] at hlen
  rw [Counted, hlen]
  exact h

theorem Counted.map {s : Slots α} (h : s.Counted) (f : α → α) : (s.map f).Counted := by
  rw [Counted, values_map, List.length_map]
  exact h

theorem live_vacate_le (s : Slots α) (i : Nat) : (s.vacate i).live ≤ s.live := by
  unfold Slots.vacate
  split
  · exact Nat.sub_le _ _
  · exact Nat.le_refl _

/-! ## Sifting -/

/-- Keeps, changes or drops every value where it stands, and counts what is left. -/
def sift (s : Slots α) (f : Nat → α → Option α) : Slots α :=
  let cells := s.cells.mapIdx fun i cell => cell.bind (f i)
  ⟨cells, (cells.toList.filterMap id).length⟩

@[simp] theorem size_sift (s : Slots α) (f : Nat → α → Option α) : (s.sift f).size = s.size := by
  simp [sift, size]

theorem get?_sift (s : Slots α) (f : Nat → α → Option α) (i : Nat) :
    (s.sift f).get? i = (s.get? i).bind (f i) := by
  simp only [get?, sift, Array.getElem?_mapIdx]
  cases s.cells[i]? with
  | none => rfl
  | some cell => cases cell <;> rfl

theorem Counted.sift (s : Slots α) (f : Nat → α → Option α) : (s.sift f).Counted :=
  rfl

theorem entries_sift (s : Slots α) (f : Nat → α → Option α) :
    (s.sift f).entries = s.entries.filterMap fun p => (f p.1 p.2).map (p.1, ·) := by
  rw [entries_eq_range, entries_eq_range, size_sift, List.filterMap_filterMap]
  congr 1
  funext i
  rw [get?_sift]
  cases s.get? i <;> rfl

theorem values_sift (s : Slots α) (f : Nat → α → Option α) :
    (s.sift f).values = s.entries.filterMap fun p => f p.1 p.2 := by
  rw [← map_snd_entries, entries_sift, List.map_filterMap]
  congr 1
  funext p
  cases f p.1 p.2 <;> rfl

theorem Counted.live_sift_le {s : Slots α} (h : s.Counted) (f : Nat → α → Option α) :
    (s.sift f).live ≤ s.live := by
  have hvalues : (s.sift f).live = (s.sift f).values.length := rfl
  rw [hvalues, values_sift, h, ← map_snd_entries, List.length_map]
  exact List.length_filterMap_le _ _

end PatternGraph.Slots
