/-
  PatternGraph.Slots

  A table of numbered slots.  A value takes the next slot and keeps its number
  until it is taken out; the number is not given out again.  Beside the slots
  stands a counter of the values in them.

  The table is seen through `get?`.  The laws say what each operation does to
  that view and to the number of slots.
-/

namespace PatternGraph

/-- Slots, some of them vacated, and the number of live ones. -/
structure Slots (α : Type) where
  cells : Array (Option α)
  live : Nat
deriving DecidableEq

namespace Slots

variable {α : Type}

/-- No slots. -/
def empty : Slots α := ⟨#[], 0⟩

/-- The number of slots ever given out, which is the number of the next one. -/
def size (s : Slots α) : Nat := s.cells.size

/-- The value in slot `i`; none where the slot is vacated or was never given out. -/
def get? (s : Slots α) (i : Nat) : Option α := s.cells[i]?.join

/-- Puts a value into the next slot. -/
def push (s : Slots α) (a : α) : Slots α :=
  ⟨s.cells.push (some a), s.live + 1⟩

/-- Takes the value out of slot `i`, where there is one. -/
def vacate (s : Slots α) (i : Nat) : Slots α :=
  if (s.get? i).isSome then ⟨s.cells.setIfInBounds i none, s.live - 1⟩ else s

/-- Changes the value in slot `i`, where there is one. -/
def modify (s : Slots α) (i : Nat) (f : α → α) : Slots α :=
  ⟨s.cells.modify i (Option.map f), s.live⟩

/-- Changes every value where it stands. -/
def map (s : Slots α) (f : α → α) : Slots α :=
  ⟨s.cells.map (Option.map f), s.live⟩

/-- The values with their slots, in slot order. -/
def entries (s : Slots α) : List (Nat × α) :=
  s.cells.toList.zipIdx.filterMap fun (cell, i) => cell.map (i, ·)

/-- The values in slot order. -/
def values (s : Slots α) : List α :=
  s.cells.toList.filterMap id

/-- The first slot whose value passes the test. -/
def findIdx? (s : Slots α) (p : α → Bool) : Option Nat :=
  s.cells.findIdx? (·.any p)

/-- The values in order, in as many slots. -/
def ofList (l : List α) : Slots α :=
  ⟨(l.map some).toArray, l.length⟩

/-! ## The number of slots -/

@[simp] theorem size_empty : (empty : Slots α).size = 0 := rfl

@[simp] theorem size_push (s : Slots α) (a : α) : (s.push a).size = s.size + 1 := by
  simp [size, push]

@[simp] theorem size_vacate (s : Slots α) (i : Nat) : (s.vacate i).size = s.size := by
  unfold vacate; split <;> simp [size]

@[simp] theorem size_modify (s : Slots α) (i : Nat) (f : α → α) : (s.modify i f).size = s.size := by
  simp [size, modify]

@[simp] theorem size_map (s : Slots α) (f : α → α) : (s.map f).size = s.size := by
  simp [size, map]

/-! ## The value in a slot -/

@[simp] theorem get?_empty (i : Nat) : (empty : Slots α).get? i = none := by
  simp [get?, empty]

theorem lt_size_of_get? {s : Slots α} {i : Nat} {a : α} (h : s.get? i = some a) : i < s.size := by
  rcases Nat.lt_or_ge i s.size with hlt | hge
  · exact hlt
  · simp [get?, Array.getElem?_eq_none hge] at h

theorem get?_push (s : Slots α) (a : α) (i : Nat) :
    (s.push a).get? i = if i = s.size then some a else s.get? i := by
  simp only [get?, push, size, Array.getElem?_push]
  split <;> simp_all

theorem get?_vacate (s : Slots α) (i j : Nat) :
    (s.vacate i).get? j = if j = i then none else s.get? j := by
  unfold vacate
  split
  next h =>
    simp only [get?, Array.getElem?_setIfInBounds]
    grind
  next h =>
    split
    next hji => subst hji; simpa using h
    next => rfl

theorem get?_modify (s : Slots α) (i j : Nat) (f : α → α) :
    (s.modify i f).get? j = if j = i then (s.get? j).map f else s.get? j := by
  simp only [get?, modify, Array.getElem?_modify]
  by_cases h : j = i
  · subst h
    cases hj : s.cells[j]? with
    | none => simp
    | some c => cases c <;> simp
  · rw [if_neg h, if_neg (Ne.symm h)]

theorem get?_map (s : Slots α) (i : Nat) (f : α → α) : (s.map f).get? i = (s.get? i).map f := by
  simp only [get?, map, Array.getElem?_map]
  cases s.cells[i]? with
  | none => rfl
  | some c => cases c <;> rfl

/-- The entries are the live slots. -/
theorem mem_entries {s : Slots α} {i : Nat} {a : α} : (i, a) ∈ s.entries ↔ s.get? i = some a := by
  simp only [entries, get?, List.mem_filterMap]
  constructor
  · rintro ⟨⟨c, j⟩, hmem, hc⟩
    have hj := List.mem_zipIdx_iff_getElem?.mp hmem
    cases c with
    | none => simp at hc
    | some b =>
      simp only [Option.map_some, Option.some.injEq, Prod.mk.injEq] at hc
      obtain ⟨rfl, rfl⟩ := hc
      simpa [Option.join_eq_some_iff] using hj
  · intro h
    refine ⟨(some a, i), List.mem_zipIdx_iff_getElem?.mpr ?_, rfl⟩
    simpa [Option.join_eq_some_iff] using h

/-! ## Searching for a value -/

/-- The slot that is found holds a value that passes the test, and no slot before it does. -/
theorem findIdx?_eq_some {s : Slots α} {p : α → Bool} {i : Nat} (h : s.findIdx? p = some i) :
    (∃ a, s.get? i = some a ∧ p a) ∧ ∀ j < i, ∀ b, s.get? j = some b → p b = false := by
  obtain ⟨hlt, hany, hbefore⟩ := Array.findIdx?_eq_some_iff_getElem.mp h
  obtain ⟨a, ha, hp⟩ := (Option.any_eq_true _ _).mp hany
  refine ⟨⟨a, by simp [get?, hlt, ha], hp⟩, fun j hj b hb => ?_⟩
  have hjlt : j < s.cells.size := Nat.lt_trans hj hlt
  have hcell : s.cells[j] = some b := by simpa [get?, hjlt] using hb
  simpa [hcell] using hbefore j hj

/-- Nothing is found exactly when no value passes the test. -/
theorem findIdx?_eq_none {s : Slots α} {p : α → Bool} :
    s.findIdx? p = none ↔ ∀ i a, s.get? i = some a → p a = false := by
  unfold findIdx?
  rw [Array.findIdx?_eq_none_iff]
  constructor
  · intro h i a ha
    have hlt : i < s.cells.size := lt_size_of_get? ha
    have hcell : s.cells[i] = some a := by simpa [get?, hlt] using ha
    simpa using h (some a) (hcell ▸ Array.getElem_mem hlt)
  · intro h c hc
    obtain ⟨i, hlt, rfl⟩ := Array.mem_iff_getElem.mp hc
    cases hcell : s.cells[i] with
    | none => rfl
    | some a => simpa using h i a (by simp [get?, hlt, hcell])

end Slots

end PatternGraph
