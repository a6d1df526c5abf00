/-
  PatternGraph.Hops

  How many hops a relationship of a pattern may span.  `HopRange` is the range
  as it is written after a star, where either end may be left out; `Hops` is
  what the range means.
-/

namespace PatternGraph

/-- A range written after a star. -/
structure HopRange where
  start : Option Nat
  stop : Option Nat
deriving DecidableEq

namespace HopRange

/-- A star alone. -/
def any : HopRange := ⟨none, none⟩

/-- The same number at both ends. -/
def exact (n : Nat) : HopRange := ⟨some n, some n⟩

end HopRange

/-- At least `min` hops, and at most `max` where there is such a number. -/
structure Hops where
  min : Nat
  max : Option Nat
deriving DecidableEq

namespace Hops

/-- One hop, the meaning of a relationship without a star. -/
def single : Hops := ⟨1, some 1⟩

/-- An omitted start means one, an omitted end leaves the range open. -/
def ofRange : Option HopRange → Hops
  | none => single
  | some r => ⟨r.start.getD 1, r.stop⟩

/-- Anything but exactly one hop. -/
def isVariable (h : Hops) : Bool := h.min != 1 || h.max != some 1

/-- The ends of a range that starts above its end, which no number of hops meets. -/
def inverted? (h : Hops) : Option (Nat × Nat) :=
  match h.max with
  | some n => if n < h.min then some (h.min, n) else none
  | none => none

/-- The number at the upper end; nothing is written for an open end. -/
def maxText (h : Hops) : String :=
  match h.max with
  | some n => toString n
  | none => ""

/-- The star and its range: one number where both ends agree, nothing for a single hop. -/
def text (h : Hops) : String :=
  if h.isVariable then
    if h.max = some h.min then "*" ++ toString h.min
    else "*" ++ toString h.min ++ ".." ++ h.maxText
  else ""

/-- A range is inverted when its written end lies below its start, which is one if none is
written. -/
theorem inverted?_ofRange_eq_none {range : Option HopRange} :
    (ofRange range).inverted? = none ↔
      ∀ r stop, range = some r → r.stop = some stop → r.start.getD 1 ≤ stop := by
  match range with
  | none => simp [ofRange, single, inverted?]
  | some ⟨start, none⟩ =>
    refine ⟨fun _ r stop hr hstop => ?_, fun _ => rfl⟩
    cases hr
    cases hstop
  | some ⟨start, some stop⟩ =>
    show (if stop < start.getD 1 then some (start.getD 1, stop) else none) = none ↔ _
    rw [ite_eq_right_iff]
    refine ⟨fun hle r last hr hlast => ?_, fun hall hlt => ?_⟩
    · cases hr
      cases hlast
      exact Nat.not_lt.mp fun hlt => nomatch hle hlt
    · have hle := hall _ stop rfl rfl
      exact absurd hlt (Nat.not_lt.mpr hle)

theorem isVariable_eq_false {h : Hops} : h.isVariable = false ↔ h = single := by
  cases h
  simp [isVariable, single]

end Hops

end PatternGraph
