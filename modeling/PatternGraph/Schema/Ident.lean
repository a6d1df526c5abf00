/-
  PatternGraph.Schema.Ident

  Identifiers that a schema catalog gives to names.  Labels and relationship
  types are numbered apart, so the two kinds of number are two types.
-/

namespace PatternGraph

/-- The catalog's number for a node label. -/
structure LabelId where
  value : Nat
deriving DecidableEq

/-- The catalog's number for a relationship type. -/
structure TypeId where
  value : Nat
deriving DecidableEq

instance : ToString LabelId := ⟨fun id => toString id.value⟩

instance : ToString TypeId := ⟨fun id => toString id.value⟩

end PatternGraph
