/-
  PatternGraph.Limits

  The budgets that a graph enforces while it grows.
-/

namespace PatternGraph

/-- Upper bounds on what a graph may hold. -/
structure Limits where
  maxNodes : Nat
  maxEdges : Nat
  maxTypesPerEdge : Nat
deriving DecidableEq

namespace Limits

/-- Budgets that an ordinary statement never meets. -/
def standard : Limits where
  maxNodes := 10000
  maxEdges := 10000
  maxTypesPerEdge := 256

/-- Tight budgets for interactive input that is not trusted. -/
def strict : Limits where
  maxNodes := 256
  maxEdges := 512
  maxTypesPerEdge := 16

/-- The largest count that a budget can name. -/
def maxCount : Nat := UInt64.size - 1

/-- Budgets out of reach. -/
def unbounded : Limits where
  maxNodes := maxCount
  maxEdges := maxCount
  maxTypesPerEdge := maxCount

end Limits

end PatternGraph
