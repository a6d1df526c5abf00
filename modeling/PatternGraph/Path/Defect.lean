/-
  PatternGraph.Path.Defect

  Why a list of elements is no path.
-/

namespace PatternGraph

/-- A defect in the shape of a path. -/
inductive PathDefect where
  /-- There is no element at all. -/
  | noElements
  /-- The first element is a relationship. -/
  | startsWithEdge
  /-- The elements after the first do not pair up. -/
  | unpairedEnd
  /-- Some pair after the first element is not a relationship and a node. -/
  | notAlternating
  /-- A second starting node was given to a draft. -/
  | secondStart
  /-- A draft was given a relationship before its starting node. -/
  | edgeBeforeStart
  /-- A draft was finished before it had a starting node. -/
  | nothingDrafted
  /-- A defect in the words of whoever found it. -/
  | described (reason : String)
deriving DecidableEq

/-- The defect in words. -/
def PathDefect.reason : PathDefect → String
  | .noElements => "path has no elements"
  | .startsWithEdge => "path must start with a node"
  | .unpairedEnd => "path must end with a node"
  | .notAlternating => "nodes and relationships must alternate"
  | .secondStart => "node() may only start a path; use edge() to extend it"
  | .edgeBeforeStart => "edge() requires a preceding node"
  | .nothingDrafted => "path requires at least one node"
  | .described reason => reason

end PatternGraph
