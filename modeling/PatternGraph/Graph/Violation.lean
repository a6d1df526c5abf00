/-
  PatternGraph.Graph.Violation

  Ways in which the parts of a graph can disagree with each other.
-/
import PatternGraph.Graph.Handle

namespace PatternGraph

/-- A disagreement between the parts of a graph. -/
inductive Violation where
  /-- Two live nodes bear one name. -/
  | nodeNameTwice (name : String)
  /-- Two live edges bear one name. -/
  | edgeNameTwice (name : String)
  /-- An end of an edge is not a live node. -/
  | missingEnd (name : String) (edge : EdgeId) (node : NodeId)
  /-- The adjacency of a node is not what the edges say. -/
  | adjacency (name : String)
  /-- The counters are not the numbers of live nodes and edges. -/
  | counters
  /-- An edge to be copied has an end that is not a live node of its graph. -/
  | danglingCopy (name : String)
  /-- A disagreement in the words of whoever found it. -/
  | described (text : String)
deriving DecidableEq

/-- The disagreement in words. -/
def Violation.text : Violation → String
  | .nodeNameTwice name => "node alias '" ++ name ++ "' bound twice"
  | .edgeNameTwice name => "edge alias '" ++ name ++ "' bound twice"
  | .missingEnd name edge node =>
    "edge '" ++ name ++ "' (" ++ toString edge ++ ") references missing node " ++ toString node
  | .adjacency name => "adjacency of node '" ++ name ++ "' disagrees with the edge set"
  | .counters => "live entity counters drifted"
  | .danglingCopy name => "edge '" ++ name ++ "' has a dangling endpoint in the merged graph"
  | .described text => text

end PatternGraph
