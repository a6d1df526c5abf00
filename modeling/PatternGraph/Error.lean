/-
  PatternGraph.Error

  Why building or reshaping a graph fails: the causes, their codes for programs
  and their messages for people.
-/
import PatternGraph.Graph.Handle
import PatternGraph.Graph.Violation
import PatternGraph.Path.Defect

namespace PatternGraph

/-- What a name is bound to. -/
inductive Binding where
  | node
  | edge
  | unknown
deriving DecidableEq

/-- The kind in words. -/
def Binding.text : Binding → String
  | .node => "node"
  | .edge => "edge"
  | .unknown => "unknown"

/-- What a budget counts. -/
inductive Budget where
  | nodes
  | edges
  | typesOnEdge
  /-- The slots that nodes are put into, vacated ones included. -/
  | nodeSlots
  | edgeSlots
  /-- A budget under a name of its own. -/
  | named (name : String)
deriving DecidableEq

/-- What the budget counts, in words. -/
def Budget.text : Budget → String
  | .nodes => "nodes"
  | .edges => "edges"
  | .typesOnEdge => "relationship types on one edge"
  | .nodeSlots => "node slots"
  | .edgeSlots => "edge slots"
  | .named name => name

/-- Causes of failure. -/
inductive GraphError where
  /-- A node of that name is in the graph already. -/
  | duplicateNode (name : String)
  /-- An edge of that name is in the graph already. -/
  | duplicateEdge (name : String)
  /-- The handle is not that of a live node. -/
  | unknownNode (id : NodeId)
  /-- The handle is not that of a live edge. -/
  | unknownEdge (id : EdgeId)
  /-- A name that has to be bound is not. -/
  | unknownName (name : String) (kind : Binding)
  /-- The parts of a graph disagree. -/
  | invariant (violation : Violation)
  /-- The elements do not make a path. -/
  | malformedPath (defect : PathDefect)
  /-- A hop range starts above its end. -/
  | invalidHopRange (name : String) (start stop : Nat)
  /-- A budget is exceeded. -/
  | tooLarge (budget : Budget) (count max : Nat)
  /-- A matrix backend refused, with this text. -/
  | matrix (text : String)
deriving DecidableEq

namespace GraphError

/-- One word per cause. -/
def code : GraphError → String
  | .duplicateNode _ => "DuplicateNodeAlias"
  | .duplicateEdge _ => "DuplicateEdgeAlias"
  | .unknownNode _ => "UnknownNode"
  | .unknownEdge _ => "UnknownEdge"
  | .unknownName _ _ => "UnknownAlias"
  | .invariant _ => "Invariant"
  | .malformedPath _ => "MalformedPath"
  | .invalidHopRange _ _ _ => "InvalidHopRange"
  | .tooLarge _ _ _ => "PatternTooLarge"
  | .matrix _ => "Matrix"

/-- The cause in words. -/
def message : GraphError → String
  | .duplicateNode name => "duplicate node alias '" ++ name ++ "'"
  | .duplicateEdge name => "duplicate edge alias '" ++ name ++ "'"
  | .unknownNode id => "node " ++ toString id ++ " is not a member of this graph"
  | .unknownEdge id => "edge " ++ toString id ++ " is not a member of this graph"
  | .unknownName name kind => "no " ++ kind.text ++ " bound to alias '" ++ name ++ "'"
  | .invariant violation => "query graph invariant violated: " ++ violation.text
  | .malformedPath defect => "malformed path: " ++ defect.reason
  | .invalidHopRange name start stop =>
    "invalid hop range on '" ++ name ++ "': " ++ toString start ++ ".." ++ toString stop
  | .tooLarge budget count max =>
    "pattern exceeds " ++ toString max ++ " " ++ budget.text ++ " (got " ++ toString count ++ ")"
  | .matrix text => "matrix backend error: " ++ text

/-- The cause is a mistake of the caller, which well-formed statements never make. -/
def isInvariant : GraphError → Bool
  | .duplicateNode _ | .duplicateEdge _ | .unknownNode _ | .unknownEdge _ | .unknownName _ _
  | .invariant _ => true
  | .malformedPath _ | .invalidHopRange _ _ _ | .tooLarge _ _ _ | .matrix _ => false

/-- Code and message on one line. -/
def withCode (e : GraphError) : String :=
  "[" ++ e.code ++ "] " ++ e.message

end GraphError

end PatternGraph
