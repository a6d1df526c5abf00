/-
  PatternGraph.Path.Basic

  Paths as they are written: one chain of a pattern, such as
  (a:Person)-[r:KNOWS*1..3]->(b).  A path is a plain list of elements; whether
  nodes and relationships take turns is asked when the path is read as a walk.
-/
import PatternGraph.Hops

namespace PatternGraph

/-- The way a relationship points, as it is written. -/
inductive Direction where
  /-- From the node on its left to the node on its right. -/
  | outgoing
  /-- From the node on its right to the node on its left. -/
  | incoming
  /-- Neither way. -/
  | both
deriving DecidableEq

/-- Source and destination of a relationship between a left and a right node; without a
direction the written order counts. -/
def Direction.orient {α : Type} (d : Direction) (left right : α) : α × α :=
  match d with
  | .incoming => (right, left)
  | .outgoing | .both => (left, right)

/-- A node as it is written. -/
structure PathNode where
  name : String
  label : Option String := none
deriving DecidableEq

/-- A relationship as it is written; without types it is of any type. -/
structure PathEdge where
  name : String
  direction : Direction := .outgoing
  types : List String := []
  range : Option HopRange := none
deriving DecidableEq

/-- The number of hops that the relationship spans. -/
def PathEdge.hops (e : PathEdge) : Hops := .ofRange e.range

/-- One element of a path. -/
inductive PathElement where
  | node (n : PathNode)
  | edge (e : PathEdge)
deriving DecidableEq

namespace PathElement

/-- The node, where the element is one. -/
def node? : PathElement → Option PathNode
  | .node n => some n
  | .edge _ => none

/-- The relationship, where the element is one. -/
def edge? : PathElement → Option PathEdge
  | .node _ => none
  | .edge e => some e

end PathElement

/-- A chain of elements of any shape. -/
structure Path where
  elements : List PathElement
deriving DecidableEq

namespace Path

/-- The nodes of a path in order. -/
def nodes (p : Path) : List PathNode := p.elements.filterMap PathElement.node?

/-- The relationships of a path in order. -/
def edges (p : Path) : List PathEdge := p.elements.filterMap PathElement.edge?

/-- How many nodes are written, repeated ones included. -/
def nodeCount (p : Path) : Nat := p.nodes.length

end Path

end PatternGraph
