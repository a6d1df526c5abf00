/-
  PatternGraph.Graph.Copy

  Copies without vacated slots.  Nodes and edges are renumbered in their order
  and edges are connected anew, so in a copy every adjacency list is in the
  order of the edges.

  A copy takes slots as any other edit does.  A node that gets none has no place
  in the copy, and the first edge that gets none ends it; an end that has no
  place dangles.
-/
import PatternGraph.Edit.Insert

namespace PatternGraph.Graph

/-- Copies nodes without their edges, and gives for each cell the handle that its node has in the
copy, if there is a node and it got a slot. -/
def copyNodes : List (Option Node) → Graph → List (Option NodeId) × Graph
  | [], copy => ([], copy)
  | none :: rest, copy =>
    let (places, copy) := copyNodes rest copy
    (none :: places, copy)
  | some n :: rest, copy =>
    match Edit.newNode n.isolated copy with
    | .ok id copy =>
      let (places, copy) := copyNodes rest copy
      (some id :: places, copy)
    | .error _ copy =>
      let (places, copy) := copyNodes rest copy
      (none :: places, copy)

/-- Copies edges, each between the places of its ends, until one gets no slot. -/
def copyEdges (place : NodeId → NodeId) : List Edge → Graph → Graph
  | [], copy => copy
  | e :: rest, copy =>
    match Edit.newEdge (e.between (place e.src) (place e.dest)) copy with
    | .ok _ copy => copyEdges place rest copy
    | .error _ copy => copy

/-- The copy without vacated slots. -/
def compact (g : Graph) : Graph :=
  let (places, copy) := copyNodes g.nodes.cells.toList (.empty g.limits)
  let places := places.toArray
  copyEdges (fun id => places[id.index]?.join.getD .dangling) g.edges.values copy

end PatternGraph.Graph
