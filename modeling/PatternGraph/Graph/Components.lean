/-
  PatternGraph.Graph.Components

  The connected parts of a graph, where edges join whatever their direction.  A
  part is peeled off the rest by a search from the first node; what is reached
  and what is not are two restrictions of one copy.

  The search takes a handle off the frontier at each step.  A node that is
  reached for the first time puts at most one handle there for each end of an
  edge at it, so one step more than there are ends empties the frontier.
-/
import PatternGraph.Edit.Remove
import PatternGraph.Graph.Copy

namespace PatternGraph

/-- A search: the handles to look at, the last found first, and the slots that were reached. -/
structure Search where
  frontier : List NodeId
  reached : Array Bool
deriving DecidableEq

namespace Search

/-- The node of a handle was reached. -/
def has (s : Search) (id : NodeId) : Bool := s.reached.getD id.index false

/-- A search that has found one handle and looked at none. -/
def start (g : Graph) (seed : NodeId) : Search := ⟨[seed], Array.replicate g.nodes.size false⟩

/-- Marks a node as reached. -/
def mark (s : Search) (id : NodeId) : Search :=
  { s with reached := s.reached.setIfInBounds id.index true }

/-- The neighbours of a node that are still to be reached. -/
def unreached (g : Graph) (s : Search) (id : NodeId) : List NodeId :=
  (g.neighbors id).filter fun other => (g.node? other).isSome && !s.has other

/-- Looks at one handle. -/
def step (g : Graph) (s : Search) : Search :=
  match s.frontier with
  | [] => s
  | id :: rest =>
    if (g.node? id).isNone || s.has id then { s with frontier := rest }
    else
      let s := s.mark id
      { s with frontier := (unreached g s id).reverse ++ rest }

/-- So many steps. -/
def run (g : Graph) : Nat → Search → Search
  | 0, s => s
  | k + 1, s => run g k (step g s)

end Search

namespace Graph

/-- How many ends of edges lie at the nodes. -/
def endCount (g : Graph) : Nat := (g.nodes.values.flatMap Node.incident).length

/-- The search from a node until nothing is left to look at. -/
def searchFrom (g : Graph) (seed : NodeId) : Search :=
  Search.run g (g.endCount + 1) (.start g seed)

/-- Splits off the part of the first node.  Both graphs are restrictions of one copy, so an
entity has the same slot in either; there is nothing to split where there is no node. -/
def split? (g : Graph) : Option (Graph × Graph) :=
  let copy := g.compact
  match copy.node? ⟨0⟩ with
  | none => none
  | some _ =>
    let search := copy.searchFrom ⟨0⟩
    some ((copy.retain fun id _ => search.has id).2, (copy.retain fun id _ => !search.has id).2)

/-- At most `k` parts, one split off after the other. -/
def peel : (k : Nat) → Graph → List Graph
  | 0, _ => []
  | k + 1, g =>
    match g.split? with
    | none => []
    | some (part, rest) => part :: peel k rest

/-- The connected parts in the order of their first nodes.  Every part takes a node away, so
there are no more parts than nodes. -/
def components (g : Graph) : List Graph := peel g.nodes.values.length g

/-- There are no two parts. -/
def isConnected (g : Graph) : Bool :=
  match g.split? with
  | some (_, rest) => rest.isEmpty
  | none => true

end Graph

end PatternGraph
