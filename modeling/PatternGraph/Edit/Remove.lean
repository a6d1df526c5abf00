/-
  PatternGraph.Edit.Remove

  Taking entities out.  A node goes together with the edges at it.
-/
import PatternGraph.Edit.Basic

namespace PatternGraph

namespace Graph

/-- Takes out nodes one after the other and counts those that were there. -/
def extractNodes (g : Graph) (ids : List NodeId) : Nat × Graph :=
  ids.foldl
    (fun (taken, g) id =>
      match g.extractNode? id with
      | some (_, g) => (taken + 1, g)
      | none => (taken, g))
    (0, g)

/-- Tests nodes one after the other and lists those that fail. -/
def failing {m : Type → Type} [Monad m] (keep : NodeId → Node → m Bool) :
    List (NodeId × Node) → m (List NodeId)
  | [] => return []
  | (id, n) :: rest => do
    let passes ← keep id n
    let others ← failing keep rest
    return if passes then others else id :: others

/-- Keeps the nodes that pass the test and the edges between them.  Every node is tested as it
stands at first, by a test that may have effects; the number of nodes taken out comes with the
graph. -/
def retainM {m : Type → Type} [Monad m] (g : Graph) (keep : NodeId → Node → m Bool) :
    m (Nat × Graph) := do
  let ids ← failing keep g.liveNodes
  return g.extractNodes ids

/-- Keeps the nodes that pass a test without effects and the edges between them. -/
def retain (g : Graph) (keep : NodeId → Node → Bool) : Nat × Graph :=
  Id.run (g.retainM fun id n => pure (keep id n))

end Graph

namespace Edit

/-- Takes out a node and the edges at it. -/
def removeNode (id : NodeId) : Edit Node := fun g =>
  match g.extractNode? id with
  | some (n, g') => .ok n g'
  | none => .error (.unknownNode id) g

/-- Takes out an edge. -/
def removeEdge (id : EdgeId) : Edit Edge := do
  let e ← check (·.liveEdge id)
  modify (·.dropEdge id)
  return e

/-- Keeps the nodes that pass the test and the edges between them, and counts the others. -/
def retain (keep : Node → Bool) : Edit Nat :=
  modifyGet fun g => g.retain fun _ n => keep n

end Edit

end PatternGraph
