/-
  PatternGraph.Edit.Named

  Editing a graph by names alone.  A named command looks up the handles that
  its edit takes, and fails where a name is not bound; its answer tells of an
  entity what it says, not where it stands.
-/
import PatternGraph.Edit.Extend
import PatternGraph.Edit.Merge
import PatternGraph.Edit.Remove
import PatternGraph.Edit.Resolve
import PatternGraph.Edit.Reverse
import PatternGraph.Graph.Content

namespace PatternGraph

/-- An edit whose arguments are names.  A test of nodes is given what a node says and how many
edges enter and leave it. -/
inductive NamedCommand where
  | addNode (name : String)
  | setLabel (c : Catalog) (name label : String)
  | addEdge (name src dest : String) (types : List (String × SchemaRef TypeId))
      (bidirectional : Bool) (hops : Hops)
  | addPath (c : Catalog) (p : Path)
  | merge (other : Graph)
  | removeNode (name : String)
  | removeEdge (name : String)
  | reverseEdge (name : String)
  | retain (keep : NodeContent → (entering leaving : Nat) → Bool)
  | resolve (c : Catalog)

/-- What a named command tells when it succeeds. -/
inductive Answer where
  | done
  /-- The name of a new entity, read through its handle. -/
  | named (name : Option String)
  | flag (b : Bool)
  | count (n : Nat)
  | tally (t : MergeTally)
  /-- A node that was taken out; it lists no edges. -/
  | node (n : Node)
  /-- An edge that was taken out, its ends given by name. -/
  | edge (d : EdgeContent)
deriving DecidableEq

namespace NamedCommand

open Edit in
/-- The edit of a named command. -/
def edit : NamedCommand → Edit Answer
  | .addNode name => do
    let id ← Edit.addNode name
    return .named (← ask (·.nameOf? id))
  | .setLabel c name label => do
    let id ← check (·.nodeNamed name)
    return .flag (← Edit.setLabel c id label)
  | .addEdge name src dest types bidirectional hops => do
    let src ← check (·.nodeNamed src)
    let dest ← check (·.nodeNamed dest)
    let plain : Edge := { name, src, dest }
    let id ← Edit.addEdge (((plain.withTypes types).withFlag bidirectional).withHops hops)
    return .named (← ask fun g => (g.edge? id).map Edge.name)
  | .addPath c p => do
    Edit.addPath c p
    return .done
  | .merge other => return .tally (← Edit.merge other)
  | .removeNode name => do
    let id ← check (·.nodeNamed name)
    return .node (← Edit.removeNode id)
  | .removeEdge name => do
    let id ← check (·.edgeNamed name)
    let e ← Edit.removeEdge id
    return .edge (← ask (·.edgeContent e))
  | .reverseEdge name => do
    let id ← check (·.edgeNamed name)
    Edit.reverseEdge id
    return .done
  | .retain keep => return .count (← Edit.retain fun n => keep n.content n.inDegree n.outDegree)
  | .resolve c => return .count (← Edit.resolve c)

/-- The other graph that the command reads. -/
def operand? : NamedCommand → Option Graph
  | .merge other => some other
  | _ => none

/-- The graph that a list of commands leaves behind. -/
def runAll (commands : List NamedCommand) (g : Graph) : Graph :=
  commands.foldl (fun g k => k.edit.after g) g

/-- What the commands of a list tell, one after the other, or why they fail. -/
def answers : List NamedCommand → Graph → List (Except GraphError Answer)
  | [], _ => []
  | k :: rest, g => k.edit.outcome g :: answers rest (k.edit.after g)

end NamedCommand

end PatternGraph
