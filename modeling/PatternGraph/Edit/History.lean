/-
  PatternGraph.Edit.History

  What can happen to a graph.  A command is an edit with its arguments; a
  history is a list of commands, run one after the other whether they succeed
  or fail.  `Reachable` collects the graphs that histories lead to, from empty
  graphs, statements, copies and parts of reachable graphs.
-/
import PatternGraph.Edit.Extend
import PatternGraph.Edit.Merge
import PatternGraph.Edit.Remove
import PatternGraph.Edit.Resolve
import PatternGraph.Edit.Reverse
import PatternGraph.Graph.Components

namespace PatternGraph

/-- An edit with its arguments. -/
inductive Command where
  | addNode (name : String)
  | setLabel (c : Catalog) (id : NodeId) (label : String)
  | addEdge (e : Edge)
  | addPath (c : Catalog) (p : Path)
  | merge (other : Graph)
  | removeNode (id : NodeId)
  | removeEdge (id : EdgeId)
  | reverseEdge (id : EdgeId)
  | retain (keep : Node → Bool)
  | resolve (c : Catalog)

namespace Command

/-- The edit, whose result is left out. -/
def edit : Command → Edit Unit
  | .addNode name => discard <| Edit.addNode name
  | .setLabel c id label => discard <| Edit.setLabel c id label
  | .addEdge e => discard <| Edit.addEdge e
  | .addPath c p => Edit.addPath c p
  | .merge other => discard <| Edit.merge other
  | .removeNode id => discard <| Edit.removeNode id
  | .removeEdge id => discard <| Edit.removeEdge id
  | .reverseEdge id => Edit.reverseEdge id
  | .retain keep => discard <| Edit.retain keep
  | .resolve c => discard <| Edit.resolve c

/-- The other graph that the command reads. -/
def operand? : Command → Option Graph
  | .merge other => some other
  | _ => none

/-- The edge that the command hands in. -/
def edge? : Command → Option Edge
  | .addEdge e => some e
  | _ => none

/-- The graph that the command leaves behind, whether it succeeds or fails. -/
def run (k : Command) (g : Graph) : Graph := k.edit.after g

/-- The graph that a history leaves behind. -/
def runAll (history : List Command) (g : Graph) : Graph := history.foldl (fun g k => k.run g) g

end Command

/-- The graphs that can come up. -/
inductive Reachable : Graph → Prop where
  | empty (limits : Limits) : Reachable (.empty limits)
  | ofPaths {c : Catalog} {limits : Limits} {paths : List Path} {g : Graph}
      (made : Graph.ofPaths c limits paths = .ok g) : Reachable g
  | compact {g : Graph} (reach : Reachable g) : Reachable g.compact
  | part {g part rest : Graph} (reach : Reachable g) (split : g.split? = some (part, rest)) :
      Reachable part
  | rest {g part rest : Graph} (reach : Reachable g) (split : g.split? = some (part, rest)) :
      Reachable rest
  | run {g : Graph} (k : Command) (reach : Reachable g)
      (operand : ∀ other, k.operand? = some other → Reachable other)
      (made : ∀ e, k.edge? = some e → e.Made) : Reachable (k.run g)

namespace Reachable

/-- A history whose commands read reachable graphs and hand in edges that callers can make leads
from a reachable graph to one. -/
theorem runAll {g : Graph} (reach : Reachable g) {history : List Command}
    (operands : ∀ k ∈ history, ∀ other, k.operand? = some other → Reachable other)
    (made : ∀ k ∈ history, ∀ e, k.edge? = some e → e.Made) :
    Reachable (Command.runAll history g) := by
  induction history generalizing g with
  | nil => exact reach
  | cons k rest ih =>
    obtain ⟨hoperand, hoperands⟩ := List.forall_mem_cons.mp operands
    obtain ⟨hedge, hedges⟩ := List.forall_mem_cons.mp made
    exact ih (.run k reach hoperand hedge) hoperands hedges

/-- The connected parts of a reachable graph are reachable. -/
theorem peel {g part : Graph} {count : Nat} (reach : Reachable g) (h : part ∈ Graph.peel count g) :
    Reachable part := by
  induction count generalizing g with
  | zero => cases h
  | succ count ih =>
    rw [Graph.peel] at h
    split at h
    · cases h
    next first rest hsplit =>
      rcases List.mem_cons.mp h with rfl | h
      · exact reach.part hsplit
      · exact ih (reach.rest hsplit) h

end Reachable

end PatternGraph
