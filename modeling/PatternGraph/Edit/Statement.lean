/-
  PatternGraph.Edit.Statement

  Writing a statement into a graph, path by path.  Every path is drafted by
  itself, from a seed of its own.  The first draft that makes no path, or path
  that is not accepted, ends the statement; what was added before it stays.
-/
import PatternGraph.Edit.Extend
import PatternGraph.Path.Draft

namespace PatternGraph

/-- The calls that write one path, and the number of its first anonymous name. -/
structure SeededDraft where
  seed : Nat
  calls : List DraftCall
deriving DecidableEq

/-- The path that the calls write. -/
def SeededDraft.path (d : SeededDraft) : Except PathDefect Path :=
  ((PathDraft.seeded d.seed).run d.calls).finish

/-- How far a list of edits came: how many succeeded, why the next one failed, and the graph that
was left behind. -/
structure Progress where
  done : Nat
  failure : Option GraphError
  graph : Graph
deriving DecidableEq

namespace Edit

/-- Adds the path that a draft writes. -/
def addDraft (c : Catalog) (d : SeededDraft) : Edit Unit := do
  let p ← check fun _ =>
    match d.path with
    | .ok p => .ok p
    | .error defect => .error (.malformedPath defect)
  addPath c p

/-- Runs edits one after the other until one fails. -/
def progress : List (Edit Unit) → Graph → Progress
  | [], g => ⟨0, none, g⟩
  | edit :: rest, g =>
    match edit g with
    | .ok _ g' => { progress rest g' with done := (progress rest g').done + 1 }
    | .error e g' => ⟨0, some e, g'⟩

end Edit

end PatternGraph
