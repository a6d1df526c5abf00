/-
  PatternGraph.Graph.Renaming

  Fresh names for the anonymous entities of a walk.  An anonymous name says
  nothing, so where the graph binds it already the walk means another entity,
  and the name is replaced by a free one, the same at every occurrence.

  Candidates are tried in the order of their numbers, never one twice.  A
  candidate that is taken uses up one of the taken names, so as many tries as
  there are taken names are enough.
-/
import PatternGraph.Graph.Basic
import PatternGraph.Path.Anonymous
import PatternGraph.Path.Walk

namespace PatternGraph

/-- Replacements for names, and the number of candidates that were tried for them. -/
structure Renaming where
  pairs : List (String × String) := []
  tried : Nat := 0
deriving DecidableEq

namespace Renaming

/-- The replacement of a name, which is the name itself where there is none. -/
def apply (r : Renaming) (name : String) : String := (r.pairs.lookup name).getD name

/-- There is a replacement for the name. -/
def covers (r : Renaming) (name : String) : Bool := (r.pairs.lookup name).isSome

/-- The first number from `k` on whose anonymous name is not taken, if one of `fuel` numbers
is such; else the number after them. -/
def freeNumber (taken : List String) : (fuel k : Nat) → Nat
  | 0, k => k
  | fuel + 1, k => if taken.contains (anonymousName k) then freeNumber taken fuel (k + 1) else k

/-- Replaces a name by the next candidate that is not taken. -/
def add (taken : List String) (r : Renaming) (name : String) : Renaming :=
  let k := freeNumber taken taken.length r.tried
  { pairs := (name, anonymousName k) :: r.pairs, tried := k + 1 }

end Renaming

namespace Graph

/-- The names of all nodes and edges. -/
def names (g : Graph) : List String :=
  g.nodes.values.map Node.name ++ g.edges.values.map Edge.name

/-- The name cannot be used for a new entity and stands for no old one. -/
def clashes (g : Graph) (name : String) : Bool := isAnonymous name && g.binds name

/-- The replacements for a walk, found in the order in which its names are listed.  A name is
taken when the graph binds it or the walk writes it. -/
def renamingFor (g : Graph) (w : Walk) : Renaming :=
  let taken := g.names ++ w.names
  w.names.foldl
    (fun r name => if g.clashes name && !r.covers name then r.add taken name else r) {}

/-- The walk under the names by which the graph will know it. -/
def renamed (g : Graph) (w : Walk) : Walk := w.rename (g.renamingFor w).apply

end Graph

end PatternGraph
