/-
  PatternGraph.Path.Draft

  Writing a path call by call.  A draft holds the elements so far, the number of
  the next anonymous name, and the direction and hop range that wait for the
  next relationship.  The first call out of place is remembered and stops the
  path from growing.
-/
import PatternGraph.Path.Anonymous
import PatternGraph.Path.Basic
import PatternGraph.Path.Defect

namespace PatternGraph

/-- What a call says of a node; without a name the node gets an anonymous one. -/
structure NodeDraft where
  name : Option String := none
  label : Option String := none
deriving DecidableEq

/-- What a call says of a relationship; without a name it gets an anonymous one. -/
structure EdgeDraft where
  name : Option String := none
  types : List String := []
deriving DecidableEq

/-- One call on a draft. -/
inductive DraftCall where
  /-- Starts the path. -/
  | node (n : NodeDraft)
  /-- Extends the path by a relationship and the node that it leads to. -/
  | edge (e : EdgeDraft) (target : NodeDraft)
  /-- Sets the direction of the next relationship. -/
  | direction (d : Direction)
  /-- Sets the hop range of the next relationship. -/
  | hops (r : HopRange)
deriving DecidableEq

/-- Makes the next relationship point neither way. -/
def DraftCall.undirected : DraftCall := .direction .both

/-- A path that is being written. -/
structure PathDraft where
  elements : List PathElement := []
  nextAnonymous : Nat := 0
  direction : Direction := .outgoing
  range : Option HopRange := none
  fault : Option PathDefect := none
deriving DecidableEq

namespace PathDraft

/-- A draft whose first anonymous name has number `n`. -/
def seeded (n : Nat) : PathDraft := { nextAnonymous := n }

/-- The given name or else the next anonymous one, and the number that is next after it. -/
def chooseName (next : Nat) : Option String → String × Nat
  | some name => (name, next)
  | none => (anonymousName next, next + 1)

/-- Starts the path with a node. -/
def node (d : PathDraft) (n : NodeDraft) : PathDraft :=
  if d.fault.isSome then d
  else if d.elements.isEmpty then
    let (name, next) := chooseName d.nextAnonymous n.name
    { d with elements := [.node ⟨name, n.label⟩], nextAnonymous := next }
  else { d with fault := some .secondStart }

/-- Extends the path.  The relationship chooses its name before its target does; what waited
for it is used up. -/
def edge (d : PathDraft) (e : EdgeDraft) (target : NodeDraft) : PathDraft :=
  if d.fault.isSome then d
  else if d.elements.isEmpty then { d with fault := some .edgeBeforeStart }
  else
    let (edgeName, next) := chooseName d.nextAnonymous e.name
    let (nodeName, next) := chooseName next target.name
    { d with
      elements := d.elements ++
        [.edge ⟨edgeName, d.direction, e.types, d.range⟩, .node ⟨nodeName, target.label⟩]
      nextAnonymous := next
      direction := .outgoing
      range := none }

/-- One call. -/
def apply (d : PathDraft) : DraftCall → PathDraft
  | .node n => d.node n
  | .edge e target => d.edge e target
  | .direction way => { d with direction := way }
  | .hops r => { d with range := some r }

/-- The draft after a list of calls. -/
def run (d : PathDraft) (calls : List DraftCall) : PathDraft := calls.foldl apply d

/-- The finished path, or the first defect. -/
def finish (d : PathDraft) : Except PathDefect Path :=
  match d.fault with
  | some defect => .error defect
  | none => if d.elements.isEmpty then .error .nothingDrafted else .ok ⟨d.elements⟩

end PathDraft

end PatternGraph
