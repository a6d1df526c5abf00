/-
  PatternGraph.Edit.Origin

  Where the edges of a graph come from.  An edge is drawn when a path puts it
  into a graph, and what is drawn in a graph is drawn in its copies, its parts
  and the graphs that it is merged into.  `Drawn` follows this along all the
  ways in which graphs come up; names tell the edges apart.
-/
import PatternGraph.Edit.History

namespace PatternGraph

namespace Command

/-- A new edge of this name is drawn: a path brings it, or another graph where it is. -/
def bringsDrawn (theirs : String → Prop) : Command → String → Prop
  | .addPath _ _, _ => True
  | .merge _, name => theirs name
  | _, _ => False

/-- Which edges are drawn when the command has run on a graph: those that were there and drawn, and
those of the new ones that the command brings so. -/
def draws (k : Command) (g : Graph) (drawn theirs : String → Prop) (name : String) : Prop :=
  if g.hasEdge name then drawn name else k.bringsDrawn theirs name

end Command

/-- The graphs that can come up, with the edges in them that are drawn.  Of a name that no edge
bears nothing is told. -/
inductive Drawn : Graph → (String → Prop) → Prop where
  | empty (limits : Limits) : Drawn (.empty limits) fun _ => False
  | ofPaths {c : Catalog} {limits : Limits} {paths : List Path} {g : Graph}
      (made : Graph.ofPaths c limits paths = .ok g) : Drawn g fun _ => True
  | compact {g : Graph} {drawn : String → Prop} (origin : Drawn g drawn) : Drawn g.compact drawn
  | part {g part rest : Graph} {drawn : String → Prop} (origin : Drawn g drawn)
      (split : g.split? = some (part, rest)) : Drawn part drawn
  | rest {g part rest : Graph} {drawn : String → Prop} (origin : Drawn g drawn)
      (split : g.split? = some (part, rest)) : Drawn rest drawn
  | run {g : Graph} {drawn : String → Prop} (k : Command) (theirs : String → Prop)
      (origin : Drawn g drawn) (operand : ∀ other, k.operand? = some other → Drawn other theirs)
      (made : ∀ e, k.edge? = some e → e.Made) : Drawn (k.run g) (k.draws g drawn theirs)

/-- A graph whose edges are told apart can come up. -/
theorem Drawn.reachable {g : Graph} {drawn : String → Prop} (origin : Drawn g drawn) :
    Reachable g := by
  induction origin with
  | empty limits => exact .empty limits
  | ofPaths made => exact .ofPaths made
  | compact _ ih => exact ih.compact
  | part _ split ih => exact ih.part split
  | rest _ split ih => exact ih.rest split
  | run k _ _ _ made ih ihOperand => exact ih.run k ihOperand made

/-- Of every graph that can come up it is told which edges are drawn. -/
theorem Reachable.exists_drawn {g : Graph} (reach : Reachable g) : ∃ drawn, Drawn g drawn := by
  induction reach with
  | empty limits => exact ⟨_, .empty limits⟩
  | ofPaths made => exact ⟨_, .ofPaths made⟩
  | compact _ ih =>
    obtain ⟨_, origin⟩ := ih
    exact ⟨_, origin.compact⟩
  | part _ split ih =>
    obtain ⟨_, origin⟩ := ih
    exact ⟨_, origin.part split⟩
  | rest _ split ih =>
    obtain ⟨_, origin⟩ := ih
    exact ⟨_, origin.rest split⟩
  | run k _ operand made ih ihOperand =>
    obtain ⟨_, origin⟩ := ih
    have htheirs : ∃ theirs, ∀ other, k.operand? = some other → Drawn other theirs := by
      cases hother : k.operand? with
      | none => exact ⟨fun _ => False, nofun⟩
      | some other =>
        obtain ⟨theirs, horigin⟩ := ihOperand other hother
        exact ⟨theirs, fun _ heq => Option.some.inj heq ▸ horigin⟩
    obtain ⟨theirs, hoperand⟩ := htheirs
    exact ⟨_, .run k theirs origin hoperand made⟩

end PatternGraph
