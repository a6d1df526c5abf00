/-
  PatternGraph.Path.Reversed

  Paths written backwards, with the elements in reverse order and the arrows
  turned.  A walk that is read backwards starts at its last node; written out,
  it is the reversed path.
-/
import PatternGraph.Path.Walk

namespace PatternGraph

/-- The other way; what points neither way does so from both sides. -/
def Direction.opposite : Direction → Direction
  | .outgoing => .incoming
  | .incoming => .outgoing
  | .both => .both

/-- The relationship as it is written from right to left. -/
def PathEdge.opposite (e : PathEdge) : PathEdge := { e with direction := e.direction.opposite }

/-- The element as it is written from right to left. -/
def PathElement.opposite : PathElement → PathElement
  | .node n => .node n
  | .edge e => .edge e.opposite

/-- The path written backwards. -/
def Path.reversed (p : Path) : Path := ⟨(p.elements.map .opposite).reverse⟩

/-- The steps in reverse order, with a walk after them that begins where they do. -/
def Walk.reversedOnto : (later : Walk) → List Step → Walk
  | later, [] => later
  | later, s :: rest =>
    Walk.reversedOnto ⟨s.target, ⟨s.edge.opposite, later.start⟩ :: later.steps⟩ rest

/-- The walk backwards. -/
def Walk.reversed (w : Walk) : Walk := Walk.reversedOnto ⟨w.start, []⟩ w.steps

/-! ## Twice is not at all -/

theorem Direction.opposite_opposite (d : Direction) : d.opposite.opposite = d := by
  cases d <;> rfl

theorem PathEdge.opposite_opposite (e : PathEdge) : e.opposite.opposite = e := by
  rw [opposite, opposite, Direction.opposite_opposite]

theorem PathElement.opposite_opposite (x : PathElement) : x.opposite.opposite = x := by
  cases x with
  | node n => rfl
  | edge e => exact congrArg PathElement.edge e.opposite_opposite

theorem Path.reversed_reversed (p : Path) : p.reversed.reversed = p := by
  have hsame : PathElement.opposite ∘ PathElement.opposite = id :=
    funext PathElement.opposite_opposite
  simp [reversed, ← List.map_reverse, List.map_map, hsame]

/-! ## What is written -/

theorem Path.nodes_reversed (p : Path) : p.reversed.nodes = p.nodes.reverse := by
  have hkind : PathElement.node? ∘ PathElement.opposite = PathElement.node? := by
    funext x
    cases x <;> rfl
  rw [nodes, reversed, List.filterMap_reverse, List.filterMap_map, hkind, nodes]

theorem Path.edges_reversed (p : Path) :
    p.reversed.edges = (p.edges.map PathEdge.opposite).reverse := by
  have hkind : PathElement.edge? ∘ PathElement.opposite
      = fun x => x.edge?.map PathEdge.opposite := by
    funext x
    cases x <;> rfl
  rw [edges, reversed, List.filterMap_reverse, List.filterMap_map, hkind, edges,
    List.map_filterMap]

/-! ## Walks -/

namespace Walk

theorem path_reversedOnto (later : Walk) (steps : List Step) :
    (reversedOnto later steps).path
      = ⟨((steps.flatMap Step.elements).map .opposite).reverse ++ later.path.elements⟩ := by
  induction steps generalizing later with
  | nil => rfl
  | cons s rest ih =>
    rw [reversedOnto, ih, List.flatMap_cons, List.map_append, List.reverse_append,
      List.append_assoc]
    rfl

/-- The walk backwards is read off the reversed path. -/
theorem path_reversed (w : Walk) : w.reversed.path = w.path.reversed := by
  rw [reversed, path_reversedOnto]
  show _ = (⟨(_ :: (w.steps.flatMap Step.elements).map .opposite).reverse⟩ : Path)
  rw [List.reverse_cons]
  rfl

theorem nodes_reversed (w : Walk) : w.reversed.nodes = w.nodes.reverse := by
  rw [← nodes_path, path_reversed, Path.nodes_reversed, nodes_path]

end Walk

/-- A path takes turns backwards as well. -/
theorem Path.Alternates.reversed {p : Path} (alternates : p.Alternates) :
    p.reversed.Alternates := by
  obtain ⟨w, rfl⟩ := alternates_iff.mp alternates
  exact alternates_iff.mpr ⟨w.reversed, w.path_reversed.symm⟩

end PatternGraph
