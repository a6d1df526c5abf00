/-
  PatternGraph.Edit.Resolve

  Asking a catalog again for the names that were unknown.
-/
import PatternGraph.Edit.Basic
import PatternGraph.Schema.Catalog

namespace PatternGraph

/-- The node with its label looked up once more. -/
def Node.refresh (c : Catalog) (n : Node) : Node :=
  { n with labelRef := n.labelRef.refresh c.labelId? }

/-- The edge with its types looked up once more. -/
def Edge.refresh (c : Catalog) (e : Edge) : Edge :=
  { e with typeRefs := e.typeRefs.map (·.refresh c.typeId?) }

namespace Graph

/-- How many unknown names the catalog knows, each counted where it stands. -/
def refreshCount (g : Graph) (c : Catalog) : Nat :=
  g.nodes.values.countP (·.labelRef.isRefreshed c.labelId?)
    + (g.edges.values.flatMap Edge.typeRefs).countP (·.isRefreshed c.typeId?)

/-- The graph with every unknown name looked up once more. -/
def refresh (g : Graph) (c : Catalog) : Graph :=
  { g with nodes := g.nodes.map (·.refresh c), edges := g.edges.map (·.refresh c) }

end Graph

/-- Looks every unknown name up once more and counts those that are known now. -/
def Edit.resolve (c : Catalog) : Edit Nat :=
  modifyGet fun g => (g.refreshCount c, g.refresh c)

end PatternGraph
