/-
  PatternGraph.Proofs.LateResolution

  Names that are looked up late are as if they were looked up early.  A
  catalog decides nothing but references: which label a node gets, which names
  are found and what is accepted is the same under every catalog.  So a path
  may be added under the schema as it was and refreshed when the schema has
  grown, or the graph may be refreshed first and the path added under the grown
  schema.
-/
import PatternGraph.Edit.History
import PatternGraph.Proofs.Recast

namespace PatternGraph

/-- Looking every unknown name up once more. -/
def Recast.refresh (c : Catalog) : Recast where
  node := Node.refresh c
  edge := Edge.refresh c
  node_addOutgoing _ _ := rfl
  node_addIncoming _ _ := rfl
  edge_src _ := rfl
  edge_dest _ := rfl

variable {early late : Catalog}

/-- A relationship makes the same edge under the grown schema. -/
theorem Catalog.Extends.refresh_edgeBetween (h : early.Extends late) (e : PathEdge)
    (left right : NodeId) :
    (e.edgeBetween early left right).refresh late = e.edgeBetween late left right := by
  simp only [Edge.refresh, PathEdge.edgeBetween_eq, List.map_map, Edge.mk.injEq, and_true, true_and]
  exact List.map_congr_left fun name _ => h.refresh_typeRef name

/-- A label that a node gets early and that is refreshed is the one that it gets late. -/
theorem Catalog.Extends.refresh_withLabel (h : early.Extends late) (n : Node) (label : String) :
    (n.withLabel label (early.labelRef label)).refresh late
      = (n.refresh late).withLabel label (late.labelRef label) := by
  simp only [Node.refresh, Node.withLabel, h.refresh_labelRef]

namespace Graph

variable {g g' : Graph}

theorem refresh_eq_recast (g : Graph) (c : Catalog) : g.refresh c = g.recast (.refresh c) :=
  rfl

theorem size_nodes_refresh (g : Graph) (c : Catalog) :
    (g.refresh c).nodes.size = g.nodes.size :=
  Slots.size_map _ _

theorem size_edges_refresh (g : Graph) (c : Catalog) :
    (g.refresh c).edges.size = g.edges.size :=
  Slots.size_map _ _

theorem refresh_empty (limits : Limits) (c : Catalog) :
    (empty limits).refresh c = empty limits := by
  simp [refresh, empty, Slots.map, Slots.empty]

/-! ## What a catalog does not decide -/

theorem nodeNamed?_refresh (g : Graph) (c : Catalog) (name : String) :
    (g.refresh c).nodeNamed? name = g.nodeNamed? name := by
  rw [refresh_eq_recast]
  exact nodeNamed?_recast fun _ => rfl

theorem hasNode_refresh (g : Graph) (c : Catalog) (name : String) :
    (g.refresh c).hasNode name = g.hasNode name := by
  rw [refresh_eq_recast]
  exact hasNode_recast fun _ => rfl

theorem hasEdge_refresh (g : Graph) (c : Catalog) (name : String) :
    (g.refresh c).hasEdge name = g.hasEdge name := by
  rw [refresh_eq_recast]
  exact hasEdge_recast fun _ => rfl

theorem names_refresh (g : Graph) (c : Catalog) : (g.refresh c).names = g.names := by
  have hnodes : (g.refresh c).nodes.values = g.nodes.values.map (·.refresh c) :=
    Slots.values_map _ _
  have hedges : (g.refresh c).edges.values = g.edges.values.map (·.refresh c) :=
    Slots.values_map _ _
  rw [names, hnodes, hedges, List.map_map, List.map_map]
  rfl

theorem renamed_refresh (g : Graph) (c : Catalog) (w : Walk) :
    (g.refresh c).renamed w = g.renamed w := by
  have hclash : (g.refresh c).clashes = g.clashes := by
    funext name
    rw [clashes, clashes, binds, binds, hasNode_refresh, hasEdge_refresh]
  rw [renamed, renamed, renamingFor, renamingFor, names_refresh, hclash]

theorem acceptEdges_refresh (g : Graph) (c : Catalog) (seen : List String)
    (edges : List PathEdge) : (g.refresh c).acceptEdges seen edges = g.acceptEdges seen edges := by
  induction edges generalizing seen with
  | nil => rfl
  | cons e rest ih =>
      have hfree : (g.refresh c).freshEdgeName seen e.name = g.freshEdgeName seen e.name := by
        rw [freshEdgeName, freshEdgeName, freeEdgeName, freeEdgeName, hasEdge_refresh]
      rw [acceptEdges, acceptEdges, hfree, ih]
      rfl

theorem accept_refresh (g : Graph) (c : Catalog) (w : Walk) :
    (g.refresh c).accept w = g.accept w := by
  have hnew : (g.refresh c).newNodeNames w = g.newNodeNames w := by
    rw [newNodeNames, newNodeNames, funext (hasNode_refresh g c)]
  rw [accept, accept, acceptEdges_refresh, hnew]
  rfl

/-! ## Growing under either catalog -/

theorem findOrMake_refresh (g : Graph) (c : Catalog) (name : String) :
    (g.refresh c).findOrMake name
      = ((g.findOrMake name).1, (g.findOrMake name).2.refresh c) := by
  unfold findOrMake
  rw [nodeNamed?_refresh]
  cases g.nodeNamed? name with
  | some id => rfl
  | none =>
      simp only [refresh_eq_recast, recast_insertNode, size_nodes_recast]
      rfl

theorem refresh_offerLabel (h : early.Extends late) (g : Graph) (id : NodeId)
    (label : Option String) :
    (g.offerLabel early id label).refresh late = (g.refresh late).offerLabel late id label :=
  recast_offerLabel (r := .refresh late) (fun _ => rfl) h.refresh_withLabel g id label

theorem joinNode_refresh (h : early.Extends late) (g : Graph) (n : PathNode) :
    (g.refresh late).joinNode late n
      = ((g.joinNode early n).1, (g.joinNode early n).2.refresh late) := by
  simp only [joinNode, findOrMake_refresh, refresh_offerLabel h]

end Graph

/-! ## Paths and statements -/

namespace Edit

/-- A result with another graph left behind. -/
def onGraph {α : Type} (f : Graph → Graph) :
    EStateM.Result GraphError Graph α → EStateM.Result GraphError Graph α
  | .ok a g => .ok a (f g)
  | .error e g => .error e (f g)

theorem onGraph_bind {α β : Type} {f : Graph → Graph} {g : Graph} {edit edit' : Edit α}
    {next next' : α → Edit β} (hfirst : edit' (f g) = onGraph f (edit g))
    (hnext : ∀ a g', next' a (f g') = onGraph f (next a g')) :
    (edit' >>= next') (f g) = onGraph f ((edit >>= next) g) := by
  cases hrun : edit g with
  | error e g' =>
      rw [hrun] at hfirst
      rw [bind_error hfirst, bind_error hrun]
      rfl
  | ok a g' =>
      rw [hrun] at hfirst
      rw [bind_ok hfirst, bind_ok hrun]
      exact hnext a g'

/-- What is missing is a slot, whatever the catalog knows. -/
theorem noNodeSlot_refresh (g : Graph) (c : Catalog) : noNodeSlot (g.refresh c) = noNodeSlot g := by
  rw [noNodeSlot, Graph.size_nodes_refresh]
  rfl

theorem noEdgeSlot_refresh (g : Graph) (c : Catalog) : noEdgeSlot (g.refresh c) = noEdgeSlot g := by
  rw [noEdgeSlot, Graph.size_edges_refresh]
  rfl

theorem joinNode_refresh (h : early.Extends late) (n : PathNode) (g : Graph) :
    joinNode late n (g.refresh late) = onGraph (·.refresh late) (joinNode early n g) := by
  rw [joinNode_eq, joinNode_eq, Graph.hasNode_refresh, Graph.size_nodes_refresh,
    Graph.joinNode_refresh h, noNodeSlot_refresh]
  split <;> rfl

theorem discard_newEdge_refresh (c : Catalog) (e : Edge) (g : Graph) :
    (discard (newEdge (e.refresh c))) (g.refresh c)
      = onGraph (·.refresh c) ((discard (newEdge e)) g) := by
  have hinsert : (g.insertEdge e).refresh c = (g.refresh c).insertEdge (e.refresh c) :=
    Graph.recast_insertEdge g (.refresh c) e
  rw [discard_newEdge, discard_newEdge, Graph.size_edges_refresh, ← hinsert, noEdgeSlot_refresh]
  split <;> rfl

theorem addStep_refresh (h : early.Extends late) (left : NodeId) (s : Step) (g : Graph) :
    addStep late left s (g.refresh late) = onGraph (·.refresh late) (addStep early left s g) := by
  refine onGraph_bind (f := (·.refresh late)) (joinNode_refresh h s.target g) fun right g' => ?_
  rw [← h.refresh_edgeBetween]
  have hthen : ∀ (u : Unit) (g : Graph), (pure right : Edit NodeId) (g.refresh late)
      = onGraph (·.refresh late) ((pure right : Edit NodeId) g) := fun _ _ => rfl
  exact onGraph_bind (discard_newEdge_refresh late _ g') hthen

theorem addSteps_refresh (h : early.Extends late) (left : NodeId) (steps : List Step) (g : Graph) :
    addSteps late left steps (g.refresh late)
      = onGraph (·.refresh late) (addSteps early left steps g) := by
  induction steps generalizing g left with
  | nil => rfl
  | cons s rest ih => exact onGraph_bind (addStep_refresh h left s g) ih

/-- A walk that is added early and refreshed is as if it were added late, also where it runs out of
    slots. -/
theorem addWalk_refresh (h : early.Extends late) (w : Walk) (g : Graph) :
    addWalk late w (g.refresh late) = onGraph (·.refresh late) (addWalk early w g) :=
  onGraph_bind (joinNode_refresh h w.start g) fun start g' => addSteps_refresh h start w.steps g'

/-- Adding a path to the refreshed graph under the grown schema is adding it early and refreshing
    what is left behind, whether the path is accepted or not. -/
theorem addPath_refresh (h : early.Extends late) (p : Path) (g : Graph) :
    addPath late p (g.refresh late) = onGraph (·.refresh late) (addPath early p g) := by
  rw [addPath_eq, addPath_eq]
  cases p.walk? with
  | error defect => rfl
  | ok w =>
      simp only [Graph.renamed_refresh, Graph.accept_refresh]
      cases g.accept (g.renamed w) with
      | error e => rfl
      | ok _ => exact addWalk_refresh h _ g

theorem addPaths_refresh (h : early.Extends late) (paths : List Path) (g : Graph) :
    addPaths late paths (g.refresh late) = onGraph (·.refresh late) (addPaths early paths g) := by
  induction paths generalizing g with
  | nil => rfl
  | cons p rest ih => exact onGraph_bind (addPath_refresh h p g) fun _ g' => ih g'

end Edit

/-- When the schema has only grown from one catalog to another, a path that is added under the
    first and looked up under the second gives the outcome and the graph that looking up first
    and adding under the second gives; and so does a whole statement. -/
theorem Catalog.Extends.resolve_late (h : early.Extends late) :
    (∀ (g : Graph) (p : Path),
      (Edit.addPath early p).outcome g
          = (Edit.addPath late p).outcome ((Command.resolve late).run g) ∧
        Command.runAll [.addPath early p, .resolve late] g
          = Command.runAll [.resolve late, .addPath late p] g) ∧
      ∀ limits paths, (Graph.ofPaths early limits paths).map (Command.resolve late).run
        = Graph.ofPaths late limits paths := by
  refine ⟨?_, ?_⟩
  · intro g p
    have hrun : Edit.addPath late p ((Command.resolve late).run g) = _ :=
      Edit.addPath_refresh h p g
    refine ⟨?_, ?_⟩
    · rw [Edit.outcome, Edit.outcome, hrun]
      cases Edit.addPath early p g <;> rfl
    · show ((Edit.addPath early p).after g).refresh late
        = (Edit.addPath late p).after ((Command.resolve late).run g)
      rw [Edit.after, Edit.after, hrun]
      cases Edit.addPath early p g <;> rfl
  · intro limits paths
    have hrun := Edit.addPaths_refresh h paths (.empty limits)
    rw [Graph.refresh_empty] at hrun
    rw [Graph.ofPaths, Graph.ofPaths, hrun]
    cases Edit.addPaths early paths (.empty limits) <;> rfl

/-- A label and a type are registered after a path was added to a graph that waits for the label
    already; the path offers a second label, which is not taken in either order. -/
theorem Catalog.Extends.resolve_late_of_growth :
    let table := SchemaTable.addLabel {} "Person" ⟨1⟩
    let grown := (table.addLabel "City" ⟨2⟩).addType "IN" ⟨3⟩
    let g := Command.runAll [.addNode "b", .setLabel .empty ⟨0⟩ "City"] (.empty .standard)
    let p : Path := ⟨[.node ⟨"a", some "City"⟩, .edge ⟨"r", .outgoing, ["IN", "TO"], none⟩,
      .node ⟨"b", some "Person"⟩]⟩
    table.catalog.Extends grown.catalog ∧
      ((Edit.addPath table.catalog p).after g).refreshCount grown.catalog = 3 ∧
      (Edit.addPath table.catalog p).outcome g
        = (Edit.addPath grown.catalog p).outcome ((Command.resolve grown.catalog).run g) ∧
      Command.runAll [.addPath table.catalog p, .resolve grown.catalog] g
        = Command.runAll [.resolve grown.catalog, .addPath grown.catalog p] g := by
  intro table grown g p
  have hgrown : table.catalog.Extends grown.catalog :=
    (SchemaTable.extends_addLabel ⟨2⟩ (by decide +kernel)).trans
      (SchemaTable.extends_addType ⟨3⟩ (by decide +kernel))
  exact ⟨hgrown, by decide +kernel, hgrown.resolve_late.1 g p⟩

end PatternGraph
