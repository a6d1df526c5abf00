/-
  PatternGraph.Proofs.Resolution

  Looking the unknown names of a graph up once more, as a relation between what
  the graph said and what it says.  `Resolves` speaks of single references: a
  name that waits and that the catalog knows is turned into its identifier, and
  every other reference is kept.  On graphs the relation is the edit.

  From one reference to the next come the laws of composition.  A second look
  into the same catalog finds nothing, two looks into a growing schema are one
  look into the grown one, and graphs may be merged before they are looked at
  or after.
-/
import PatternGraph.Proofs.LateResolution
import PatternGraph.Proofs.Reachability
import PatternGraph.Proofs.Tidy

namespace PatternGraph

/-! ## Counting -/

section Counting

variable {α : Type}

/-- In how many places two lists differ. -/
def changes [DecidableEq α] (before after : List α) : Nat :=
  (before.zip after).countP fun (a, b) => a != b

theorem changes_map [DecidableEq α] (f : α → α) (l : List α) :
    changes l (l.map f) = l.countP fun a => a != f a := by
  induction l with
  | nil => rfl
  | cons a rest ih =>
      rw [List.countP_cons, ← ih]
      exact List.countP_cons

/-- Where one test passes exactly when one of two others does, and never both, the counts add
    up. -/
theorem countP_add_countP {p q s : α → Bool} (h : ∀ a, (p a).toNat + (q a).toNat = (s a).toNat)
    (l : List α) : l.countP p + l.countP q = l.countP s := by
  induction l with
  | nil => rfl
  | cons a rest ih =>
      have hcons (t : α → Bool) : (a :: rest).countP t = rest.countP t + (t a).toNat := by
        rw [List.countP_cons]
        cases t a <;> rfl
      rw [hcons, hcons, hcons, ← ih, ← h a]
      omega

end Counting

/-! ## One reference -/

namespace SchemaRef

variable {I : Type} {lookup early late : String → Option I} {r r' : SchemaRef I}

/-- A name that waits and that is known is turned into its identifier; every other reference is
    kept. -/
inductive Resolves (lookup : String → Option I) : SchemaRef I → SchemaRef I → Prop where
  | turned {name : String} {id : I} (known : lookup name = some id) :
      Resolves lookup (.unresolved name) (.resolved id)
  | kept {r : SchemaRef I} (unknown : ∀ name, r = .unresolved name → lookup name = none) :
      Resolves lookup r r

theorem resolves_iff : r.Resolves lookup r' ↔ r' = r.refresh lookup := by
  constructor
  · intro h
    cases h with
    | turned known =>
        rw [refresh, known]
        rfl
    | kept unknown =>
        cases r with
        | absent => rfl
        | resolved id => rfl
        | unresolved name =>
            rw [refresh, unknown name rfl]
            rfl
  · rintro rfl
    cases r with
    | absent =>
        refine .kept ?_
        rintro name ⟨⟩
    | resolved id =>
        refine .kept ?_
        rintro name ⟨⟩
    | unresolved name =>
        rw [refresh]
        cases hl : lookup name with
        | some id => exact .turned hl
        | none =>
            refine .kept ?_
            rintro _ ⟨⟩
            exact hl

/-- What is counted is what changes. -/
theorem isRefreshed_eq_bne [DecidableEq I] (lookup : String → Option I) (r : SchemaRef I) :
    r.isRefreshed lookup = (r != r.refresh lookup) := by
  cases r with
  | absent => rfl
  | resolved id => exact (bne_self_eq_false _).symm
  | unresolved name =>
      rw [isRefreshed, refresh]
      cases hl : lookup name <;> simp [pending?, ofAnswer, hl]

/-- Two looks into a growing schema are one look into the grown one. -/
theorem refresh_refresh (h : ∀ name id, early name = some id → late name = some id)
    (r : SchemaRef I) : (r.refresh early).refresh late = r.refresh late := by
  cases r with
  | absent => rfl
  | resolved id => rfl
  | unresolved name =>
      rw [refresh, refresh]
      cases hearly : early name with
      | none => rfl
      | some id => rw [h name id hearly]; rfl

/-- A name that is known late is found at the first look or at the second, and not at both. -/
theorem toNat_isRefreshed_refresh (h : ∀ name id, early name = some id → late name = some id)
    (r : SchemaRef I) :
    (r.isRefreshed early).toNat + ((r.refresh early).isRefreshed late).toNat
      = (r.isRefreshed late).toNat := by
  cases r with
  | absent => rfl
  | resolved id => rfl
  | unresolved name =>
      rw [refresh]
      cases hearly : early name with
      | none => simp [isRefreshed, pending?, ofAnswer, hearly]
      | some id => simp [isRefreshed, pending?, ofAnswer, hearly, h name id hearly]

theorem countP_isRefreshed (h : ∀ name id, early name = some id → late name = some id)
    (refs : List (SchemaRef I)) :
    refs.countP (·.isRefreshed early) + (refs.map (·.refresh early)).countP (·.isRefreshed late)
      = refs.countP (·.isRefreshed late) := by
  rw [List.countP_map]
  exact countP_add_countP (toNat_isRefreshed_refresh h) refs

end SchemaRef

/-! ## Nodes and edges -/

/-- A relation that is a function, on values that may be missing. -/
theorem rel_iff_map {α : Type} {R : α → α → Prop} {f : α → α} (hR : ∀ a b, R a b ↔ b = f a)
    {x y : Option α} : x.Rel R y ↔ y = x.map f := by
  constructor
  · rintro (@⟨a, b, h⟩ | _)
    · exact congrArg some ((hR _ _).mp h)
    · rfl
  · rintro rfl
    cases x with
    | none => exact .none
    | some a => exact .some ((hR _ _).mpr rfl)

/-- A node whose label is looked up; all else of it is kept. -/
structure Node.Resolves (c : Catalog) (n n' : Node) : Prop where
  name : n'.name = n.name
  label : n'.label = n.label
  labelRef : n.labelRef.Resolves c.labelId? n'.labelRef
  incoming : n'.incoming = n.incoming
  outgoing : n'.outgoing = n.outgoing

theorem Node.resolves_iff (c : Catalog) (n n' : Node) : n.Resolves c n' ↔ n' = n.refresh c := by
  constructor
  · rintro ⟨hname, hlabel, href, hincoming, houtgoing⟩
    rw [SchemaRef.resolves_iff] at href
    cases n'
    cases hname
    cases hlabel
    cases href
    cases hincoming
    cases houtgoing
    rfl
  · rintro rfl
    exact ⟨rfl, rfl, SchemaRef.resolves_iff.mpr rfl, rfl, rfl⟩

/-- An edge whose types are looked up one by one; all else of it is kept. -/
structure Edge.Resolves (c : Catalog) (e e' : Edge) : Prop where
  name : e'.name = e.name
  src : e'.src = e.src
  dest : e'.dest = e.dest
  types : e'.types = e.types
  typeRefs : List.Forall₂ (SchemaRef.Resolves c.typeId?) e.typeRefs e'.typeRefs
  bidirectional : e'.bidirectional = e.bidirectional
  hops : e'.hops = e.hops

theorem SchemaRef.resolves_all {I : Type} {lookup : String → Option I}
    {refs refs' : List (SchemaRef I)} :
    List.Forall₂ (Resolves lookup) refs refs' ↔ refs' = refs.map (·.refresh lookup) := by
  have hsame : Resolves lookup = fun r r' => r.refresh lookup = r' := by
    funext r r'
    exact propext (resolves_iff.trans eq_comm)
  rw [hsame, eq_comm, ← List.forall₂_eq_eq_eq]
  exact List.forall₂_map_left_iff.symm

theorem Edge.resolves_iff (c : Catalog) (e e' : Edge) : e.Resolves c e' ↔ e' = e.refresh c := by
  constructor
  · rintro ⟨hname, hsrc, hdest, htypes, hrefs, hbidirectional, hhops⟩
    rw [SchemaRef.resolves_all] at hrefs
    cases e'
    cases hname
    cases hsrc
    cases hdest
    cases htypes
    cases hrefs
    cases hbidirectional
    cases hhops
    rfl
  · rintro rfl
    exact ⟨rfl, rfl, rfl, rfl, SchemaRef.resolves_all.mpr rfl, rfl, rfl⟩

/-! ## Graphs -/

namespace Graph

variable {g h other : Graph} {c early late : Catalog} {count : Nat}

/-- The label references of the nodes, in the order of insertion. -/
def labelRefs (g : Graph) : List (SchemaRef LabelId) := g.nodes.values.map Node.labelRef

/-- The type references of the edges, edge by edge. -/
def typeRefs (g : Graph) : List (SchemaRef TypeId) := g.edges.values.flatMap Edge.typeRefs

/-- The graph after a resolution and the number of references that were turned.  Every handle
    keeps its entity, and a stale one stays stale. -/
structure Resolves (c : Catalog) (g : Graph) (count : Nat) (h : Graph) : Prop where
  node : ∀ x, (g.node? x).Rel (Node.Resolves c) (h.node? x)
  edge : ∀ i, (g.edge? i).Rel (Edge.Resolves c) (h.edge? i)
  nodeSlots : h.nodes.size = g.nodes.size
  edgeSlots : h.edges.size = g.edges.size
  nodeCount : h.nodeCount = g.nodeCount
  edgeCount : h.edgeCount = g.edgeCount
  limits : h.limits = g.limits
  count : count = changes g.labelRefs h.labelRefs + changes g.typeRefs h.typeRefs

theorem labelRefs_refresh (g : Graph) (c : Catalog) :
    (g.refresh c).labelRefs = g.labelRefs.map (·.refresh c.labelId?) := by
  have hvalues : (g.refresh c).nodes.values = g.nodes.values.map (·.refresh c) :=
    Slots.values_map _ _
  rw [labelRefs, labelRefs, hvalues, List.map_map, List.map_map]
  rfl

theorem typeRefs_refresh (g : Graph) (c : Catalog) :
    (g.refresh c).typeRefs = g.typeRefs.map (·.refresh c.typeId?) := by
  have hvalues : (g.refresh c).edges.values = g.edges.values.map (·.refresh c) :=
    Slots.values_map _ _
  rw [typeRefs, typeRefs, hvalues, List.flatMap_map, List.map_flatMap]
  rfl

theorem refreshCount_eq_refs (g : Graph) (c : Catalog) :
    g.refreshCount c = g.labelRefs.countP (·.isRefreshed c.labelId?)
      + g.typeRefs.countP (·.isRefreshed c.typeId?) := by
  rw [labelRefs, typeRefs, List.countP_map]
  rfl

theorem refreshCount_eq_changes (g : Graph) (c : Catalog) :
    g.refreshCount c = changes g.labelRefs (g.refresh c).labelRefs
      + changes g.typeRefs (g.refresh c).typeRefs := by
  rw [labelRefs_refresh, typeRefs_refresh, changes_map, changes_map, refreshCount_eq_refs]
  simp only [SchemaRef.isRefreshed_eq_bne]

theorem resolves_iff : g.Resolves c count h ↔ h = g.refresh c ∧ count = g.refreshCount c := by
  constructor
  · intro res
    -- slot by slot the relation leaves one value, so the tables are those of the refreshed graph
    have hnodes : h.nodes = g.nodes.map (·.refresh c) := by
      refine Slots.ext_get? (res.nodeSlots.trans (Slots.size_map _ _).symm) ?_ res.nodeCount
      intro i
      rw [Slots.get?_map]
      exact (rel_iff_map (Node.resolves_iff c)).mp (res.node ⟨i⟩)
    have hedges : h.edges = g.edges.map (·.refresh c) := by
      refine Slots.ext_get? (res.edgeSlots.trans (Slots.size_map _ _).symm) ?_ res.edgeCount
      intro i
      rw [Slots.get?_map]
      exact (rel_iff_map (Edge.resolves_iff c)).mp (res.edge ⟨i⟩)
    have hgraph : h = g.refresh c := by
      obtain ⟨nodes, edges, limits⟩ := h
      rw [refresh, ← hnodes, ← hedges, ← res.limits]
    refine ⟨hgraph, ?_⟩
    rw [res.count, hgraph, refreshCount_eq_changes]
  · rintro ⟨rfl, rfl⟩
    exact {
      node := fun x => (rel_iff_map (Node.resolves_iff c)).mpr (node?_refresh c x)
      edge := fun i => (rel_iff_map (Edge.resolves_iff c)).mpr (edge?_refresh c i)
      nodeSlots := Slots.size_map _ _
      edgeSlots := Slots.size_map _ _
      nodeCount := rfl
      edgeCount := rfl
      limits := rfl
      count := refreshCount_eq_changes g c }

/-! ## A growing schema -/

theorem refresh_refresh (grown : early.Extends late) (g : Graph) :
    (g.refresh early).refresh late = g.refresh late := by
  have hnode (n : Node) : (n.refresh early).refresh late = n.refresh late := by
    rw [Node.refresh, Node.refresh, SchemaRef.refresh_refresh fun _ _ => grown.labelId?]
    rfl
  have hedge (e : Edge) : (e.refresh early).refresh late = e.refresh late := by
    simp only [Edge.refresh, List.map_map, Edge.mk.injEq, and_true, true_and]
    exact List.map_congr_left fun r _ => SchemaRef.refresh_refresh (fun _ _ => grown.typeId?) r
  exact recast_recast (r := .refresh early) (s := .refresh late) (t := .refresh late) hnode hedge

/-- No name is counted at two looks. -/
theorem refreshCount_add (grown : early.Extends late) (g : Graph) :
    g.refreshCount early + (g.refresh early).refreshCount late = g.refreshCount late := by
  rw [refreshCount_eq_refs, refreshCount_eq_refs, refreshCount_eq_refs, labelRefs_refresh,
    typeRefs_refresh, Nat.add_add_add_comm,
    SchemaRef.countP_isRefreshed fun _ _ => grown.labelId?,
    SchemaRef.countP_isRefreshed fun _ _ => grown.typeId?]

theorem refreshCount_refresh (g : Graph) (c : Catalog) : (g.refresh c).refreshCount c = 0 := by
  have hadd := refreshCount_add (.refl c) g
  omega

/-! ## Merging -/

theorem nameOf?_refresh (g : Graph) (c : Catalog) (x : NodeId) :
    (g.refresh c).nameOf? x = g.nameOf? x := by
  rw [nameOf?, nameOf?, node?_refresh, Option.map_map]
  rfl

theorem missingNodes_refresh (g other : Graph) (c : Catalog) :
    (g.refresh c).missingNodes (other.refresh c) = (g.missingNodes other).map (·.refresh c) := by
  have hvalues : (other.refresh c).nodes.values = other.nodes.values.map (·.refresh c) :=
    Slots.values_map _ _
  rw [missingNodes, missingNodes, hvalues, List.filter_map, funext (hasNode_refresh g c)]
  rfl

theorem missingEdges_refresh (g other : Graph) (c : Catalog) :
    (g.refresh c).missingEdges (other.refresh c) = (g.missingEdges other).map (·.refresh c) := by
  have hvalues : (other.refresh c).edges.values = other.edges.values.map (·.refresh c) :=
    Slots.values_map _ _
  rw [missingEdges, missingEdges, hvalues, List.filter_map, funext (hasEdge_refresh g c)]
  rfl

/-- The budgets count names and types, and not what is known of them. -/
theorem roomForMissing_refresh (g other : Graph) (c : Catalog) :
    (g.refresh c).roomForMissing (other.refresh c) = g.roomForMissing other := by
  have htypes (e : Edge) : (e.refresh c).types = e.types := rfl
  rw [roomForMissing, missingNodes_refresh, missingEdges_refresh, List.length_map, List.length_map,
    List.forM_eq_forM, List.forM_map]
  simp only [htypes]
  rfl

theorem refresh_insertNodes (g : Graph) (nodes : List Node) (c : Catalog) :
    (g.insertNodes (nodes.map Node.isolated)).refresh c
      = (g.refresh c).insertNodes ((nodes.map (·.refresh c)).map Node.isolated) := by
  rw [refresh_eq_recast, recast_insertNodes, List.map_map, List.map_map]
  rfl

theorem refresh_withMissingNodes (g other : Graph) (c : Catalog) :
    (g.withMissingNodes other).refresh c = (g.refresh c).withMissingNodes (other.refresh c) := by
  rw [withMissingNodes, withMissingNodes, missingNodes_refresh, refresh_insertNodes]

theorem nodeLike_refresh (g other : Graph) (c : Catalog) (x : NodeId) :
    (g.refresh c).nodeLike (other.refresh c) x = g.nodeLike other x := by
  rw [nodeLike, nodeLike, nameOf?_refresh, funext (nodeNamed?_refresh g c)]
  exact congrArg _ (congrArg _ (Slots.size_map _ _))

theorem refresh_transplant (g other : Graph) (c : Catalog) (e : Edge) :
    (g.transplant other e).refresh c
      = (g.refresh c).transplant (other.refresh c) (e.refresh c) := by
  simp only [transplant, nodeLike_refresh]
  rfl

theorem refresh_insertEdges (g other : Graph) (edges : List Edge) (c : Catalog) :
    (g.insertEdges (edges.map (g.transplant other))).refresh c
      = (g.refresh c).insertEdges
        ((edges.map (·.refresh c)).map ((g.refresh c).transplant (other.refresh c))) := by
  rw [refresh_eq_recast, recast_insertEdges, List.map_map, List.map_map]
  exact congrArg _ (List.map_congr_left fun e _ => refresh_transplant _ other c e)

/-- What is copied is refreshed like what was there, since the first of two writers is the same
    before and after. -/
theorem refresh_absorb (g other : Graph) (c : Catalog) :
    (g.absorb other).refresh c = (g.refresh c).absorb (other.refresh c) := by
  rw [absorb, absorb, missingEdges_refresh, ← refresh_withMissingNodes, refresh_insertEdges]

end Graph

/-- Merging refreshed graphs is merging first and refreshing what is left behind, also where a merge
    runs out of slots. -/
theorem Edit.merge_refresh {other : Graph} (wf' : other.WellFormed) (g : Graph) (c : Catalog) :
    merge (other.refresh c) (g.refresh c) = onGraph (·.refresh c) (merge other g) := by
  have hsame := g.roomForMissing_refresh other c
  cases hroom : g.roomForMissing other with
  | error e =>
      rw [merge_refused hroom, merge_refused (hsame.trans hroom)]
      rfl
  | ok u =>
      -- as many nodes and edges are missing, and as many slots are left
      rw [merge_of_room wf' hroom, merge_of_room (wf'.refresh c) (hsame.trans hroom),
        Graph.missingNodes_refresh, Graph.missingEdges_refresh, List.length_map, List.length_map,
        Graph.size_nodes_refresh, Graph.size_edges_refresh, ← List.map_take, ← List.map_take,
        ← Graph.refresh_absorb, ← Graph.refresh_withMissingNodes]
      simp only [← Graph.refresh_insertNodes, ← Graph.refresh_insertEdges, noNodeSlot_refresh,
        noEdgeSlot_refresh]
      split
      · split <;> rfl
      · rfl

/-- Resolving turns exactly the names that wait and that the catalog knows and counts them, so that
    a second look finds none; two looks into a growing schema are one into the grown schema, and
    resolving may go before or after a merge. -/
theorem Graph.resolve_exact (g : Graph) (c : Catalog) :
    (∀ count h, Edit.resolve c g = .ok count h ↔ g.Resolves c count h) ∧
      (∃ count h, Edit.resolve c g = .ok count h ∧ Edit.resolve c h = .ok 0 h) ∧
      (∀ late : Catalog, c.Extends late → ∃ first second h k,
        Edit.resolve c g = .ok first h ∧ Edit.resolve late h = .ok second k ∧
          Edit.resolve late g = .ok (first + second) k) ∧
      ∀ other, Reachable other →
        (Edit.merge other).outcome g
            = (Edit.merge ((Command.resolve c).run other)).outcome ((Command.resolve c).run g) ∧
          Command.runAll [.merge other, .resolve c] g
            = Command.runAll [.resolve c, .merge ((Command.resolve c).run other)] g := by
  have hrun (c : Catalog) (g : Graph) :
      Edit.resolve c g = .ok (g.refreshCount c) (g.refresh c) := rfl
  refine ⟨?exact, ?again, ?growing, ?merging⟩
  case exact =>
    intro count h
    rw [hrun, Graph.resolves_iff]
    constructor
    · rintro ⟨⟩
      exact ⟨rfl, rfl⟩
    · rintro ⟨rfl, rfl⟩
      rfl
  case again =>
    refine ⟨_, _, hrun c g, ?_⟩
    rw [hrun, refreshCount_refresh, refresh_refresh (.refl c)]
  case growing =>
    intro late grown
    refine ⟨_, _, _, _, hrun c g, hrun late _, ?_⟩
    rw [hrun, refreshCount_add grown, refresh_refresh grown]
  case merging =>
    intro other reach
    -- a merge that is refused leaves the graph, and resolving it then is resolving it before
    have hmerge : Edit.merge ((Command.resolve c).run other) ((Command.resolve c).run g) = _ :=
      Edit.merge_refresh reach.wellFormed g c
    refine ⟨?_, ?_⟩
    · rw [Edit.outcome, Edit.outcome, hmerge]
      cases Edit.merge other g <;> rfl
    · show ((discard (Edit.merge other)).after g).refresh c
        = (discard (Edit.merge ((Command.resolve c).run other))).after ((Command.resolve c).run g)
      rw [Edit.after, Edit.after, Edit.discard_apply, Edit.discard_apply, hmerge]
      cases Edit.merge other g <;> rfl

/-- A graph whose references wait for one catalog, for the next or for none, or do not wait at all,
    with another one that shares a name with it and describes it otherwise. -/
theorem Graph.resolve_exact_of_growth :
    let table := SchemaTable.addLabel {} "Person" ⟨1⟩ |>.addType "IN" ⟨2⟩
    let grown := (table.addLabel "City" ⟨3⟩).addType "TO" ⟨4⟩
    let g := Command.runAll
      [.addNode "a", .setLabel .empty ⟨0⟩ "Person", .addNode "b", .setLabel .empty ⟨1⟩ "City",
        .addNode "c", .setLabel .empty ⟨2⟩ "Place", .addNode "d",
        .addEdge ⟨"r", ⟨0⟩, ⟨1⟩, ["IN", "TO", "AT"],
          [.unresolved "IN", .unresolved "TO", .resolved ⟨9⟩], false, .single⟩] (.empty .standard)
    let other := Command.runAll
      [.addNode "b", .setLabel .empty ⟨0⟩ "Person", .addNode "e", .setLabel .empty ⟨1⟩ "City",
        .addEdge ⟨"s", ⟨0⟩, ⟨1⟩, ["IN"], [.unresolved "IN"], false, .single⟩]
      (.empty .standard)
    Reachable other ∧ table.catalog.Extends grown.catalog ∧
      g.refreshCount table.catalog = 2 ∧ g.refreshCount grown.catalog = 4 ∧
      (∃ first second h k, Edit.resolve table.catalog g = .ok first h ∧
        Edit.resolve grown.catalog h = .ok second k ∧
          Edit.resolve grown.catalog g = .ok (first + second) k) ∧
      (Edit.merge other).outcome g = .ok ⟨1, 1⟩ ∧
      Command.runAll [.merge other, .resolve table.catalog] g
        = Command.runAll [.resolve table.catalog,
            .merge ((Command.resolve table.catalog).run other)] g := by
  intro table grown g other
  have hreach : Reachable other := (Reachable.empty _).runAll (by simp [Command.operand?])
    (by simp [Command.edge?, Edge.made_iff])
  have hgrown : table.catalog.Extends grown.catalog :=
    (SchemaTable.extends_addLabel ⟨3⟩ (by decide +kernel)).trans
      (SchemaTable.extends_addType ⟨4⟩ (by decide +kernel))
  obtain ⟨-, -, hgrowing, hmerging⟩ := Graph.resolve_exact g table.catalog
  exact ⟨hreach, hgrown, by decide +kernel, by decide +kernel, hgrowing _ hgrown,
    by decide +kernel, (hmerging other hreach).2⟩

end PatternGraph
