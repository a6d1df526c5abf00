/-
  PatternGraph.Proofs.Incremental

  Adding paths to a graph is merging the graph of the paths into it, when they
  bring it no relationship that it has and no label that it lacks.

  What is shown of one walk is that it may be taken into the other graph before
  the merge or into the merged graph after it.  Both ways say the same, and the
  merged graph is tidy, so both ways make one graph.  Both are accepted
  together: the other graph has no more nodes and edges than the merged one, so
  a budget that refuses the walk there refuses it here as well.
-/
import PatternGraph.Proofs.Joining
import PatternGraph.Proofs.Reassembly
import PatternGraph.Proofs.Seeds
import PatternGraph.Proofs.Tidy

namespace PatternGraph

namespace Graph

variable {a b g h : Graph} {c : Catalog} {w : Walk}

/-! ## Room for what a walk makes -/

/-- The graph has no more nodes and edges than its budgets allow, and no more slots than there can
    be. -/
structure Fits (g : Graph) : Prop where
  nodes : g.nodeCount ≤ g.limits.maxNodes
  edges : g.edgeCount ≤ g.limits.maxEdges
  slots : g.HasSlots 0 0

/-- The walk is accepted and there are slots for what it makes. -/
structure Takes (g : Graph) (c : Catalog) (w : Walk) : Prop where
  accepted : g.accept w = .ok ()
  slots : (g.extend c w).HasSlots 0 0

/-- A tidy graph has no vacated slots. -/
theorem Tidy.sizes (tidy : g.Tidy) (wf : g.WellFormed) :
    g.nodes.size = g.nodeCount ∧ g.edges.size = g.edgeCount := by
  have hnodes := size_nodes_graft (.empty g.limits) g.nodeContents g.edgeContents
  have hedges := size_edges_graft (.empty g.limits) g.nodeContents g.edgeContents
  rw [Tidy] at tidy
  rw [tidy, wf.length_nodeContents] at hnodes
  rw [tidy, wf.length_edgeContents] at hedges
  exact ⟨hnodes.trans (Nat.zero_add _), hedges.trans (Nat.zero_add _)⟩

/-- A tidy graph fits where one does that has all of its names. -/
theorem Fits.of_names (fits : h.Fits) (tidy : g.Tidy) (wf : g.WellFormed) (wf' : h.WellFormed)
    (hlimits : g.limits = h.limits) (hnodes : ∀ a, g.hasNode a = true → h.hasNode a = true)
    (hedges : ∀ a, g.hasEdge a = true → h.hasEdge a = true) : g.Fits where
  nodes := hlimits ▸ Nat.le_trans (wf.nodeCount_le wf' hnodes) fits.nodes
  edges := hlimits ▸ Nat.le_trans (wf.edgeCount_le wf' hedges) fits.edges
  slots := by
    have hnodes' : h.nodeCount ≤ h.nodes.size := wf'.nodes_counted.live_le_size
    have hedges' : h.edgeCount ≤ h.edges.size := wf'.edges_counted.live_le_size
    obtain ⟨hsize, hsize'⟩ := tidy.sizes wf
    refine ⟨?_, ?_⟩
    · rw [hsize]
      exact Nat.le_trans (Nat.le_trans (wf.nodeCount_le wf' hnodes) hnodes') fits.slots.nodes
    · rw [hsize']
      exact Nat.le_trans (Nat.le_trans (wf.edgeCount_le wf' hedges) hedges') fits.slots.edges

/-- A walk is taken when its relationships are accepted, and when what it makes fits. -/
theorem WellFormed.takes_iff_fits (wf : g.WellFormed) (c : Catalog) :
    g.Takes c w ↔
      (∀ e ∈ w.edges, g.Admits e) ∧ (w.edges.map PathEdge.name).Nodup ∧ (g.extend c w).Fits := by
  have haccept : g.accept w = .ok () ↔ (∀ e ∈ w.edges, g.Admits e) ∧
      (w.edges.map PathEdge.name).Nodup ∧
      (g.extend c w).nodeCount ≤ (g.extend c w).limits.maxNodes ∧
      (g.extend c w).edgeCount ≤ (g.extend c w).limits.maxEdges := by
    rw [accept_eq_ok]
    refine and_congr_right fun hadmits => and_congr_right fun hnodup => ?_
    have hfree : ∀ e ∈ w.edges, g.hasEdge e.name = false := fun e he => (hadmits e he).1
    rw [wf.nodeCount_extend hfree hnodup, wf.edgeCount_extend hfree hnodup, limits_extend]
  constructor
  · rintro ⟨haccepted, hslots⟩
    obtain ⟨hadmits, hnodup, hnodes, hedges⟩ := haccept.mp haccepted
    exact ⟨hadmits, hnodup, hnodes, hedges, hslots⟩
  · rintro ⟨hadmits, hnodup, hnodes, hedges, hslots⟩
    exact ⟨haccept.mpr ⟨hadmits, hnodup, hnodes, hedges⟩, hslots⟩

/-- There is room for what another graph under the same budgets says if the merged graph fits. -/
theorem WithinBudget.hasRoom_iff_fits (within : b.WithinBudget) (hlimits : b.limits = a.limits) :
    a.HasRoom (a.lackingNodes b.nodeContents) (a.lackingEdges b.edgeContents) ↔
      (a.absorb b).Fits := by
  -- the budget for types was kept when the edges were made
  have htypes : ∀ d ∈ a.lackingEdges b.edgeContents, d.types.length ≤ a.limits.maxTypesPerEdge := by
    intro d hd
    obtain ⟨e, he, rfl⟩ := List.mem_map.mp (List.mem_filter.mp hd).1
    exact hlimits ▸ within.length_types he
  have hslots : (a.absorb b).HasSlots 0 0 ↔ a.HasSlots (a.lackingNodes b.nodeContents).length
      (a.lackingEdges b.edgeContents).length := by
    rw [absorb_eq_graft]
    exact hasSlots_iff (size_nodes_graft _ _ _) (size_edges_graft _ _ _)
  refine ⟨?_, ?_⟩
  · rintro ⟨hnodes, hedges, -, hroom⟩
    exact ⟨by rwa [nodeCount_absorb, limits_absorb], by rwa [edgeCount_absorb, limits_absorb],
      hslots.mpr hroom⟩
  · rintro ⟨hnodes, hedges, hroom⟩
    rw [nodeCount_absorb, limits_absorb] at hnodes
    rw [edgeCount_absorb, limits_absorb] at hedges
    exact ⟨hnodes, hedges, htypes, hslots.mp hroom⟩

/-- The other graph fits where it does with this one, since it has no name that the merged graph
    does not have. -/
theorem Fits.of_absorb (fits : (a.absorb b).Fits) (tidy : b.Tidy) (wf : a.WellFormed)
    (wf' : b.WellFormed) (hlimits : b.limits = a.limits) : b.Fits := by
  refine fits.of_names tidy wf' (wf.absorb wf') ?_ (fun x hx => ?_) (fun x hx => ?_)
  · rw [limits_absorb, hlimits]
  · rw [hasNode_absorb, hx, Bool.or_true]
  · rw [wf.hasEdge_absorb wf', hx, Bool.or_true]

/-! ## One walk -/

/-- The walk tells the graph nothing new of what it has: no relationship bears the name of an
    edge, and no node brings a label for one that has none. -/
structure SparedBy (g : Graph) (w : Walk) : Prop where
  edges : ∀ e ∈ w.edges, g.hasEdge e.name = false
  labels : ∀ n ∈ w.nodes, n.label.isSome → ∀ d ∈ g.nodeContents, d.name = n.name → d.label.isSome

theorem SparedBy.lackingEdges_links (spared : g.SparedBy w) (c : Catalog) :
    g.lackingEdges (w.links.map (linkContent c)) = w.links.map (linkContent c) := by
  refine lackingEdges_eq_self fun d hd hmem => ?_
  obtain ⟨link, hlink, rfl⟩ := List.mem_map.mp hd
  have hedge : link.2.1 ∈ w.edges := map_links w ▸ List.mem_map_of_mem hlink
  exact Bool.eq_false_iff.mp (spared.edges _ hedge) (hasEdge_iff_mem_edgeNames.mpr hmem)

/-- A walk that spares a graph may be taken into another one before it is merged in, or into the
    merged graph after it. -/
theorem SparedBy.extend_absorb (spared : a.SparedBy w) (tidy : a.Tidy) (wf : a.WellFormed)
    (wf' : b.WellFormed) (hfree : ∀ e ∈ w.edges, b.hasEdge e.name = false)
    (hnodup : (w.edges.map PathEdge.name).Nodup) :
    (a.absorb b).extend c w = a.absorb (b.extend c w) := by
  have wfMerged := wf.absorb wf'
  have wfLonger : (b.extend c w).WellFormed := wf'.extend hfree hnodup
  have hfreeMerged : ∀ e ∈ w.edges, (a.absorb b).hasEdge e.name = false := by
    intro e he
    rw [wf.hasEdge_absorb wf', spared.edges e he, hfree e he]
    rfl
  have tidyMerged := (tidy.absorb wf wf').extend (c := c) wfMerged hfreeMerged hnodup
  -- both graphs are tidy, so it is enough that they say the same
  refine tidyMerged.ext (tidy.absorb wf wfLonger) ?hnodes ?hedges ?hlimits
  case hnodes =>
    have hhas : ∀ x, a.hasNode x = true ↔ x ∈ a.nodeContents.map NodeContent.name :=
      fun _ => hasNode_iff_mem_nodeNames
    rw [wfMerged.nodeContents_extend hfreeMerged hnodup, nodeContents_absorb, nodeContents_absorb,
      wf'.nodeContents_extend hfree hnodup]
    exact foldl_joinContents_append_filter hhas spared.labels
  case hedges =>
    -- all edges of the walk are lacking, since they are new to the graph
    have hlinks := spared.lackingEdges_links c
    rw [wfMerged.edgeContents_extend hfreeMerged hnodup, wf.edgeContents_absorb wf',
      wf.edgeContents_absorb wfLonger, wf'.edgeContents_extend hfree hnodup, List.append_assoc,
      lackingEdges, lackingEdges, List.filter_append]
    exact congrArg (a.edgeContents ++ ·) (congrArg (_ ++ ·) hlinks.symm)
  case hlimits => rw [limits_extend, limits_absorb, limits_absorb]

/-- The merged graph takes such a walk when the other graph does and the merge of what it makes
    fits. -/
theorem SparedBy.takes_absorb (spared : a.SparedBy w) (tidy : a.Tidy) (tidy' : b.Tidy)
    (wf : a.WellFormed) (wf' : b.WellFormed) (hlimits : b.limits = a.limits) :
    (a.absorb b).Takes c w ↔ b.Takes c w ∧ (a.absorb (b.extend c w)).Fits := by
  have hadmits : (∀ e ∈ w.edges, (a.absorb b).Admits e) ↔ ∀ e ∈ w.edges, b.Admits e := by
    refine forall₂_congr fun e he => ?_
    rw [Admits, Admits, wf.hasEdge_absorb wf', spared.edges e he, limits_absorb, hlimits,
      Bool.false_or]
  rw [(wf.absorb wf').takes_iff_fits c, wf'.takes_iff_fits c, hadmits, and_assoc, and_assoc]
  refine and_congr_right fun hb => and_congr_right fun hnodup => ?_
  have hfree : ∀ e ∈ w.edges, b.hasEdge e.name = false := fun e he => (hb e he).1
  have wfLonger : (b.extend c w).WellFormed := wf'.extend hfree hnodup
  rw [spared.extend_absorb tidy wf wf' hfree hnodup]
  -- what fits together with the other graph fits on its own
  refine (and_iff_right_of_imp fun fits => ?_).symm
  exact fits.of_absorb (tidy'.extend wf' hfree hnodup) wf wfLonger
    ((limits_extend c b w).trans hlimits)

end Graph

/-! ## Paths with names -/

namespace Path

variable {p : Path} {w : Walk}

/-- No name on the path is anonymous. -/
def Named (p : Path) : Prop := ∀ a ∈ p.names, isAnonymous a = false

instance (p : Path) : Decidable p.Named :=
  inferInstanceAs (Decidable (∀ a ∈ p.names, isAnonymous a = false))

/-- Only anonymous names are replaced. -/
theorem Named.renamed (named : p.Named) (hw : p.walk? = .ok w) (g : Graph) : g.renamed w = w := by
  have hkept : ∀ a ∈ w.names, (g.renamingFor w).apply a = id a := by
    intro a ha
    have hplain := named a ((names_perm hw).mem_iff.mpr ha)
    exact Graph.renamingFor_of_kept (by rw [Graph.clashes, hplain, Bool.false_and])
  rw [Graph.renamed, Walk.rename_congr hkept]
  simp [Walk.rename]

end Path

namespace Edit

open PatternGraph.Graph

variable {c : Catalog} {p : Path} {ps qs rest : List Path} {a b g h : Graph}

/-- A walk with names is added, when it is written out, if it is taken as it is. -/
theorem addPath_path_eq_ok {w : Walk} (hslots : g.HasSlots 0 0) (named : w.path.Named) :
    addPath c w.path g = .ok () h ↔ g.Takes c w ∧ h = g.extend c w := by
  have hwalk := Path.walk?_path w
  rw [addPath_eq_ok hslots]
  constructor
  · rintro ⟨w', hw', haccepted, hroom, rfl⟩
    rw [hwalk, Except.ok.injEq] at hw'
    rw [← hw', named.renamed hwalk] at haccepted hroom ⊢
    exact ⟨⟨haccepted, hasSlots_extend.mpr hroom⟩, rfl⟩
  · rintro ⟨⟨haccepted, hroom⟩, rfl⟩
    refine ⟨w, hwalk, ?_, ?_, ?_⟩ <;> rw [named.renamed hwalk]
    · exact haccepted
    · exact hasSlots_extend.mp hroom

/-- Paths are added when the first is and the others are added to what it makes. -/
theorem addPaths_cons_iff :
    addPaths c (p :: rest) g = .ok () h ↔
      ∃ k, addPath c p g = .ok () k ∧ addPaths c rest k = .ok () h := by
  rw [addPaths, bind_eq_ok_iff]
  constructor
  · rintro ⟨_, k, hrun⟩
    exact ⟨k, hrun⟩
  · rintro ⟨k, hrun⟩
    exact ⟨(), k, hrun⟩

/-- Where paths with names are added, the first is accepted as it is and the others are added to
    what it makes. -/
theorem addPaths_cons_of_ok (named : p.Named) (run : addPaths c (p :: rest) g = .ok () h) :
    ∃ w, p.walk? = .ok w ∧ g.accept w = .ok () ∧ addPaths c rest (g.extend c w) = .ok () h := by
  obtain ⟨k, hp, hrest⟩ := addPaths_cons_iff.mp run
  obtain ⟨w, hw, hacc, rfl⟩ := addPath_eq_extend hp
  rw [named.renamed hw] at hacc hrest
  exact ⟨w, hw, hacc, hrest⟩

/-- Paths with names are added when the first is taken as it is and the others are added to what it
    makes. -/
theorem addPaths_cons_eq_ok (hslots : g.HasSlots 0 0) (named : p.Named) :
    addPaths c (p :: rest) g = .ok () h ↔
      ∃ w, p.walk? = .ok w ∧ g.Takes c w ∧ addPaths c rest (g.extend c w) = .ok () h := by
  rw [addPaths_cons_iff]
  constructor
  · rintro ⟨k, hp, hrest⟩
    obtain ⟨w, hw, -, -⟩ := addPath_eq_extend hp
    obtain rfl := Path.eq_path_of_walk? hw
    obtain ⟨takes, rfl⟩ := (addPath_path_eq_ok hslots named).mp hp
    exact ⟨w, hw, takes, hrest⟩
  · rintro ⟨w, hw, takes, hrest⟩
    obtain rfl := Path.eq_path_of_walk? hw
    exact ⟨_, (addPath_path_eq_ok hslots named).mpr ⟨takes, rfl⟩, hrest⟩

/-- Two lists of paths are added when the first is and the second is added to what that makes. -/
theorem addPaths_append_eq_ok :
    addPaths c (ps ++ qs) g = .ok () h ↔
      ∃ k, addPaths c ps g = .ok () k ∧ addPaths c qs k = .ok () h := by
  induction ps generalizing g with
  | nil =>
      refine ⟨fun hqs => ⟨g, rfl, hqs⟩, ?_⟩
      rintro ⟨k, hk, hqs⟩
      cases hk
      exact hqs
  | cons p rest ih =>
      simp only [List.cons_append, addPaths_cons_iff, ih]
      exact ⟨fun ⟨j, hp, k, hrest, hqs⟩ => ⟨k, ⟨j, hp, hrest⟩, hqs⟩,
        fun ⟨k, ⟨j, hp, hrest⟩, hqs⟩ => ⟨j, hp, k, hrest, hqs⟩⟩

/-- The names of nodes are the old ones and those that the paths write. -/
theorem hasNode_addPaths (named : ∀ p ∈ ps, p.Named) (run : addPaths c ps g = .ok () h)
    {x : String} :
    h.hasNode x = true ↔
      g.hasNode x = true ∨ x ∈ (ps.flatMap Path.nodes).map PathNode.name := by
  induction ps generalizing g with
  | nil =>
      cases run
      simp
  | cons p rest ih =>
      obtain ⟨hp, hrest⟩ := List.forall_mem_cons.mp named
      obtain ⟨w, hw, -, hrun⟩ := addPaths_cons_of_ok hp run
      rw [ih hrest hrun, hasNode_extend, List.flatMap_cons, List.map_append, List.mem_append,
        Path.eq_path_of_walk? hw, Walk.nodes_path, or_assoc]

/-- The names of edges are the old ones and those that the paths write. -/
theorem hasEdge_addPaths (named : ∀ p ∈ ps, p.Named) (wf : g.WellFormed)
    (run : addPaths c ps g = .ok () h) {x : String} :
    h.hasEdge x = true ↔
      g.hasEdge x = true ∨ x ∈ (ps.flatMap Path.edges).map PathEdge.name := by
  induction ps generalizing g with
  | nil =>
      cases run
      simp
  | cons p rest ih =>
      obtain ⟨hp, hrest⟩ := List.forall_mem_cons.mp named
      obtain ⟨w, hw, hacc, hrun⟩ := addPaths_cons_of_ok hp run
      obtain ⟨hfree, hnodup⟩ := fresh_of_accept hacc
      rw [ih hrest (wf.extend hfree hnodup) hrun, wf.hasEdge_extend hfree hnodup,
        List.flatMap_cons, List.map_append, List.mem_append, Path.eq_path_of_walk? hw,
        Walk.edges_path, or_assoc]

/-- What has a label keeps it, and what is written with a label has one. -/
theorem labelled_addPaths (named : ∀ p ∈ ps, p.Named) (wf : g.WellFormed)
    (run : addPaths c ps g = .ok () h) {x : String}
    (hx : Labelled g.nodeContents x ∨
      ∃ n ∈ ps.flatMap Path.nodes, n.name = x ∧ n.label.isSome) :
    Labelled h.nodeContents x := by
  induction ps generalizing g with
  | nil =>
      cases run
      simpa using hx
  | cons p rest ih =>
      obtain ⟨hp, hrest⟩ := List.forall_mem_cons.mp named
      obtain ⟨w, hw, hacc, hrun⟩ := addPaths_cons_of_ok hp run
      obtain ⟨hfree, hnodup⟩ := fresh_of_accept hacc
      have hwalk : p.nodes = w.nodes := by rw [Path.eq_path_of_walk? hw, Walk.nodes_path]
      -- what the first path gives a label has it in the graph that the others are added to
      refine ih hrest (wf.extend hfree hnodup) hrun ?_
      rw [wf.nodeContents_extend hfree hnodup]
      rcases hx with hold | ⟨n, hn, hname⟩
      · exact .inl (labelled_foldl_joinContents (.inl hold))
      · rw [List.flatMap_cons, List.mem_append, hwalk] at hn
        rcases hn with hfirst | hlater
        · exact .inl (labelled_foldl_joinContents (.inr ⟨n, hfirst, hname⟩))
        · exact .inr ⟨n, hlater, hname⟩

/-- What is added to a well-formed graph leaves one. -/
theorem wellFormed_addPaths (wf : g.WellFormed) (run : addPaths c ps g = .ok () h) : h.WellFormed :=
  addPaths_induction (fun wf hrun => (addPath_effect hrun).wellFormed wf nofun) wf run

/-- No name is lost, so what fits in the end did fit before. -/
theorem fits_of_addPaths (fits : (a.absorb h).Fits) (tidy : a.Tidy) (wf : a.WellFormed)
    (wf' : b.WellFormed) (named : ∀ p ∈ ps, p.Named) (run : addPaths c ps b = .ok () h) :
    (a.absorb b).Fits := by
  have wfLater : h.WellFormed := wellFormed_addPaths wf' run
  refine fits.of_names (tidy.absorb wf wf') (wf.absorb wf') (wf.absorb wfLater) ?_ (fun x hx => ?_)
    fun x hx => ?_
  · rw [limits_absorb, limits_absorb]
  · rw [hasNode_absorb, Bool.or_eq_true] at hx ⊢
    exact hx.imp_right fun hx => (hasNode_addPaths named run).mpr (.inl hx)
  · rw [wf.hasEdge_absorb wf', Bool.or_eq_true] at hx
    rw [wf.hasEdge_absorb wfLater, Bool.or_eq_true]
    exact hx.imp_right fun hx => (hasEdge_addPaths named wf' run).mpr (.inl hx)

/-- Paths that spare a graph may be added to another one before it is merged in, or to the merged
    graph after it: both succeed or neither does, and both ways make one graph. -/
theorem addPaths_absorb_eq_ok (tidy : a.Tidy) (tidy' : b.Tidy) (wf : a.WellFormed)
    (wf' : b.WellFormed) (hlimits : b.limits = a.limits) (fits : (a.absorb b).Fits)
    (named : ∀ p ∈ ps, p.Named) (spared : ∀ p ∈ ps, ∀ w, p.walk? = .ok w → a.SparedBy w) :
    addPaths c ps (a.absorb b) = .ok () g ↔
      ∃ h, addPaths c ps b = .ok () h ∧ (a.absorb h).Fits ∧ g = a.absorb h := by
  induction ps generalizing b with
  | nil =>
      refine ⟨fun hrun => ?_, ?_⟩
      · cases hrun
        exact ⟨b, rfl, fits, rfl⟩
      · rintro ⟨_, ⟨⟩, -, rfl⟩
        rfl
  | cons p rest ih =>
      obtain ⟨hp, hrest⟩ := List.forall_mem_cons.mp named
      obtain ⟨hspared, hsparedRest⟩ := List.forall_mem_cons.mp spared
      have hslots := (fits.of_absorb tidy' wf wf' hlimits).slots
      -- the walk is taken by both or by none, and leaves the graphs in the same relation
      have hstep : ∀ w, p.walk? = .ok w → b.accept w = .ok () → (a.absorb (b.extend c w)).Fits →
          (addPaths c rest ((a.absorb b).extend c w) = .ok () g ↔
            ∃ h, addPaths c rest (b.extend c w) = .ok () h ∧ (a.absorb h).Fits ∧
              g = a.absorb h) := by
        intro w hw hacc hfits
        obtain ⟨hfree, hnodup⟩ := fresh_of_accept hacc
        rw [(hspared w hw).extend_absorb tidy wf wf' hfree hnodup]
        exact ih (tidy'.extend wf' hfree hnodup) (wf'.extend hfree hnodup)
          ((limits_extend c b w).trans hlimits) hfits hrest hsparedRest
      have htakes := fun w hw => (hspared w hw).takes_absorb (c := c) tidy tidy' wf wf' hlimits
      rw [addPaths_cons_eq_ok fits.slots hp]
      refine ⟨?_, ?_⟩
      · rintro ⟨w, hw, hmerged, hrun⟩
        obtain ⟨takes, hfits⟩ := (htakes w hw).mp hmerged
        obtain ⟨h, hlater, hfitsAll, heq⟩ := (hstep w hw takes.accepted hfits).mp hrun
        exact ⟨h, (addPaths_cons_eq_ok hslots hp).mpr ⟨w, hw, takes, hlater⟩, hfitsAll, heq⟩
      · rintro ⟨h, hrun, hfitsAll, heq⟩
        obtain ⟨w, hw, takes, hlater⟩ := (addPaths_cons_eq_ok hslots hp).mp hrun
        obtain ⟨hfree, hnodup⟩ := fresh_of_accept takes.accepted
        have hfits := fits_of_addPaths hfitsAll tidy wf (wf'.extend hfree hnodup) hrest hlater
        exact ⟨w, hw, (htakes w hw).mpr ⟨takes, hfits⟩,
          (hstep w hw takes.accepted hfits).mpr ⟨h, hlater, hfitsAll, heq⟩⟩

end Edit

/-! ## Statements -/

namespace Graph

variable {a b g : Graph} {c : Catalog} {limits : Limits} {ps qs : List Path}

/-- The graph of a statement is tidy. -/
theorem Tidy.ofPaths (made : Graph.ofPaths c limits ps = .ok g) : g.Tidy := by
  have hkept : g.WellFormed ∧ g.Tidy := by
    refine Edit.addPaths_induction (P := fun g => g.WellFormed ∧ g.Tidy) ?_
      ⟨.empty limits, .empty limits⟩ (addPaths_of_ofPaths made)
    rintro p g h ⟨wf, tidy⟩ hrun
    obtain ⟨w, -, accepted, rfl⟩ := Edit.addPath_eq_extend hrun
    obtain ⟨hfree, hnodup⟩ := fresh_of_accept accepted
    exact ⟨wf.extend hfree hnodup, tidy.extend wf hfree hnodup⟩
  exact hkept.2

theorem limits_ofPaths (made : Graph.ofPaths c limits ps = .ok g) : g.limits = limits :=
  Edit.addPaths_induction (P := fun g => g.limits = limits)
    (fun hg hrun => (Edit.addPath_effect hrun).limits_eq.trans hg) rfl (addPaths_of_ofPaths made)

/-- Paths spare the graph of others when no relationship is written in both, and when each node
    that is written in both and has a label here has one there. -/
theorem sparedBy_of_ofPaths (made : Graph.ofPaths c limits ps = .ok a)
    (named : ∀ p ∈ ps, p.Named)
    (relationships : ∀ e ∈ ps.flatMap Path.edges, ∀ f ∈ qs.flatMap Path.edges, e.name ≠ f.name)
    (labels : ∀ m ∈ ps.flatMap Path.nodes, ∀ n ∈ qs.flatMap Path.nodes, m.name = n.name →
      n.label.isSome → ∃ k ∈ ps.flatMap Path.nodes, k.name = n.name ∧ k.label.isSome) :
    ∀ q ∈ qs, ∀ w, q.walk? = .ok w → a.SparedBy w := by
  have hrun := addPaths_of_ofPaths made
  have wf := (Sound.ofPaths made).toWellFormed
  intro q hq w hw
  have hwalk := Path.eq_path_of_walk? hw
  refine ⟨fun f hf => ?_, fun n hn hlabel d hd hname => ?_⟩
  · have hfq : f ∈ qs.flatMap Path.edges :=
      List.mem_flatMap.mpr ⟨q, hq, by rwa [hwalk, Walk.edges_path]⟩
    rw [Bool.eq_false_iff, ne_eq, Edit.hasEdge_addPaths named (.empty limits) hrun]
    rintro (hempty | hmem)
    · exact List.not_mem_nil (hasEdge_iff_mem_edgeNames.mp hempty)
    · obtain ⟨e, he, hname⟩ := List.mem_map.mp hmem
      exact relationships e he f hfq hname
  · have hnq : n ∈ qs.flatMap Path.nodes :=
      List.mem_flatMap.mpr ⟨q, hq, by rwa [hwalk, Walk.nodes_path]⟩
    have hbound : a.hasNode n.name = true :=
      hasNode_iff_mem_nodeNames.mpr (hname ▸ List.mem_map_of_mem hd)
    -- the node was written, so by now it has a label, and no other node bears its name
    rcases (Edit.hasNode_addPaths named hrun).mp hbound with hempty | hmem
    · exact absurd (hasNode_iff_mem_nodeNames.mp hempty) List.not_mem_nil
    · obtain ⟨m, hm, hsame⟩ := List.mem_map.mp hmem
      obtain ⟨d', hd', hname', hlabel'⟩ :=
        Edit.labelled_addPaths named (.empty limits) hrun (.inr (labels m hm n hnq hsame hlabel))
      have heq := List.inj_on_of_nodup_map wf.nodeNames_nodup hd hd' (hname.trans hname'.symm)
      exact heq ▸ hlabel'

/-- Adding paths to the graph of others that they spare is merging their graph into it. -/
theorem addPaths_iff_merge (made : Graph.ofPaths c limits ps = .ok a) (named : ∀ q ∈ qs, q.Named)
    (spared : ∀ q ∈ qs, ∀ w, q.walk? = .ok w → a.SparedBy w) :
    Edit.addPaths c qs a = .ok () g ↔
      ∃ b t, Graph.ofPaths c limits qs = .ok b ∧ Edit.merge b a = .ok t g := by
  have sound := Sound.ofPaths made
  have wf := sound.toWellFormed
  have hlimits := limits_ofPaths made
  have hempty : a.absorb (.empty limits) = a := absorb_eq_graft a (.empty limits)
  have within := (Reachable.ofPaths made).withinBudget
  have fits : (a.absorb (.empty limits)).Fits :=
    hempty.symm ▸ ⟨within.nodes, within.edges, sound.slots⟩
  -- the other graph starts empty, and merging nothing leaves the graph as it is
  have hruns := Edit.addPaths_absorb_eq_ok (c := c) (g := g) (Tidy.ofPaths made) (.empty limits) wf
    (.empty limits) hlimits.symm fits named spared
  rw [hempty] at hruns
  rw [hruns]
  refine exists_congr fun b => ?_
  rw [← ofPaths_eq_ok]
  refine Iff.trans (and_congr_right fun madeLater => ?_) exists_and_left.symm
  have wf' := (Sound.ofPaths madeLater).toWellFormed
  have within' := (Reachable.ofPaths madeLater).withinBudget
  rw [← within'.hasRoom_iff_fits ((limits_ofPaths madeLater).trans hlimits.symm)]
  refine ⟨fun ⟨hroom, heq⟩ => ⟨_, (wf'.merge_eq_ok sound.slots).mpr ⟨hroom, rfl, heq⟩⟩, ?_⟩
  rintro ⟨t, hmerge⟩
  obtain ⟨hroom, -, heq⟩ := (wf'.merge_eq_ok sound.slots).mp hmerge
  exact ⟨hroom, heq⟩

/-- The graph of two lists of paths is the graph of the first merged with the graph of the second:
    it exists when both do and their merge succeeds, and then it is the same, slot by slot and list
    by list.  No name is anonymous, no relationship is in both lists, and a node that is in both
    and has a label in the second has one in the first. -/
theorem ofPaths_append (named : ∀ p ∈ ps ++ qs, p.Named)
    (relationships : ∀ e ∈ ps.flatMap Path.edges, ∀ f ∈ qs.flatMap Path.edges, e.name ≠ f.name)
    (labels : ∀ m ∈ ps.flatMap Path.nodes, ∀ n ∈ qs.flatMap Path.nodes, m.name = n.name →
      n.label.isSome → ∃ k ∈ ps.flatMap Path.nodes, k.name = n.name ∧ k.label.isSome)
    (g : Graph) :
    Graph.ofPaths c limits (ps ++ qs) = .ok g ↔
      ∃ a b t, Graph.ofPaths c limits ps = .ok a ∧ Graph.ofPaths c limits qs = .ok b ∧
        Edit.merge b a = .ok t g := by
  obtain ⟨hps, hqs⟩ := List.forall_mem_append.mp named
  -- the second list is added to the graph of the first
  rw [ofPaths_eq_ok, Edit.addPaths_append_eq_ok]
  refine exists_congr fun a => ?_
  rw [← ofPaths_eq_ok]
  have hmerge : Graph.ofPaths c limits ps = .ok a → (Edit.addPaths c qs a = .ok () g ↔
      ∃ b t, Graph.ofPaths c limits qs = .ok b ∧ Edit.merge b a = .ok t g) := fun made =>
    addPaths_iff_merge made hqs (sparedBy_of_ofPaths made hps relationships labels)
  rw [and_congr_right hmerge]
  simp only [exists_and_left]

/-- The second list starts at a node without a label, brings one label that is there already and
    one for a node of its own, and fills the budgets. -/
theorem ofPaths_append_of_shared :
    let step (a : PathNode) (r : PathEdge) (b : PathNode) : Path := ⟨[.node a, .edge r, .node b]⟩
    let ps := [step ⟨"x", some "A"⟩ ⟨"r", .outgoing, ["R"], none⟩ ⟨"y", none⟩]
    let qs := [step ⟨"y", none⟩ ⟨"s", .incoming, ["S"], none⟩ ⟨"z", some "B"⟩,
      step ⟨"z", some "D"⟩ ⟨"u", .both, [], none⟩ ⟨"x", some "C"⟩]
    let g := (Edit.addPaths .empty (ps ++ qs)).after (.empty ⟨3, 3, 1⟩)
    (g.nodeContents.map fun d => (d.name, d.label))
        = [("x", some "A"), ("y", none), ("z", some "B")] ∧
      g.edgeNames = ["r", "s", "u"] ∧
      ∃ a b t, Graph.ofPaths .empty ⟨3, 3, 1⟩ ps = .ok a ∧
        Graph.ofPaths .empty ⟨3, 3, 1⟩ qs = .ok b ∧ Edit.merge b a = .ok t g := by
  intro step ps qs g
  have hg : Graph.ofPaths .empty ⟨3, 3, 1⟩ (ps ++ qs) = .ok g :=
    ofPaths_eq_ok.mpr (Edit.ok_after_of_outcome (by decide +kernel))
  exact ⟨by decide +kernel, by decide +kernel, (ofPaths_append (by decide +kernel)
    (by decide +kernel) (by decide +kernel) g).mp hg⟩

end Graph

end PatternGraph
