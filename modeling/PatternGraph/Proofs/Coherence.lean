/-
  PatternGraph.Proofs.Coherence

  What a graph records of the schema fits the names that were written.  A node
  refers to the schema exactly when it has a label, and a name that is still
  waiting for an identifier is its label; of an edge that a path has drawn, it
  is the name of the type.

  `Effect.node_origin` says once where what is said of nodes comes from when a
  command has run: from the node of that name, or from a node that is new.
  Labels last along a history because nothing else can become of a node.
  `Effect.edge_origin` says the same of edges.  The names of an edge's types and
  what the catalog says of them stand in two lists, which are written together
  on every way by which an edge comes into a graph.
-/
import PatternGraph.Edit.Origin
import PatternGraph.Proofs.Components
import PatternGraph.Proofs.Continuation
import PatternGraph.Proofs.Joining

namespace PatternGraph

/-! ## References -/

namespace SchemaRef

variable {I : Type} {name s : String} {answer : Option I} {lookup : String → Option I}
  {r : SchemaRef I}

theorem ofAnswer_ne_absent : ofAnswer name answer ≠ .absent := by
  cases answer <;> exact nofun

/-- The name that waits is the name that was looked up. -/
theorem eq_of_ofAnswer (h : ofAnswer name answer = .unresolved s) : name = s := by
  cases answer with
  | none => exact unresolved.inj h
  | some id => cases h

/-- A reference stays, or it waited for a name that is known now. -/
theorem refresh_cases (lookup : String → Option I) (r : SchemaRef I) :
    r.refresh lookup = r ∨
      ∃ s id, r = .unresolved s ∧ lookup s = some id ∧ r.refresh lookup = .resolved id := by
  cases r with
  | absent => exact .inl rfl
  | resolved id => exact .inl rfl
  | unresolved name =>
      rw [refresh]
      cases hl : lookup name with
      | none => exact .inl rfl
      | some id => exact .inr ⟨name, id, rfl, hl, rfl⟩

theorem refresh_eq_absent : r.refresh lookup = .absent ↔ r = .absent := by
  rcases r.refresh_cases lookup with h | ⟨s, id, rfl, -, h⟩
  · rw [h]
  · rw [h]
    exact ⟨nofun, nofun⟩

/-- A name that still waits has waited before. -/
theorem of_refresh_eq_unresolved (h : r.refresh lookup = .unresolved s) : r = .unresolved s := by
  rcases r.refresh_cases lookup with h' | ⟨_, id, -, -, h'⟩
  · exact h'.symm.trans h
  · rw [h'] at h
    cases h

end SchemaRef

/-! ## One node -/

namespace NodeContent

/-- A node refers to the schema exactly when it has a label, and only for its label. -/
structure Coherent (d : NodeContent) : Prop where
  absent_iff : d.labelRef = .absent ↔ d.label = none
  unresolved : ∀ s, d.labelRef = .unresolved s → d.label = some s

/-- What labels that are offered make of what a node says: a node that has none takes one, with the
    answer of the catalog. -/
inductive Offered (c : Catalog) : NodeContent → NodeContent → Prop where
  | same (d : NodeContent) : Offered c d d
  | labelled {d : NodeContent} (label : String) (unlabelled : d.label = none) :
      Offered c d { d with label := some label, labelRef := c.labelRef label }

/-- What a command may make of what a node says.  Only a command to resolve looks a reference up
    once more. -/
inductive Becomes (k : Command) : NodeContent → NodeContent → Prop where
  | offered {d d' : NodeContent} {c : Catalog} (offered : Offered c d d') : Becomes k d d'
  | refreshed {c : Catalog} (d : NodeContent) (resolve : k = .resolve c) : Becomes k d (d.refresh c)

variable {k : Command} {d d' d'' : NodeContent} {c : Catalog} {history later : List Command}

theorem Offered.name (h : d.Offered c d') : d'.name = d.name := by
  cases h <;> rfl

/-- A node takes one label. -/
theorem Offered.trans (h₁ : d.Offered c d') (h₂ : d'.Offered c d'') : d.Offered c d'' := by
  cases h₁ with
  | same => exact h₂
  | labelled label unlabelled =>
      cases h₂ with
      | same => exact .labelled label unlabelled
      | labelled _ h => cases h

theorem offered_offer (c : Catalog) (name : String) (label : Option String) (d : NodeContent) :
    d.Offered c (d.offer c name label) := by
  cases label with
  | none => exact .same d
  | some label =>
      rw [offer]
      split
      next h => exact .labelled label h.2
      next => exact .same d

theorem Becomes.same (k : Command) (d : NodeContent) : d.Becomes k d :=
  .offered (c := .empty) (.same d)

theorem Becomes.name (h : d.Becomes k d') : d'.name = d.name := by
  cases h with
  | offered h => exact h.name
  | refreshed => rfl

/-! ### Coherence -/

theorem Coherent.bare (name : String) : (NodeContent.bare name).Coherent :=
  ⟨⟨fun _ => rfl, fun _ => rfl⟩, nofun⟩

theorem Offered.coherent (h : d.Offered c d') (coherent : d.Coherent) : d'.Coherent := by
  cases h with
  | same => exact coherent
  | labelled label _ =>
      refine ⟨⟨fun h => absurd h SchemaRef.ofAnswer_ne_absent, nofun⟩, fun s h => ?_⟩
      exact congrArg some (SchemaRef.eq_of_ofAnswer h)

theorem Becomes.coherent (h : d.Becomes k d') (coherent : d.Coherent) : d'.Coherent := by
  cases h with
  | offered h => exact h.coherent coherent
  | refreshed _ _ =>
      exact ⟨SchemaRef.refresh_eq_absent.trans coherent.absent_iff,
        fun s h => coherent.unresolved s (SchemaRef.of_refresh_eq_unresolved h)⟩

/-! ### Labels that last -/

/-- Along a history a label stays, and its reference stays or is found by a command to resolve whose
    catalog knows the name that waited. -/
structure Lasts (history : List Command) (d d' : NodeContent) : Prop where
  label : d'.label = d.label
  ref : d'.labelRef = d.labelRef ∨ ∃ c s id, .resolve c ∈ history ∧ d.labelRef = .unresolved s ∧
    c.labelId? s = some id ∧ d'.labelRef = .resolved id

theorem Lasts.refl (history : List Command) (d : NodeContent) : d.Lasts history d :=
  ⟨rfl, .inl rfl⟩

theorem Lasts.cons (h₁ : d.Lasts [k] d') (h₂ : d'.Lasts history d'') :
    d.Lasts (k :: history) d'' := by
  refine ⟨h₂.label.trans h₁.label, ?_⟩
  rcases h₁.ref with h | ⟨c, s, id, hk, hs, hid, h⟩
  · rcases h₂.ref with h' | ⟨c, s, id, hk, hs, h'⟩
    · exact .inl (h'.trans h)
    · exact .inr ⟨c, s, id, List.mem_cons_of_mem k hk, h ▸ hs, h'⟩
  · refine .inr ⟨c, s, id, ?_, hs, hid, ?_⟩
    · rw [List.mem_singleton.mp hk]
      exact List.mem_cons_self
    -- what is found stays
    · rcases h₂.ref with h' | ⟨_, _, _, -, hs', -⟩
      · exact h'.trans h
      · rw [h] at hs'
        cases hs'

/-- Whatever a command makes of a node that has a label, the label lasts. -/
theorem Becomes.lasts (h : d.Becomes k d') (hlabel : d.label.isSome) : d.Lasts [k] d' := by
  cases h with
  | offered h =>
      cases h with
      | same => exact .refl _ d
      | labelled _ unlabelled =>
          rw [unlabelled] at hlabel
          cases hlabel
  | refreshed _ resolve =>
      subst resolve
      refine ⟨rfl, ?_⟩
      rcases d.labelRef.refresh_cases _ with h | ⟨s, id, hs, hid, h⟩
      · exact .inl h
      · exact .inr ⟨_, s, id, List.mem_singleton_self _, hs, hid, h⟩

end NodeContent

/-! ## What is said of nodes -/

open NodeContent

namespace Graph

variable {g h other : Graph} {c : Catalog} {w : Walk}

/-- What a graph on the way says is said after some of the steps. -/
theorem OnTheWay.exists_contents (way : g.OnTheWay c w h) :
    ∃ taken left, w.steps = taken ++ left ∧
      h.nodeContents = (g.extend c ⟨w.start, taken⟩).nodeContents ∧
      h.edgeContents ⊆ (g.extend c ⟨w.start, taken⟩).edgeContents := by
  obtain ⟨taken, left, cut, rfl | ⟨e, he⟩⟩ := way.exists_steps
  · exact ⟨taken, left, cut, rfl, List.Subset.refl _⟩
  · refine ⟨taken, left, cut, ?_, ?_⟩
    · rw [← he, nodeContents_insertEdge]
    · rw [← he, edgeContents_insertEdge]
      exact List.subset_append_left _ _

/-- What a graph in the middle of a merge says is said at its end. -/
theorem MidMerge.contents_subset (mid : g.MidMerge other h) (wf : g.WellFormed)
    (wf' : other.WellFormed) :
    h.nodeContents ⊆ (g.absorb other).nodeContents ∧
      h.edgeContents ⊆ (g.absorb other).edgeContents := by
  cases mid with
  | @nodes copied left cut =>
      refine ⟨?_, ?_⟩
      · rw [nodeContents_insertNodes, nodeContents_absorb, ← map_content_missingNodes, cut,
          List.map_append, List.map_map, ← List.append_assoc]
        exact List.subset_append_left _ _
      · rw [wf.edgeContents_of_append (edges_insertNodes g _) (nameSlots_insertNodes g _),
          wf.edgeContents_absorb wf']
        exact List.subset_append_left _ _
  | @edges copied left cut =>
      refine ⟨?_, ?_⟩
      · rw [Graph.absorb, nodeContents_insertEdges, nodeContents_insertEdges]
        exact List.Subset.refl _
      · rw [Graph.absorb, cut, List.map_append, insertEdges_append,
          edgeContents_insertEdges _ (left.map _)]
        exact List.subset_append_left _ _

theorem subset_names_joinContents (c : Catalog) (nodes : List NodeContent) (n : PathNode) :
    nodes.map NodeContent.name ⊆ (joinContents c nodes n).map NodeContent.name := by
  intro a ha
  obtain ⟨d, hd, rfl⟩ := List.mem_map.mp ha
  rw [joinContents, List.map_map]
  refine List.mem_map.mpr ⟨d, ?_, name_offer c n.name n.label d⟩
  split
  · exact hd
  · exact List.mem_append_left _ hd

/-- A node that is joined is said of a node that was there or of a new one. -/
theorem exists_of_mem_joinContents {nodes : List NodeContent} {n : PathNode} {d' : NodeContent}
    (hd : d' ∈ joinContents c nodes n) :
    ∃ d, (d ∈ nodes ∨ d = .bare n.name ∧ n.name ∉ nodes.map NodeContent.name) ∧ d.Offered c d' := by
  obtain ⟨d, hfrom, rfl⟩ := List.mem_map.mp hd
  refine ⟨d, ?_, offered_offer c n.name n.label d⟩
  split at hfrom
  next => exact .inl hfrom
  next hnone =>
    rcases List.mem_append.mp hfrom with hfrom | hfrom
    · exact .inl hfrom
    · exact .inr ⟨List.mem_singleton.mp hfrom, mt any_name_iff.mpr hnone⟩

/-- What is said when the nodes of a path are joined was said before or is said of a new node, and
    labels were offered. -/
theorem exists_offered_of_joined {ns : List PathNode} {nodes : List NodeContent} {d' : NodeContent}
    (hd : d' ∈ ns.foldl (joinContents c) nodes) :
    ∃ d, (d ∈ nodes ∨ d = .bare d'.name ∧ d'.name ∉ nodes.map NodeContent.name) ∧
      d.Offered c d' := by
  induction ns generalizing nodes with
  | nil => exact ⟨d', .inl hd, .same d'⟩
  | cons n rest ih =>
      obtain ⟨d, hfrom, hlater⟩ := ih hd
      rcases hfrom with hjoined | ⟨hbare, hnew⟩
      · obtain ⟨d₀, hfrom, hfirst⟩ := exists_of_mem_joinContents hjoined
        have hoffered := hfirst.trans hlater
        refine ⟨d₀, hfrom.imp_right ?_, hoffered⟩
        rintro ⟨rfl, hnew⟩
        have hname : d'.name = n.name := hoffered.name
        exact ⟨by rw [hname], hname ▸ hnew⟩
      · exact ⟨d, .inr ⟨hbare, fun hmem => hnew (subset_names_joinContents c nodes n hmem)⟩, hlater⟩

end Graph

namespace Command

variable {g g' : Graph} {k : Command}

open PatternGraph.Graph

/-- When a command has run, what is said of a node was said of the node of that name, and the
    command has made something of it; or the node is new, and it is like a node of the graph that
    was merged or was made without a label. -/
theorem Effect.node_origin (effect : k.Effect g g') (wf : g.WellFormed)
    (hother : k.OperandWellFormed) {d' : NodeContent} (hd : d' ∈ g'.nodeContents) :
    (∃ d ∈ g.nodeContents, d.Becomes k d') ∨
      d'.name ∉ g.nodeNames ∧ ((NodeContent.bare d'.name).Becomes k d' ∨
        ∃ other, k.operand? = some other ∧ d' ∈ other.nodeContents) := by
  have hkept : d' ∈ g.nodeContents → ∃ d ∈ g.nodeContents, d.Becomes k d' :=
    fun h => ⟨d', h, .same k d'⟩
  cases effect with
  | addNode free _ =>
      rw [nodeContents_insertNode] at hd
      rcases List.mem_append.mp hd with hd | hd
      · exact .inl (hkept hd)
      · obtain rfl := List.mem_singleton.mp hd
        refine .inr ⟨fun hmem => ?_, .inl (.same _ _)⟩
        exact Bool.eq_false_iff.mp free (hasNode_iff_mem_nodeNames.mpr hmem)
  | setLabel live =>
      rw [wf.nodeContents_offerLabel (nameOf?_of_live live)] at hd
      obtain ⟨d, hmem, rfl⟩ := List.mem_map.mp hd
      exact .inl ⟨d, hmem, .offered (offered_offer _ _ _ d)⟩
  | addEdge _ _ _ _ _ =>
      rw [nodeContents_insertEdge] at hd
      exact .inl (hkept hd)
  | addPath _ accepted way =>
      obtain ⟨taken, left, cut, hsaid, -⟩ := way.exists_contents
      obtain ⟨hfree, hnodup⟩ := fresh_of_accept accepted
      obtain ⟨hfree, hnodup⟩ := OnTheWay.fresh_take cut hfree hnodup
      rw [hsaid, wf.nodeContents_extend hfree hnodup] at hd
      obtain ⟨d, hd | ⟨rfl, hnew⟩, hoffered⟩ := exists_offered_of_joined hd
      · exact .inl ⟨d, hd, .offered hoffered⟩
      · exact .inr ⟨hnew, .inl (.offered hoffered)⟩
  | @merge _ other _ _ _ _ mid =>
      -- what has come when a merge stops comes with the whole one too
      replace hd := (mid.contents_subset wf (hother other rfl)).1 hd
      rw [nodeContents_absorb] at hd
      rcases List.mem_append.mp hd with hd | hd
      · exact .inl (hkept hd)
      · obtain ⟨hd, hfree⟩ := List.mem_filter.mp hd
        refine .inr ⟨fun hmem => ?_, .inr ⟨other, rfl, hd⟩⟩
        rw [hasNode_iff_mem_nodeNames.mpr hmem] at hfree
        cases hfree
  | removeNode _ => exact .inl (hkept (nodeContents_induced_subset _ _ hd))
  | removeEdge _ =>
      rw [nodeContents_dropEdge] at hd
      exact .inl (hkept hd)
  | reverseEdge _ =>
      rw [nodeContents_turnEdge] at hd
      exact .inl (hkept hd)
  | retain => exact .inl (hkept (nodeContents_induced_subset _ _ hd))
  | resolve =>
      rw [nodeContents_refresh] at hd
      obtain ⟨d, hmem, rfl⟩ := List.mem_map.mp hd
      exact .inl ⟨d, hmem, .refreshed d rfl⟩

/-- A label that a node has lasts when a command runs. -/
theorem run_label_lasts (wf : g.WellFormed) (hother : k.OperandWellFormed) {x : NodeId} {m n : Node}
    (hm : g.node? x = some m) (hn : (k.run g).node? x = some n) (hlabel : m.label.isSome) :
    m.content.Lasts [k] n.content := by
  have hname : n.name = m.name := ((run_continues wf hother).nodes.of_get? hm hn).name
  rcases run_cases wf hother with hsame | heffect
  · rw [hsame, hm] at hn
    obtain rfl := Option.some.inj hn
    exact .refl _ _
  · have hmem := content_mem_nodeContents hm
    have horigin := heffect.node_origin wf hother (content_mem_nodeContents hn)
    rcases horigin with ⟨d, hd, hbecomes⟩ | ⟨hnew, -⟩
    -- a name is borne by one node
    · have hd' : d = m.content := List.inj_on_of_nodup_map wf.nodeNames_nodup hd hmem
        (hbecomes.name.symm.trans hname)
      exact (hd' ▸ hbecomes).lasts hlabel
    · have hold : n.content.name ∈ g.nodeNames :=
        List.mem_map.mpr ⟨m.content, hmem, hname.symm⟩
      exact absurd hold hnew

/-- A label that a node has lasts along every history that leaves the node. -/
theorem runAll_label_lasts {history : List Command} (wf : g.WellFormed)
    (hother : ∀ k ∈ history, k.OperandWellFormed) {x : NodeId} {m n : Node}
    (hm : g.node? x = some m) (hn : (runAll history g).node? x = some n) (hlabel : m.label.isSome) :
    m.content.Lasts history n.content := by
  induction history generalizing g m with
  | nil =>
      obtain rfl := Option.some.inj (hm.symm.trans hn)
      exact .refl _ _
  | cons k rest ih =>
      obtain ⟨hk, hrest⟩ := List.forall_mem_cons.mp hother
      have wf' := run_wellFormed wf hk
      -- a node that is left at the end was there after the first command
      obtain ⟨l, hl, -⟩ := (runAll_continues wf' hrest).nodes.value x.index n
        (Nat.lt_of_lt_of_le (Slots.lt_size_of_get? hm) (run_continues wf hk).nodes.size_le) hn
      have hfirst := run_label_lasts wf hk hm hl hlabel
      have hstill : l.label.isSome := by
        rw [show l.label = m.label from hfirst.label]
        exact hlabel
      exact hfirst.cons (ih wf' hrest hl hn hstill)

end Command

/-! ## What is said of edges -/

namespace EdgeContent

/-- The edge has a reference for each of its types. -/
def Paired (d : EdgeContent) : Prop := d.typeRefs.length = d.types.length

/-- The types of the edge that wait for an identifier wait under their names. -/
def Coherent (d : EdgeContent) : Prop :=
  ∀ (k : Nat) (s : String), d.typeRefs[k]? = some (.unresolved s) → d.types[k]? = some s

/-- What a command may make of what an edge says: it may turn the edge round, or look its types up
    once more. -/
inductive Becomes : EdgeContent → EdgeContent → Prop where
  | same (d : EdgeContent) : Becomes d d
  | reversed (d : EdgeContent) : Becomes d d.reversed
  | refreshed (c : Catalog) (d : EdgeContent) : Becomes d (d.refresh c)

/-- Where a command has a new edge from: it is handed in, or a path draws it, or the graph that is
    merged has it. -/
inductive ComesBy (k : Command) : EdgeContent → Prop where
  | handed {e : Edge} {d : EdgeContent} (edge : k.edge? = some e) (types : d.types = e.types)
      (typeRefs : d.typeRefs = e.typeRefs) : ComesBy k d
  | drawn {c : Catalog} {p : Path} (path : k = .addPath c p) (link : String × PathEdge × String) :
      ComesBy k (linkContent c link)
  | merged {other : Graph} {d : EdgeContent} (operand : k.operand? = some other)
      (mem : d ∈ other.edgeContents) : ComesBy k d

variable {d d' : EdgeContent}

theorem Becomes.name (h : d.Becomes d') : d'.name = d.name := by
  cases h <;> rfl

theorem Becomes.paired (h : d.Becomes d') (paired : d.Paired) : d'.Paired := by
  cases h with
  | same => exact paired
  | reversed => exact paired
  | refreshed c => exact (List.length_map ..).trans paired

theorem Becomes.coherent (h : d.Becomes d') (coherent : d.Coherent) : d'.Coherent := by
  cases h with
  | same => exact coherent
  | reversed => exact coherent
  | refreshed c =>
      intro k s hk
      rw [refresh, List.getElem?_map, Option.map_eq_some_iff] at hk
      obtain ⟨r, hr, hs⟩ := hk
      exact coherent k s (SchemaRef.of_refresh_eq_unresolved hs ▸ hr)

theorem paired_linkContent (c : Catalog) (link : String × PathEdge × String) :
    (linkContent c link).Paired :=
  List.length_map ..

theorem coherent_linkContent (c : Catalog) (link : String × PathEdge × String) :
    (linkContent c link).Coherent := by
  intro k s hk
  rw [linkContent, List.getElem?_map, Option.map_eq_some_iff] at hk
  obtain ⟨name, hname, hs⟩ := hk
  exact hname.trans (congrArg some (SchemaRef.eq_of_ofAnswer hs))

end EdgeContent

namespace Command

variable {g g' : Graph} {k : Command} {drawn theirs : String → Prop}

open PatternGraph.Graph

/-- When a command has run, what is said of an edge was said of the edge of that name, and the
    command has made something of it; or the edge is new, and it comes by the command. -/
theorem Effect.edge_origin (effect : k.Effect g g') (wf : g.WellFormed)
    (hother : k.OperandWellFormed) {d' : EdgeContent} (hd : d' ∈ g'.edgeContents) :
    (∃ d ∈ g.edgeContents, d.Becomes d') ∨ d'.name ∉ g.edgeNames ∧ d'.ComesBy k := by
  have hkept : d' ∈ g.edgeContents → ∃ d ∈ g.edgeContents, d.Becomes d' :=
    fun h => ⟨d', h, .same d'⟩
  have hinduced : ∀ p, d' ∈ (g.induced p).edgeContents → ∃ d ∈ g.edgeContents, d.Becomes d' := by
    intro p hd
    rw [edgeContents_induced] at hd
    exact hkept ((List.filter_sublist.map g.edgeContent).subset hd)
  have hnew : g.hasEdge d'.name = false → d'.name ∉ g.edgeNames := fun hfree hmem =>
    Bool.eq_false_iff.mp hfree (hasEdge_iff_mem_edgeNames.mpr hmem)
  cases effect with
  | addNode _ _ =>
      rw [wf.edgeContents_insertNode] at hd
      exact .inl (hkept hd)
  | setLabel _ =>
      rw [wf.edgeContents_offerLabel] at hd
      exact .inl (hkept hd)
  | addEdge free _ _ _ _ =>
      rw [edgeContents_insertEdge] at hd
      rcases List.mem_append.mp hd with hd | hd
      · exact .inl (hkept hd)
      · obtain rfl := List.mem_singleton.mp hd
        exact .inr ⟨hnew free, .handed rfl rfl rfl⟩
  | addPath _ accepted way =>
      -- where slots ran out, some of the steps have drawn their edges
      obtain ⟨taken, left, cut, -, hsub⟩ := way.exists_contents
      obtain ⟨hfree, hnodup⟩ := fresh_of_accept accepted
      obtain ⟨hfree, hnodup⟩ := OnTheWay.fresh_take cut hfree hnodup
      replace hd := hsub hd
      rw [wf.edgeContents_extend hfree hnodup] at hd
      rcases List.mem_append.mp hd with hd | hd
      · exact .inl (hkept hd)
      · obtain ⟨link, hlink, rfl⟩ := List.mem_map.mp hd
        have hedge := map_links _ ▸ List.mem_map_of_mem hlink
        exact .inr ⟨hnew (hfree _ hedge), .drawn rfl link⟩
  | @merge _ other _ _ _ _ mid =>
      have wf' := hother other rfl
      -- a merge that stopped half done has brought nothing that the whole one does not bring
      replace hd := (mid.contents_subset wf wf').2 hd
      rw [wf.edgeContents_absorb wf'] at hd
      rcases List.mem_append.mp hd with hd | hd
      · exact .inl (hkept hd)
      · obtain ⟨hd, hfree⟩ := List.mem_filter.mp hd
        exact .inr ⟨hnew (by simpa using hfree), .merged rfl hd⟩
  | removeNode _ => exact .inl (hinduced _ hd)
  | removeEdge live =>
      rw [wf.edgeContents_dropEdge live] at hd
      exact .inl (hkept (List.mem_filter.mp hd).1)
  | reverseEdge live =>
      rw [wf.edgeContents_turnEdge live] at hd
      obtain ⟨d, hmem, rfl⟩ := List.mem_map.mp hd
      split
      · exact .inl ⟨d, hmem, .reversed d⟩
      · exact .inl ⟨d, hmem, .same d⟩
  | retain => exact .inl (hinduced _ hd)
  | resolve =>
      rw [edgeContents_refresh] at hd
      obtain ⟨d, hmem, rfl⟩ := List.mem_map.mp hd
      exact .inl ⟨d, hmem, .refreshed _ d⟩

/-- Commands keep a reference for each type, when it is so in the graph that is read and of the edge
    that is handed in. -/
theorem Effect.types_paired (effect : k.Effect g g') (wf : g.WellFormed)
    (hother : ∀ other, k.operand? = some other →
      other.WellFormed ∧ ∀ d ∈ other.edgeContents, d.Paired)
    (made : ∀ e, k.edge? = some e → e.Made) (paired : ∀ d ∈ g.edgeContents, d.Paired) :
    ∀ d ∈ g'.edgeContents, d.Paired := by
  intro d' hd'
  rcases effect.edge_origin wf (fun other ho => (hother other ho).1) hd' with
    ⟨d, hd, hbecomes⟩ | ⟨-, comes⟩
  · exact hbecomes.paired (paired d hd)
  · cases comes with
    | handed edge types typeRefs =>
        rw [EdgeContent.Paired, types, typeRefs]
        exact Edge.made_iff.mp (made _ edge)
    | drawn _ link => exact EdgeContent.paired_linkContent _ link
    | merged operand mem => exact (hother _ operand).2 d' mem

/-- An edge that was there is drawn when it was drawn. -/
theorem drawn_of_mem {d : EdgeContent} (hd : d ∈ g.edgeContents)
    (h : k.draws g drawn theirs d.name) : drawn d.name := by
  have hedge : g.hasEdge d.name = true := hasEdge_iff_mem_edgeNames.mpr (List.mem_map_of_mem hd)
  rwa [draws, if_pos hedge] at h

/-- A new edge is drawn when the command brings it so. -/
theorem brings_of_new {name : String} (hnew : name ∉ g.edgeNames)
    (h : k.draws g drawn theirs name) : k.bringsDrawn theirs name := by
  rwa [draws, if_neg (mt hasEdge_iff_mem_edgeNames.mp hnew)] at h

/-- Commands keep the types of drawn edges coherent, when they are so in the graph that is read. -/
theorem Effect.types_coherent (effect : k.Effect g g') (wf : g.WellFormed)
    (hother : ∀ other, k.operand? = some other →
      other.WellFormed ∧ ∀ d ∈ other.edgeContents, theirs d.name → d.Coherent)
    (coherent : ∀ d ∈ g.edgeContents, drawn d.name → d.Coherent) :
    ∀ d ∈ g'.edgeContents, k.draws g drawn theirs d.name → d.Coherent := by
  intro d' hd' hdrawn
  rcases effect.edge_origin wf (fun other ho => (hother other ho).1) hd' with
    ⟨d, hd, hbecomes⟩ | ⟨hnew, comes⟩
  · rw [hbecomes.name] at hdrawn
    exact hbecomes.coherent (coherent d hd (drawn_of_mem hd hdrawn))
  · have hbrings := brings_of_new hnew hdrawn
    cases comes with
    | handed edge _ _ =>
        -- an edge that is added by itself is not drawn
        cases k <;> cases edge
        exact hbrings.elim
    | drawn _ link => exact EdgeContent.coherent_linkContent _ link
    | merged operand mem =>
        cases k <;> cases operand
        exact (hother _ rfl).2 d' mem hbrings

end Command

open PatternGraph.Graph

/-- The types of drawn edges are coherent in every graph that can come up. -/
theorem Drawn.coherent {g : Graph} {drawn : String → Prop} (origin : Drawn g drawn) :
    ∀ d ∈ g.edgeContents, drawn d.name → d.Coherent := by
  induction origin with
  | empty limits => exact nofun
  | @ofPaths c limits paths g made =>
      have hkept : g.WellFormed ∧ ∀ d ∈ g.edgeContents, True → d.Coherent := by
        refine Edit.addPaths_induction
          (P := fun g => g.WellFormed ∧ ∀ d ∈ g.edgeContents, True → d.Coherent) ?_
          ⟨.empty limits, nofun⟩ (Graph.addPaths_of_ofPaths made)
        rintro p g g' ⟨wf, hcoherent⟩ hrun
        have heffect := Edit.addPath_effect hrun
        refine ⟨heffect.wellFormed wf nofun, fun d hd _ => ?_⟩
        have hstep : ∀ d ∈ g'.edgeContents,
            (Command.addPath c p).draws g (fun _ => True) (fun _ => True) d.name → d.Coherent :=
          heffect.types_coherent wf nofun hcoherent
        refine hstep d hd ?_
        rw [Command.draws]
        split <;> trivial
      exact hkept.2
  | compact origin ih =>
      rw [origin.reachable.sound.edgeContents_compact]
      exact ih
  | part origin split ih =>
      obtain ⟨_, _, -, divides, -⟩ := origin.reachable.sound.divides_split split
      rw [divides.part_edges]
      exact fun d hd => ih d (List.mem_filter.mp hd).1
  | rest origin split ih =>
      obtain ⟨_, _, -, divides, -⟩ := origin.reachable.sound.divides_split split
      rw [divides.rest_edges]
      exact fun d hd => ih d (List.mem_filter.mp hd).1
  | run k _ origin operand _ ih ihOperand =>
      have wf := origin.reachable.wellFormed
      have hother : k.OperandWellFormed := fun other ho => (operand other ho).reachable.wellFormed
      rcases Command.run_cases wf hother with hsame | heffect
      · rw [hsame]
        exact fun d hd h => ih d hd (Command.drawn_of_mem hd h)
      · exact heffect.types_coherent wf (fun other ho => ⟨hother other ho, ihOperand other ho⟩) ih

namespace Reachable

variable {g : Graph}

/-- What the nodes say is coherent in every graph that can come up. -/
theorem nodes_coherent (reach : Reachable g) : ∀ d ∈ g.nodeContents, d.Coherent := by
  refine reach.invariant (P := fun g => ∀ d ∈ g.nodeContents, d.Coherent) ?empty ?effect ?compact
    ?induced
  case empty => exact fun _ => nofun
  case effect =>
    intro k g g' sound coherent hother _ heffect d' hd'
    rcases heffect.node_origin sound.toWellFormed
        (fun other ho => (hother other ho).1.toWellFormed) hd' with
      ⟨d, hd, hbecomes⟩ | ⟨-, hbecomes | ⟨other, ho, hd⟩⟩
    · exact hbecomes.coherent (coherent d hd)
    · exact hbecomes.coherent (.bare _)
    · exact (hother other ho).2 d' hd
  case compact =>
    intro g sound coherent
    rw [nodeContents_compact sound.slots]
    exact coherent
  case induced =>
    intro g p _ coherent d hd
    exact coherent d (nodeContents_induced_subset g p hd)

/-- Every edge has a reference for each of its types in every graph that can come up. -/
theorem edges_paired (reach : Reachable g) : ∀ d ∈ g.edgeContents, d.Paired := by
  refine reach.invariant (P := fun g => ∀ d ∈ g.edgeContents, d.Paired) ?empty ?effect ?compact
    ?induced
  case empty => exact fun _ => nofun
  case effect =>
    intro k g g' sound paired hother made heffect
    exact heffect.types_paired sound.toWellFormed
      (fun other ho => ⟨(hother other ho).1.toWellFormed, (hother other ho).2⟩) made paired
  case compact =>
    intro g sound paired
    rw [sound.edgeContents_compact]
    exact paired
  case induced =>
    intro g p _ paired d hd
    rw [edgeContents_induced] at hd
    exact paired d ((List.filter_sublist.map g.edgeContent).subset hd)

/-- What a graph that can come up records of the schema fits its names, and along every history a
    label and its reference last: a reference changes only when a command to resolve finds the name
    that waited.  Every edge has a reference for each of its types, and types that wait do so under
    their names on all edges that were drawn. -/
theorem catalog_coherent (reach : Reachable g) :
    (∀ x n, g.node? x = some n → (n.labelRef = .absent ↔ n.label = none) ∧
      ∀ s, n.labelRef = .unresolved s → n.label = some s) ∧
    (∀ history : List Command, (∀ k ∈ history, ∀ other, k.operand? = some other → Reachable other) →
      ∀ x m n label, g.node? x = some m → m.label = some label →
        (Command.runAll history g).node? x = some n →
        n.label = some label ∧ (n.labelRef = m.labelRef ∨
          ∃ c s id, .resolve c ∈ history ∧ m.labelRef = .unresolved s ∧ c.labelId? s = some id ∧
            n.labelRef = .resolved id)) ∧
    (∀ i e, g.edge? i = some e → e.typeRefs.length = e.types.length) ∧
    (∀ drawn, Drawn g drawn → ∀ i e, g.edge? i = some e → drawn e.name →
      ∀ (k : Nat) (s : String), e.typeRefs[k]? = some (.unresolved s) → e.types[k]? = some s) := by
  refine ⟨?_, ?_, ?_, ?_⟩
  · intro x n hn
    have hcoherent := reach.nodes_coherent n.content (content_mem_nodeContents hn)
    exact ⟨hcoherent.absent_iff, hcoherent.unresolved⟩
  · intro history operands x m n label hm hlabel hn
    have hlasts := Command.runAll_label_lasts reach.wellFormed
      (fun k hk other ho => (operands k hk other ho).wellFormed) hm hn (by rw [hlabel]; rfl)
    exact ⟨hlasts.label.trans hlabel, hlasts.ref⟩
  · intro i e he
    exact reach.edges_paired (g.edgeContent e) (mem_edgeContents.mpr ⟨i, e, he, rfl⟩)
  · intro drawn origin i e he hdrawn
    exact origin.coherent (g.edgeContent e) (mem_edgeContents.mpr ⟨i, e, he, rfl⟩) hdrawn

/-- A label that was unknown is found after another one was offered; of two edges the one that a
    path has drawn waits under the names of its types, and the other one does not. -/
theorem catalog_coherent_of_resolution :
    let c := (SchemaTable.addLabel {} "Person" ⟨1⟩).catalog
    let p : Path := ⟨[.node ⟨"a", some "Person"⟩, .edge ⟨"r", .both, ["KNOWS", "LIKES"], none⟩,
      .node ⟨"b", none⟩]⟩
    let e : Edge := ⟨"s", ⟨0⟩, ⟨1⟩, ["T"], [.unresolved "U"], false, .single⟩
    let g := (Command.addEdge e).run ((Command.addPath .empty p).run (.empty .standard))
    let history : List Command := [.setLabel c ⟨0⟩ "City", .resolve c, .setLabel c ⟨1⟩ "Person"]
    (g.node? ⟨0⟩).map Node.content = some ⟨"a", some "Person", .unresolved "Person"⟩ ∧
      ((Command.runAll history g).node? ⟨0⟩).map Node.content
        = some ⟨"a", some "Person", .resolved ⟨1⟩⟩ ∧
      (∃ c s id, Command.resolve c ∈ history ∧ c.labelId? s = some id ∧ s = "Person") ∧
      ∀ i e, g.edge? i = some e → e.typeRefs.length = e.types.length ∧
        (e.name = "r" → e.typeRefs[1]? = some (.unresolved "LIKES") →
          e.types[1]? = some "LIKES") := by
  intro c p e g history
  have first : Drawn ((Command.addPath .empty p).run (.empty .standard)) _ :=
    .run _ (fun _ => False) (.empty .standard) nofun nofun
  have origin : Drawn g _ := .run (.addEdge e) (fun _ => False) first nofun
    (by simp [Command.edge?, e, Edge.made_iff])
  have hspec := origin.reachable.catalog_coherent
  have hm : (g.node? ⟨0⟩).map Node.content = some ⟨"a", some "Person", .unresolved "Person"⟩ := by
    decide +kernel
  have hn : ((Command.runAll history g).node? ⟨0⟩).map Node.content
      = some ⟨"a", some "Person", .resolved ⟨1⟩⟩ := by decide +kernel
  refine ⟨hm, hn, ?_, ?_⟩
  · obtain ⟨m, hm, hcontent⟩ := Option.map_eq_some_iff.mp hm
    obtain ⟨n, hn, hcontent'⟩ := Option.map_eq_some_iff.mp hn
    have hlabel : m.label = some "Person" := congrArg NodeContent.label hcontent
    have href : m.labelRef = .unresolved "Person" := congrArg NodeContent.labelRef hcontent
    have href' : n.labelRef = .resolved ⟨1⟩ := congrArg NodeContent.labelRef hcontent'
    have hlasts := (hspec.2.1 history (by simp [history, Command.operand?]) _ m n _ hm hlabel hn).2
    rw [href, href'] at hlasts
    rcases hlasts with h | ⟨c, s, id, hmem, hs, hid, -⟩
    · cases h
    · exact ⟨c, s, id, hmem, hid, (SchemaRef.unresolved.inj hs).symm⟩
  · refine fun i d hd => ⟨hspec.2.2.1 i d hd, fun hname => ?_⟩
    refine hspec.2.2.2 _ origin i d hd ?_ 1 "LIKES"
    -- the edge is not new to the second command, and the first one has drawn it
    rw [hname, Command.draws, if_pos (by decide +kernel), Command.draws, if_neg (by decide +kernel)]
    trivial

end Reachable

end PatternGraph
