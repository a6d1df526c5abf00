/-
  PatternGraph.Proofs.Veil

  What is seen of names when one does not look at the numbers of anonymous
  names.  Two graphs are alike when they agree under this veil: slot by slot
  they are the same, but where both have an anonymous name it may be another
  one.

  Alike walks are accepted by alike graphs together, and make alike graphs of
  them, as long as the anonymous names on either walk are new to its graph and
  written once.  Two names that are seen to be equal are then found at the same
  handle: plain names are equal, and anonymous names are not found at all.
-/
import PatternGraph.Proofs.Anonymity
import PatternGraph.Proofs.Recast

namespace PatternGraph

/-! ## Names under a veil -/

/-- The name, where every anonymous name looks the same. -/
def veil (name : String) : String := if isAnonymous name then anonymousName 0 else name

variable {a b : String}

theorem isAnonymous_veil (a : String) : isAnonymous (veil a) = isAnonymous a := by
  unfold veil
  split
  next h => rw [isAnonymous_anonymousName, h]
  next => rfl

/-- Names look the same when they are equal or both anonymous. -/
theorem veil_eq_veil : veil a = veil b ↔ a = b ∨ isAnonymous a = true ∧ isAnonymous b = true := by
  refine ⟨fun h => ?_, ?_⟩
  · have hanon : isAnonymous a = isAnonymous b := by
      rw [← isAnonymous_veil a, h, isAnonymous_veil]
    cases ha : isAnonymous a with
    | true => exact .inr ⟨rfl, hanon ▸ ha⟩
    | false =>
        have hb : isAnonymous b = false := hanon ▸ ha
        left
        simpa [veil, ha, hb] using h
  · rintro (rfl | ⟨ha, hb⟩)
    · rfl
    · rw [veil, veil, if_pos ha, if_pos hb]

/-- A plain name is seen where it stands and nowhere else. -/
theorem veil_beq {name : String} (ha : isAnonymous a = false) : (veil name == a) = (name == a) := by
  have hveil : veil a = a := by rw [veil, ha]; rfl
  rw [Bool.eq_iff_iff, beq_iff_eq, beq_iff_eq, ← hveil, veil_eq_veil, hveil, ha]
  simp

theorem veil_anonymousName (n : Nat) : veil (anonymousName n) = anonymousName 0 :=
  if_pos (isAnonymous_anonymousName n)

/-- Lists that look the same do so element by element. -/
theorem forall₂_of_map_eq {α β : Type} {f : α → β} {l l' : List α} (h : l.map f = l'.map f) :
    List.Forall₂ (fun a b => f a = f b) l l' := by
  rw [← List.forall₂_eq_eq_eq, List.forall₂_map_left_iff, List.forall₂_map_right_iff] at h
  exact h

/-- The anonymous names of a list are new and written once. -/
structure NewNames (taken : String → Bool) (names : List String) : Prop where
  free : ∀ a ∈ names, isAnonymous a = true → taken a = false
  once : (names.filter isAnonymous).Nodup

namespace NewNames

variable {taken taken' : String → Bool} {rest rest' : List String}

/-- The names after the first are new where the first is taken as well. -/
theorem tail (new : NewNames taken (a :: rest)) (h : ∀ b, taken' b = (a == b || taken b)) :
    NewNames taken' rest := by
  have hsub : (rest.filter isAnonymous).Sublist ((a :: rest).filter isAnonymous) :=
    (List.sublist_cons_self a rest).filter _
  refine ⟨fun b hb hanon => ?_, new.once.sublist hsub⟩
  have hne : a ≠ b := by
    rintro rfl
    have honce := new.once
    rw [List.filter_cons_of_pos hanon, List.nodup_cons] at honce
    exact honce.1 (List.mem_filter.mpr ⟨hb, hanon⟩)
  rw [h, beq_eq_false_iff_ne.mpr hne, new.free b (List.mem_cons_of_mem a hb) hanon]
  rfl

/-- Names that look the same are taken together when plain names are. -/
theorem taken_eq (new : NewNames taken (a :: rest)) (new' : NewNames taken' (b :: rest'))
    (hplain : ∀ a, isAnonymous a = false → taken a = taken' a) (h : veil a = veil b) :
    taken a = taken' b := by
  rcases veil_eq_veil.mp h with rfl | ⟨ha, hb⟩
  · cases ha : isAnonymous a with
    | true => rw [new.free a List.mem_cons_self ha, new'.free a List.mem_cons_self ha]
    | false => exact hplain a ha
  · rw [new.free a List.mem_cons_self ha, new'.free b List.mem_cons_self hb]

end NewNames

/-! ## Renaming what has names -/

/-- The node with its name replaced. -/
def PathNode.rename (f : String → String) (n : PathNode) : PathNode := { n with name := f n.name }

/-- The relationship with its name replaced. -/
def PathEdge.rename (f : String → String) (e : PathEdge) : PathEdge := { e with name := f e.name }

theorem PathEdge.rename_edgeBetween (c : Catalog) (f : String → String) (e : PathEdge)
    (left right : NodeId) :
    { e.edgeBetween c left right with name := f (e.edgeBetween c left right).name }
      = (e.rename f).edgeBetween c left right := by
  simp only [edgeBetween_eq]
  rfl

/-- The step with both names replaced. -/
def Step.rename (f : String → String) (s : Step) : Step := ⟨s.edge.rename f, s.target.rename f⟩

/-- The cause with the name in it replaced. -/
def GraphError.rename (f : String → String) : GraphError → GraphError
  | .duplicateNode name => .duplicateNode (f name)
  | .duplicateEdge name => .duplicateEdge (f name)
  | .unknownName name kind => .unknownName (f name) kind
  | .invalidHopRange name start stop => .invalidHopRange (f name) start stop
  | e => e

/-- Replacing the name of every node and of every edge. -/
def Recast.rename (f : String → String) : Recast where
  node n := { n with name := f n.name }
  edge e := { e with name := f e.name }
  node_addOutgoing _ _ := rfl
  node_addIncoming _ _ := rfl
  edge_src _ := rfl
  edge_dest _ := rfl

theorem Walk.rename_eq (w : Walk) (f : String → String) :
    w.rename f = ⟨w.start.rename f, w.steps.map (Step.rename f)⟩ :=
  rfl

theorem Walk.rename_rename (w : Walk) (f k : String → String) :
    (w.rename f).rename k = w.rename (k ∘ f) := by
  simp only [Walk.rename, List.map_map]
  rfl

/-- Only what becomes of the written names matters. -/
theorem Walk.rename_congr {w : Walk} {f k : String → String} (h : ∀ a ∈ w.names, f a = k a) :
    w.rename f = w.rename k := by
  have hnode : ∀ n ∈ w.nodes, n.rename f = n.rename k := fun n hn => by
    rw [PathNode.rename, PathNode.rename, h _ (Graph.mem_names_of_node (List.mem_map_of_mem hn))]
  have hedge : ∀ e ∈ w.edges, e.rename f = e.rename k := fun e he => by
    rw [PathEdge.rename, PathEdge.rename, h _ (Graph.mem_names_of_edge (List.mem_map_of_mem he))]
  rw [Walk.rename_eq, Walk.rename_eq, hnode _ List.mem_cons_self]
  congr 1
  refine List.map_congr_left fun s hs => ?_
  rw [Step.rename, Step.rename, hedge _ (List.mem_map_of_mem hs),
    hnode _ (List.mem_cons_of_mem _ (List.mem_map_of_mem hs))]

namespace Graph

/-- The graph with the name of every node and of every edge replaced. -/
def rename (g : Graph) (f : String → String) : Graph := g.recast (.rename f)

/-- The graphs look the same. -/
def Alike (g h : Graph) : Prop := g.rename veil = h.rename veil

variable {g h : Graph} {c : Catalog}

/-! ## What alike graphs have in common -/

theorem Alike.refl (g : Graph) : g.Alike g :=
  rfl

/-- What is read off the veiled graph is the same. -/
theorem Alike.read {β : Type} {q : Graph → β} (alike : g.Alike h)
    (hq : ∀ g : Graph, q (g.rename veil) = q g) : q g = q h := by
  rw [← hq g, alike, hq h]

theorem Alike.limits_eq (alike : g.Alike h) : g.limits = h.limits :=
  alike.read fun _ => rfl

theorem Alike.nodeCount_eq (alike : g.Alike h) : g.nodeCount = h.nodeCount :=
  alike.read fun _ => rfl

theorem Alike.edgeCount_eq (alike : g.Alike h) : g.edgeCount = h.edgeCount :=
  alike.read fun _ => rfl

theorem Alike.size_nodes_eq (alike : g.Alike h) : g.nodes.size = h.nodes.size :=
  alike.read (q := fun g => g.nodes.size) fun g => size_nodes_recast g _

theorem Alike.size_edges_eq (alike : g.Alike h) : g.edges.size = h.edges.size :=
  alike.read (q := fun g => g.edges.size) fun g => size_edges_recast g _

theorem Alike.nodeNamed?_eq (alike : g.Alike h) (ha : isAnonymous a = false) :
    g.nodeNamed? a = h.nodeNamed? a :=
  alike.read (q := (·.nodeNamed? a)) fun _ => nodeNamed?_recast fun _ => veil_beq ha

theorem Alike.hasEdge_eq (alike : g.Alike h) (ha : isAnonymous a = false) :
    g.hasEdge a = h.hasEdge a :=
  alike.read (q := (·.hasEdge a)) fun _ => hasEdge_recast fun _ => veil_beq ha

/-! ## Growing alike -/

theorem rename_insertEdge (g : Graph) (f : String → String) (e : PathEdge) (left right : NodeId) :
    (g.insertEdge (e.edgeBetween c left right)).rename f
      = (g.rename f).insertEdge ((e.rename f).edgeBetween c left right) :=
  (recast_insertEdge g (.rename f) _).trans
    (congrArg _ (PathEdge.rename_edgeBetween c f e left right))

theorem rename_offerLabel (g : Graph) (f : String → String) (id : NodeId) (label : Option String) :
    (g.offerLabel c id label).rename f = (g.rename f).offerLabel c id label :=
  recast_offerLabel (r := .rename f) (fun _ => rfl) (fun _ _ => rfl) g id label

theorem rename_findOrMake (g : Graph) (f : String → String) (name : String) :
    (g.findOrMake name).2.rename f
      = if g.hasNode name then g.rename f else (g.rename f).insertNode (.bare (f name)) := by
  unfold findOrMake hasNode
  cases g.nodeNamed? name with
  | some id => rfl
  | none => exact recast_insertNode g (.rename f) _

/-- A node is found or made at the same handle in alike graphs when it is found alike. -/
theorem Alike.joinNode (alike : g.Alike h) {m n : PathNode} (hsame : m.rename veil = n.rename veil)
    (hfound : g.nodeNamed? m.name = h.nodeNamed? n.name) :
    (g.joinNode c m).1 = (h.joinNode c n).1 ∧ (g.joinNode c m).2.Alike (h.joinNode c n).2 := by
  obtain ⟨hname, hlabel⟩ := PathNode.mk.inj hsame
  have hid : (g.findOrMake m.name).1 = (h.findOrMake n.name).1 := by
    unfold findOrMake
    rw [hfound, alike.size_nodes_eq]
    cases h.nodeNamed? n.name <;> rfl
  refine ⟨hid, ?_⟩
  unfold Alike Graph.joinNode
  rw [rename_offerLabel, rename_offerLabel, rename_findOrMake, rename_findOrMake, hid, hlabel,
    hname, alike, hasNode, hasNode, hfound]

/-- Names that look the same and are new if they are anonymous are found alike. -/
theorem Alike.nodeNamed?_of_new (alike : g.Alike h) {rest rest' : List String}
    (new : NewNames g.hasNode (a :: rest)) (new' : NewNames h.hasNode (b :: rest'))
    (hsame : veil a = veil b) : g.nodeNamed? a = h.nodeNamed? b := by
  have none_of : ∀ {g : Graph} {a : String}, g.hasNode a = false → g.nodeNamed? a = none := by
    intro g a ha
    rw [hasNode, Option.isSome_eq_false_iff, Option.isNone_iff_eq_none] at ha
    exact ha
  rcases veil_eq_veil.mp hsame with rfl | ⟨ha, hb⟩
  · cases ha : isAnonymous a with
    | true =>
        rw [none_of (new.free a List.mem_cons_self ha), none_of (new'.free a List.mem_cons_self ha)]
    | false => exact alike.nodeNamed?_eq ha
  · rw [none_of (new.free a List.mem_cons_self ha), none_of (new'.free b List.mem_cons_self hb)]

theorem hasNode_addStep (g : Graph) (left : NodeId) (s : Step) (name : String) :
    (g.addStep c left s).2.hasNode name = (s.target.name == name || g.hasNode name) :=
  (hasNode_congr (nameSlots_insertEdge _ _) name).trans (hasNode_joinNode c g s.target name)

/-- An alike step leaves alike graphs where its node is found alike. -/
theorem Alike.addStep (alike : g.Alike h) (left : NodeId) {s t : Step}
    (hsame : Step.rename veil s = Step.rename veil t)
    (hfound : g.nodeNamed? s.target.name = h.nodeNamed? t.target.name) :
    (g.addStep c left s).1 = (h.addStep c left t).1 ∧
      (g.addStep c left s).2.Alike (h.addStep c left t).2 := by
  obtain ⟨hedge, htarget⟩ := Step.mk.inj hsame
  -- the node on the right is the same, and both graphs have one edge more
  obtain ⟨hid, hjoined⟩ := alike.joinNode (c := c) htarget hfound
  refine ⟨hid, ?_⟩
  unfold Alike Graph.addStep
  rw [rename_insertEdge, rename_insertEdge, hid, hjoined, hedge]

theorem Alike.addSteps (alike : g.Alike h) {left : NodeId} {steps steps' : List Step}
    (hsame : List.Forall₂ (fun s t => Step.rename veil s = Step.rename veil t) steps steps')
    (new : NewNames g.hasNode (steps.map fun s => s.target.name))
    (new' : NewNames h.hasNode (steps'.map fun s => s.target.name)) :
    (g.addSteps c left steps).Alike (h.addSteps c left steps') := by
  -- both walks are followed at once, and the names to come are still new after a step
  induction hsame generalizing g h left with
  | nil => exact alike
  | @cons s t rest rest' hstep _ ih =>
      obtain ⟨-, htarget⟩ := Step.mk.inj hstep
      obtain ⟨hid, hadded⟩ := alike.addStep (c := c) left hstep
        (alike.nodeNamed?_of_new new new' (congrArg PathNode.name htarget))
      rw [Graph.addSteps, Graph.addSteps, hid]
      exact ih hadded (new.tail (hasNode_addStep g left s)) (new'.tail (hasNode_addStep h left t))

variable {w w' : Walk}

/-- Alike walks with new anonymous names make alike graphs of alike graphs. -/
theorem Alike.extend (alike : g.Alike h) (hsame : w.rename veil = w'.rename veil)
    (new : NewNames g.hasNode (w.nodes.map PathNode.name))
    (new' : NewNames h.hasNode (w'.nodes.map PathNode.name)) :
    (g.extend c w).Alike (h.extend c w') := by
  obtain ⟨hstart, hsteps⟩ := Walk.mk.inj hsame
  rw [Walk.nodes, List.map_cons, List.map_map] at new new'
  obtain ⟨hid, hjoined⟩ := alike.joinNode (c := c) hstart
    (alike.nodeNamed?_of_new new new' (congrArg PathNode.name hstart))
  rw [Graph.extend, Graph.extend, hid]
  exact hjoined.addSteps (forall₂_of_map_eq hsteps) (new.tail (hasNode_joinNode c g w.start))
    (new'.tail (hasNode_joinNode c h w'.start))

/-! ## Accepting alike -/

theorem mapError_bind {f : GraphError → GraphError} {x y : Except GraphError Unit}
    {k l : Unit → Except GraphError Unit} (h : x.mapError f = y.mapError f)
    (hnext : (k ()).mapError f = (l ()).mapError f) :
    (x >>= k).mapError f = (y >>= l).mapError f := by
  cases x <;> cases y <;> first | exact h | exact hnext | cases h

theorem freshEdgeName_eq (g : Graph) (seen : List String) (name : String) :
    g.freshEdgeName seen name
      = if seen.contains name || g.hasEdge name then .error (.duplicateEdge name) else .ok () := by
  unfold freshEdgeName freeEdgeName
  cases seen.contains name <;> rfl

theorem contains_cons_or {seen : List String} {bound : String → Bool} (a b : String) :
    ((a :: seen).contains b || bound b) = (a == b || (seen.contains b || bound b)) := by
  rw [List.contains_cons, BEq.comm, Bool.or_assoc]

/-- A range is refused whatever the relationship is named. -/
theorem checkRange_alike {d e : PathEdge} (hsame : d.rename veil = e.rename veil) :
    d.checkRange.mapError (GraphError.rename veil)
      = e.checkRange.mapError (GraphError.rename veil) := by
  obtain ⟨hname, -, -, hrange⟩ := PathEdge.mk.inj hsame
  rw [PathEdge.checkRange, PathEdge.checkRange, PathEdge.hops, PathEdge.hops, hrange]
  cases (Hops.ofRange e.range).inverted? with
  | none => rfl
  | some range =>
      exact congrArg (fun name => Except.error (GraphError.invalidHopRange name range.1 range.2))
        hname

/-- The relationships of alike walks are accepted together, whatever was seen of plain names. -/
theorem Alike.acceptEdges (alike : g.Alike h) {seen seen' : List String}
    {edges edges' : List PathEdge}
    (hsame : List.Forall₂ (fun d e => PathEdge.rename veil d = PathEdge.rename veil e) edges edges')
    (hseen : ∀ a, isAnonymous a = false → seen.contains a = seen'.contains a)
    (new : NewNames (fun a => seen.contains a || g.hasEdge a) (edges.map PathEdge.name))
    (new' : NewNames (fun a => seen'.contains a || h.hasEdge a) (edges'.map PathEdge.name)) :
    (g.acceptEdges seen edges).mapError (GraphError.rename veil)
      = (h.acceptEdges seen' edges').mapError (GraphError.rename veil) := by
  -- the graphs stay as they are, and the names that were seen grow
  induction hsame generalizing seen seen' with
  | nil => rfl
  | @cons d e rest rest' hedge _ ih =>
      obtain ⟨hname, -, htypes, -⟩ := PathEdge.mk.inj hedge
      have htaken := new.taken_eq new'
        (fun a ha => by rw [hseen a ha, alike.hasEdge_eq ha]) hname
      rw [Graph.acceptEdges, Graph.acceptEdges]
      refine mapError_bind ?_ (mapError_bind (checkRange_alike hedge) (mapError_bind ?_ ?_))
      · rw [freshEdgeName_eq, freshEdgeName_eq, htaken]
        split
        · exact congrArg (Except.error ∘ GraphError.duplicateEdge) hname
        · rfl
      · rw [roomForTypes, roomForTypes, alike.limits_eq, htypes]
      · refine ih ?_ (new.tail (contains_cons_or d.name)) (new'.tail (contains_cons_or e.name))
        -- a plain name is the one that was seen last in both runs or in neither
        intro a ha
        rw [List.contains_cons, List.contains_cons, hseen a ha, BEq.comm, ← veil_beq ha, hname,
          veil_beq ha, BEq.comm]

/-- Alike walks with new anonymous names are accepted by alike graphs together, or refused for
    the same cause. -/
theorem Alike.accept (alike : g.Alike h) (hsame : w.rename veil = w'.rename veil)
    (nodes : NewNames g.hasNode (w.nodes.map PathNode.name))
    (nodes' : NewNames h.hasNode (w'.nodes.map PathNode.name))
    (edges : NewNames g.hasEdge (w.edges.map PathEdge.name))
    (edges' : NewNames h.hasEdge (w'.edges.map PathEdge.name)) :
    (g.accept w).mapError (GraphError.rename veil)
      = (h.accept w').mapError (GraphError.rename veil) := by
  obtain ⟨-, hsteps⟩ := Walk.mk.inj hsame
  have hedges : w.edges.map (PathEdge.rename veil) = w'.edges.map (PathEdge.rename veil) := by
    have hmap := congrArg (List.map Step.edge) hsteps
    rw [List.map_map, List.map_map] at hmap
    rw [Walk.edges, Walk.edges, List.map_map, List.map_map]
    exact hmap
  -- the new names are counted by what they add
  have hcount : (g.newNodeNames w).length = (h.newNodeNames w').length := by
    have hsize := (alike.extend (c := .empty) hsame nodes nodes').size_nodes_eq
    rw [size_nodes_extend, size_nodes_extend, alike.size_nodes_eq] at hsize
    omega
  have hlength : w.steps.length = w'.steps.length := by
    simpa using congrArg List.length hsteps
  rw [Graph.accept, Graph.accept]
  refine mapError_bind ?_ (mapError_bind ?_ ?_)
  · exact alike.acceptEdges (forall₂_of_map_eq hedges) (fun _ _ => rfl) edges edges'
  · rw [roomForNodes, roomForNodes, alike.limits_eq, alike.nodeCount_eq, hcount]
  · rw [roomForEdges, roomForEdges, alike.limits_eq, alike.edgeCount_eq, hlength]

/-! ## Renamed walks -/

theorem KeepsApart.veil_eq {f : String → String} (apart : g.KeepsApart w f) (ha : a ∈ w.names) :
    veil (f a) = veil a := by
  cases hanon : isAnonymous a with
  | false => rw [apart.kept a ha (.inl hanon)]
  | true =>
      cases hbound : g.binds a with
      | false => rw [apart.kept a ha (.inr hbound)]
      | true => exact veil_eq_veil.mpr (.inr ⟨(apart.fresh a ha hanon hbound).1, hanon⟩)

/-- The walk looks the same under the names by which the graph will know it. -/
theorem rename_veil_renamed (g : Graph) (w : Walk) :
    (g.renamed w).rename veil = w.rename veil := by
  rw [renamed, Walk.rename_rename]
  exact Walk.rename_congr fun a ha => (g.keepsApart_renamingFor w).veil_eq ha

/-- Anonymous names that are written once stand for new names that are written once. -/
theorem KeepsApart.newNames {f : String → String} (apart : g.KeepsApart w f)
    {taken : String → Bool} (htaken : ∀ a, g.binds a = false → taken a = false)
    {names : List String} (hsub : names.Sublist w.names)
    (once : (w.names.filter isAnonymous).Nodup) : NewNames taken (names.map f) := by
  have hanon : ∀ a ∈ names, isAnonymous (f a) = isAnonymous a := by
    intro a ha
    rw [← isAnonymous_veil, apart.veil_eq (hsub.subset ha), isAnonymous_veil]
  refine ⟨?_, ?_⟩
  · intro b hb hbanon
    -- what was written was anonymous, so it stands for a free name
    obtain ⟨a, ha, rfl⟩ := List.mem_map.mp hb
    rw [hanon a ha] at hbanon
    exact htaken _ (apart.binds_eq_false (hsub.subset ha) hbanon)
  · have hfilter : names.filter (isAnonymous ∘ f) = names.filter isAnonymous :=
      List.filter_congr hanon
    rw [List.filter_map, hfilter]
    refine List.Nodup.map_on ?_ (once.sublist (hsub.filter _))
    intro a ha b hb hab
    exact apart.inj a (hsub.subset (List.mem_filter.mp ha).1) b
      (hsub.subset (List.mem_filter.mp hb).1) hab

theorem newNames_renamed (g : Graph) (once : (w.names.filter isAnonymous).Nodup) :
    NewNames g.hasNode ((g.renamed w).nodes.map PathNode.name) ∧
      NewNames g.hasEdge ((g.renamed w).edges.map PathEdge.name) := by
  have apart := g.keepsApart_renamingFor w
  rw [renamed, nodeNames_rename, edgeNames_rename]
  exact ⟨apart.newNames (fun _ h => (Bool.or_eq_false_iff.mp h).1)
      (List.sublist_append_left _ _) once,
    apart.newNames (fun _ h => (Bool.or_eq_false_iff.mp h).2) (List.sublist_append_right _ _) once⟩

end Graph

/-! ## Paths -/

namespace Edit

variable {g h : Graph} {c : Catalog}

/-- What a result looks like. -/
def veiled {α : Type} : EStateM.Result GraphError Graph α → EStateM.Result GraphError Graph α
  | .ok a g => .ok a (g.rename veil)
  | .error e g => .error (e.rename veil) (g.rename veil)

theorem veiled_ok {α : Type} (a : α) (alike : g.Alike h) : veiled (.ok a g) = veiled (.ok a h) :=
  congrArg (EStateM.Result.ok a) alike

theorem veiled_error {α : Type} {e e' : GraphError} (hsame : e.rename veil = e'.rename veil)
    (alike : g.Alike h) : veiled (.error e g : EStateM.Result GraphError Graph α)
      = veiled (.error e' h) :=
  congrArg₂ EStateM.Result.error hsame alike

/-- Alike steps are added to alike graphs with results that look the same, also where they run out
    of slots. -/
theorem veiled_addSteps (alike : g.Alike h) {left : NodeId} {steps steps' : List Step}
    (hsame : List.Forall₂ (fun s t => Step.rename veil s = Step.rename veil t) steps steps')
    (new : NewNames g.hasNode (steps.map fun s => s.target.name))
    (new' : NewNames h.hasNode (steps'.map fun s => s.target.name)) :
    veiled (addSteps c left steps g) = veiled (addSteps c left steps' h) := by
  induction hsame generalizing g h left with
  | nil => exact veiled_ok () alike
  | @cons s t rest rest' hstep _ ih =>
      obtain ⟨-, htarget⟩ := Step.mk.inj hstep
      have hfound := alike.nodeNamed?_of_new new new' (congrArg PathNode.name htarget)
      obtain ⟨hid, hadded⟩ := alike.addStep (c := c) left hstep hfound
      have hjoined := (alike.joinNode (c := c) htarget hfound).2
      have hl := addStep_eq c left s g
      have hr := addStep_eq c left t h
      rw [Graph.hasNode, hfound, alike.size_nodes_eq, alike.size_edges_eq] at hl
      rw [Graph.hasNode] at hr
      rw [addSteps, addSteps]
      -- both graphs have slots for the node and for the edge, or neither has
      split at hl
      next hnode =>
        rw [if_pos hnode] at hr
        split at hl
        next hedge =>
          rw [if_pos hedge] at hr
          rw [bind_ok hl, bind_ok hr, hid]
          exact ih hadded (new.tail (Graph.hasNode_addStep g left s))
            (new'.tail (Graph.hasNode_addStep h left t))
        next hedge =>
          rw [if_neg hedge] at hr
          rw [bind_error hl, bind_error hr, noEdgeSlot, noEdgeSlot, alike.size_edges_eq]
          exact veiled_error rfl hjoined
      next hnode =>
        rw [if_neg hnode] at hr
        rw [bind_error hl, bind_error hr, noNodeSlot, noNodeSlot, alike.size_nodes_eq]
        exact veiled_error rfl alike

/-- Alike walks with new anonymous names are added to alike graphs with results that look the
    same. -/
theorem veiled_addWalk (alike : g.Alike h) {w w' : Walk} (hsame : w.rename veil = w'.rename veil)
    (new : NewNames g.hasNode (w.nodes.map PathNode.name))
    (new' : NewNames h.hasNode (w'.nodes.map PathNode.name)) :
    veiled (addWalk c w g) = veiled (addWalk c w' h) := by
  obtain ⟨hstart, hsteps⟩ := Walk.mk.inj hsame
  rw [Walk.nodes, List.map_cons, List.map_map] at new new'
  have hfound := alike.nodeNamed?_of_new new new' (congrArg PathNode.name hstart)
  obtain ⟨hid, hjoined⟩ := alike.joinNode (c := c) hstart hfound
  -- alike graphs have equally many slots, so both are refused or neither is
  have hl := joinNode_eq c w.start g
  have hr := joinNode_eq c w'.start h
  rw [Graph.hasNode, hfound, alike.size_nodes_eq] at hl
  rw [Graph.hasNode] at hr
  rw [addWalk, addWalk]
  split at hl
  next hnode =>
    rw [if_pos hnode] at hr
    rw [bind_ok hl, bind_ok hr, hid]
    exact veiled_addSteps hjoined (forall₂_of_map_eq hsteps)
      (new.tail (Graph.hasNode_joinNode c g w.start))
      (new'.tail (Graph.hasNode_joinNode c h w'.start))
  next hnode =>
    rw [if_neg hnode] at hr
    rw [bind_error hl, bind_error hr, noNodeSlot, noNodeSlot, alike.size_nodes_eq]
    exact veiled_error rfl alike

/-- Adding alike paths to alike graphs has results that look the same, if their anonymous names
    are written once. -/
theorem veiled_addPath (alike : g.Alike h) {p q : Path}
    (hsame : p.walk?.map (Walk.rename veil) = q.walk?.map (Walk.rename veil))
    (once : ∀ w, p.walk? = .ok w → (w.names.filter isAnonymous).Nodup)
    (once' : ∀ w, q.walk? = .ok w → (w.names.filter isAnonymous).Nodup) :
    veiled (addPath c p g) = veiled (addPath c q h) := by
  rw [addPath_eq, addPath_eq]
  cases hp : p.walk? <;> cases hq : q.walk? <;> rw [hp, hq] at hsame
  case error.ok => cases hsame
  case ok.error => cases hsame
  case error.error =>
    cases hsame
    exact veiled_error rfl alike
  case ok.ok w w' =>
    -- the two walks may be renamed differently, but neither renaming is seen
    have hwalk : (g.renamed w).rename veil = (h.renamed w').rename veil := by
      rw [Graph.rename_veil_renamed, Graph.rename_veil_renamed]
      exact Except.ok.inj hsame
    obtain ⟨nodes, edges⟩ := g.newNames_renamed (once w hp)
    obtain ⟨nodes', edges'⟩ := h.newNames_renamed (once' w' hq)
    have haccept := alike.accept hwalk nodes nodes' edges edges'
    dsimp only
    cases hg : g.accept (g.renamed w) <;> cases hh : h.accept (h.renamed w') <;>
      rw [hg, hh] at haccept
    case error.ok => cases haccept
    case ok.error => cases haccept
    case error.error => exact veiled_error (Except.error.inj haccept) alike
    case ok.ok => exact veiled_addWalk alike hwalk nodes nodes'

end Edit

end PatternGraph
