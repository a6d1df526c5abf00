/-
  PatternGraph.Proofs.Extension

  What adding a path does once it is accepted, as functions of the graph: a
  node is found or made, it gets its label if it has none, and every step adds
  one edge.  Only slots can be missing then.  While there are slots the edit that
  adds a walk computes `extend`; where they run out it stops after some of the
  steps or before the edge of one, and leaves a graph that is `OnTheWay`.
-/
import PatternGraph.Edit.Extend
import PatternGraph.Proofs.Names
import PatternGraph.Proofs.SlotLimit

namespace PatternGraph

/-- The edge of a relationship, field by field: it has the types that are written, each with what
    the catalog says of it. -/
theorem PathEdge.edgeBetween_eq (c : Catalog) (e : PathEdge) (left right : NodeId) :
    e.edgeBetween c left right = {
      name := e.name
      src := (e.direction.orient left right).1
      dest := (e.direction.orient left right).2
      types := e.types
      typeRefs := e.types.map c.typeRef
      bidirectional := e.direction == .both
      hops := e.hops } := by
  refine (Edge.withTypes_eq _ _).trans ?_
  simp [Edge.withFlag, Edge.withHops, Function.comp_def, Direction.orient]

@[simp] theorem PathEdge.name_edgeBetween (c : Catalog) (e : PathEdge) (left right : NodeId) :
    (e.edgeBetween c left right).name = e.name := by
  rw [edgeBetween_eq]

namespace Graph

variable {g h : Graph} {c : Catalog}

/-- Gives a node a written label, unless it has one already. -/
def offerLabel (c : Catalog) (g : Graph) (id : NodeId) (label : Option String) : Graph :=
  match label with
  | none => g
  | some label =>
    g.modifyNode id fun n => if n.isLabelled then n else n.withLabel label (c.labelRef label)

/-- The node of that name, made if there is none. -/
def findOrMake (g : Graph) (name : String) : NodeId × Graph :=
  match g.nodeNamed? name with
  | some id => (id, g)
  | none => (⟨g.nodes.size⟩, g.insertNode (.bare name))

/-- Finds or makes a node and offers it its label. -/
def joinNode (c : Catalog) (g : Graph) (n : PathNode) : NodeId × Graph :=
  ((g.findOrMake n.name).1,
    (g.findOrMake n.name).2.offerLabel c (g.findOrMake n.name).1 n.label)

/-- Adds one step from the node on its left; the node on its right is given back. -/
def addStep (c : Catalog) (g : Graph) (left : NodeId) (s : Step) : NodeId × Graph :=
  ((g.joinNode c s.target).1,
    (g.joinNode c s.target).2.insertEdge (s.edge.edgeBetween c left (g.joinNode c s.target).1))

/-- Adds steps from a node on. -/
def addSteps (c : Catalog) : (g : Graph) → (left : NodeId) → List Step → Graph
  | g, _, [] => g
  | g, left, s :: rest => (g.addStep c left s).2.addSteps c (g.addStep c left s).1 rest

/-- Adds a walk. -/
def extend (c : Catalog) (g : Graph) (w : Walk) : Graph :=
  (g.joinNode c w.start).2.addSteps c (g.joinNode c w.start).1 w.steps

/-- The node that is found or made is live and bears the name. -/
theorem nameOf?_findOrMake (g : Graph) (name : String) :
    (g.findOrMake name).2.nameOf? (g.findOrMake name).1 = some name := by
  unfold findOrMake
  split
  next id hid => exact nameOf?_of_nodeNamed? hid
  next => rw [nameOf?, node?_insertNode_self]; rfl

/-- A graph on the way from `g` to its extension by a walk: some steps are done, or the node of one
    more is joined but its edge is not there. -/
inductive OnTheWay (c : Catalog) (g : Graph) (w : Walk) : Graph → Prop where
  | steps {taken left : List Step} (cut : w.steps = taken ++ left) :
      OnTheWay c g w (g.extend c ⟨w.start, taken⟩)
  | joined {taken left : List Step} {s : Step} (cut : w.steps = taken ++ s :: left) :
      OnTheWay c g w ((g.extend c ⟨w.start, taken⟩).joinNode c s.target).2

/-- The node at which steps stop. -/
def stopOf (c : Catalog) : (g : Graph) → (left : NodeId) → List Step → NodeId
  | _, left, [] => left
  | g, left, s :: rest => stopOf c (g.addStep c left s).2 (g.addStep c left s).1 rest

/-- The node at which a walk stops. -/
def stop (c : Catalog) (g : Graph) (w : Walk) : NodeId :=
  (g.joinNode c w.start).2.stopOf c (g.joinNode c w.start).1 w.steps

/-- Steps are taken as their first part and then, from where it stops, the others. -/
theorem addSteps_append (c : Catalog) (g : Graph) (left : NodeId) (pre post : List Step) :
    g.addSteps c left (pre ++ post)
      = (g.addSteps c left pre).addSteps c (g.stopOf c left pre) post := by
  induction pre generalizing g left with
  | nil => rfl
  | cons s rest ih =>
      rw [List.cons_append, addSteps, ih]
      rfl

/-- A walk is added as its first steps and then, from where these stop, the others. -/
theorem extend_eq_addSteps {w : Walk} {taken left : List Step} (cut : w.steps = taken ++ left) :
    g.extend c w
      = (g.extend c ⟨w.start, taken⟩).addSteps c (g.stop c ⟨w.start, taken⟩) left := by
  rw [extend, cut, addSteps_append]
  rfl

/-- On the way some steps are done, or only an edge is missing for that. -/
theorem OnTheWay.exists_steps {w : Walk} (way : g.OnTheWay c w h) :
    ∃ taken left, w.steps = taken ++ left ∧
      (h = g.extend c ⟨w.start, taken⟩ ∨ ∃ e, h.insertEdge e = g.extend c ⟨w.start, taken⟩) := by
  cases way with
  | @steps taken left cut => exact ⟨taken, left, cut, .inl rfl⟩
  | @joined taken left s cut =>
      refine ⟨taken ++ [s], left, by rw [cut, List.append_assoc]; rfl, .inr ?_⟩
      exact ⟨_, (extend_eq_addSteps (w := ⟨w.start, taken ++ [s]⟩) rfl).symm⟩

/-- The extension is the end of the way. -/
theorem OnTheWay.extend (c : Catalog) (g : Graph) (w : Walk) : OnTheWay c g w (g.extend c w) :=
  .steps (List.append_nil w.steps).symm

/-! ### How many slots there are -/

theorem size_nodes_findOrMake (g : Graph) (name : String) :
    (g.findOrMake name).2.nodes.size = g.nodes.size + if g.hasNode name then 0 else 1 := by
  unfold findOrMake hasNode
  cases g.nodeNamed? name with
  | none => exact size_nodes_insertNode g _
  | some id => rfl

theorem size_nodes_offerLabel (c : Catalog) (g : Graph) (id : NodeId) (label : Option String) :
    (g.offerLabel c id label).nodes.size = g.nodes.size := by
  cases label with
  | none => rfl
  | some label => exact size_nodes_modifyNode _ _ _

theorem size_nodes_joinNode (c : Catalog) (g : Graph) (n : PathNode) :
    (g.joinNode c n).2.nodes.size = g.nodes.size + if g.hasNode n.name then 0 else 1 :=
  (size_nodes_offerLabel c _ _ _).trans (size_nodes_findOrMake g n.name)

theorem size_edges_joinNode (c : Catalog) (g : Graph) (n : PathNode) :
    (g.joinNode c n).2.edges.size = g.edges.size := by
  have hoffer : ∀ (h : Graph) id label, (h.offerLabel c id label).edges = h.edges := by
    intro h id label
    cases label <;> rfl
  refine (congrArg Slots.size (hoffer _ _ _)).trans ?_
  unfold findOrMake
  split <;> rfl

theorem size_edges_addSteps (c : Catalog) (g : Graph) (left : NodeId) (steps : List Step) :
    (g.addSteps c left steps).edges.size = g.edges.size + steps.length := by
  induction steps generalizing g left with
  | nil => rfl
  | cons s rest ih =>
      rw [Graph.addSteps, ih, Graph.addStep, size_edges_insertEdge, size_edges_joinNode,
        List.length_cons, Nat.add_assoc, Nat.add_comm 1]

theorem le_size_nodes_addSteps (c : Catalog) (g : Graph) (left : NodeId) (steps : List Step) :
    g.nodes.size ≤ (g.addSteps c left steps).nodes.size := by
  induction steps generalizing g left with
  | nil => exact Nat.le_refl _
  | cons s rest ih =>
      refine Nat.le_trans ?_ (ih _ _)
      rw [Graph.addStep, size_nodes_insertEdge, size_nodes_joinNode]
      exact Nat.le_add_right _ _

theorem size_edges_extend (c : Catalog) (g : Graph) (w : Walk) :
    (g.extend c w).edges.size = g.edges.size + w.steps.length := by
  rw [Graph.extend, size_edges_addSteps, size_edges_joinNode]

end Graph

/-! ## The edits compute these functions while there are slots -/

namespace Edit

open PatternGraph.Graph

variable {g : Graph} {c : Catalog}

/-- Labelling a live node does not fail; it is told whether the node had no label. -/
theorem setLabel_eq {id : NodeId} {n : Node} (hn : g.node? id = some n) (label : String) :
    setLabel c id label g = .ok (!n.isLabelled) (g.offerLabel c id (some label)) := by
  have hlive : g.liveNode id = .ok n := by rw [liveNode, hn]
  -- only the node itself matters, and whether it has a label is known
  have hnode : ∀ m, g.node? id = some m → m = n := by
    intro m hm
    rw [hn] at hm
    exact (Option.some.inj hm).symm
  rw [setLabel, check_bind_ok hlive]
  by_cases hl : n.isLabelled
  · have hsame : g.offerLabel c id (some label) = g :=
      modifyNode_of_fixed fun m hm => by rw [hnode m hm, if_pos hl]
    rw [if_pos hl, hsame, hl]
    rfl
  · have hgiven : g.offerLabel c id (some label)
        = g.modifyNode id (·.withLabel label (c.labelRef label)) :=
      modifyNode_congr fun m hm => by rw [hnode m hm, if_neg hl]
    rw [if_neg hl, hgiven, Bool.eq_false_iff.mpr hl]
    rfl

theorem setLabel_ok {id : NodeId} (h : (g.node? id).isSome) (label : String) :
    ∃ b, setLabel c id label g = .ok b (g.offerLabel c id (some label)) := by
  obtain ⟨n, hn⟩ := Option.isSome_iff_exists.mp h
  exact ⟨_, setLabel_eq hn label⟩

/-- Joining a node fails only where it has to be made and gets no slot. -/
theorem joinNode_eq (c : Catalog) (n : PathNode) (g : Graph) :
    joinNode c n g =
      if g.hasNode n.name ∨ g.nodes.size < slotLimit then
        .ok (g.joinNode c n).1 (g.joinNode c n).2
      else .error (noNodeSlot g) g := by
  have hlive := isSome_node?_of_nameOf? (g.nameOf?_findOrMake n.name)
  unfold joinNode Graph.joinNode hasNode findOrMake at *
  rw [ask_bind]
  -- a label goes to a node that is there by then
  have hlabel {h : Graph} {id : NodeId} (hid : (h.node? id).isSome) (label : String) :
      (discard (setLabel c id label) >>= fun _ => pure id : Edit NodeId) h
        = .ok id (h.offerLabel c id (some label)) := by
    obtain ⟨b, hb⟩ := setLabel_ok (c := c) hid label
    exact bind_ok (discard_ok hb)
  cases hnamed : g.nodeNamed? n.name with
  | some id =>
      rw [hnamed] at hlive
      rw [if_pos (.inl rfl)]
      cases n.label with
      | none => rfl
      | some label => exact hlabel hlive label
  | none =>
      rw [hnamed] at hlive
      by_cases hslot : g.nodes.size < slotLimit
      · rw [if_pos (.inr hslot)]
        refine (bind_ok (newNode_ok _ hslot)).trans ?_
        cases n.label with
        | none => rfl
        | some label => exact hlabel hlive label
      · rw [if_neg (by simp [hslot])]
        exact bind_error (newNode_error _ hslot)

theorem joinNode_ok {n : PathNode} (h : (g.joinNode c n).2.nodes.size ≤ slotLimit) :
    joinNode c n g = .ok (g.joinNode c n).1 (g.joinNode c n).2 := by
  rw [joinNode_eq, if_pos]
  rw [size_nodes_joinNode] at h
  split at h
  next hnode => exact .inl hnode
  next => exact .inr h

theorem addStep_eq (c : Catalog) (left : NodeId) (s : Step) (g : Graph) :
    addStep c left s g =
      if g.hasNode s.target.name ∨ g.nodes.size < slotLimit then
        if g.edges.size < slotLimit then .ok (g.addStep c left s).1 (g.addStep c left s).2
        else .error (noEdgeSlot g) (g.joinNode c s.target).2
      else .error (noNodeSlot g) g := by
  have hjoin := joinNode_eq c s.target g
  have hsize := size_edges_joinNode c g s.target
  split at hjoin
  next hnode =>
    rw [if_pos hnode, addStep, bind_ok hjoin]
    split
    next hedge => exact bind_ok (discard_ok (newEdge_ok _ (hsize ▸ hedge)))
    next hedge =>
      have hnone := newEdge_error (s.edge.edgeBetween c left (g.joinNode c s.target).1)
        (g := (g.joinNode c s.target).2) (hsize ▸ hedge)
      rw [noEdgeSlot, hsize] at hnone
      exact bind_error (discard_error hnone)
  next hnode =>
    rw [if_neg hnode, addStep]
    exact bind_error hjoin

theorem addSteps_ok {left : NodeId} {steps : List Step}
    (h : (g.addSteps c left steps).HasSlots 0 0) :
    addSteps c left steps g = .ok () (g.addSteps c left steps) := by
  induction steps generalizing g left with
  | nil => rfl
  | cons s rest ih =>
      -- later steps give no slot back, so there is one for this step
      have hnodes := Nat.le_trans (le_size_nodes_addSteps c _ _ rest) h.nodes
      have hedges := h.edges
      rw [Graph.addStep, size_nodes_insertEdge] at hnodes
      rw [size_edges_addSteps, List.length_cons] at hedges
      have hstep : addStep c left s g = .ok (g.addStep c left s).1 (g.addStep c left s).2 := by
        rw [addStep, bind_ok (joinNode_ok hnodes)]
        refine bind_ok (discard_ok (newEdge_ok _ ?_))
        rw [size_edges_joinNode]
        omega
      rw [addSteps, bind_ok hstep, ih h]
      rfl

/-- Adding a walk does not fail while there are slots for it. -/
theorem addWalk_ok {w : Walk} (h : (g.extend c w).HasSlots 0 0) :
    addWalk c w g = .ok () (g.extend c w) := by
  have hnodes := Nat.le_trans (le_size_nodes_addSteps c _ _ w.steps) h.nodes
  rw [addWalk, bind_ok (joinNode_ok hnodes), addSteps_ok h]
  rfl

/-- Steps are all added, or some of them and perhaps the node of one more. -/
theorem addSteps_cases (c : Catalog) (left : NodeId) (steps : List Step) (g : Graph) :
    addSteps c left steps g = .ok () (g.addSteps c left steps) ∨
      ∃ e taken, e.lacksSlot = true ∧
        ((addSteps c left steps g = .error e (g.addSteps c left taken) ∧
            ∃ rest, steps = taken ++ rest) ∨
          ∃ s, addSteps c left steps g
              = .error e ((g.addSteps c left taken).joinNode c s.target).2 ∧
            ∃ rest, steps = taken ++ s :: rest) := by
  induction steps generalizing g left with
  | nil => exact .inl rfl
  | cons s rest ih =>
      have hstep := addStep_eq c left s g
      rw [addSteps]
      split at hstep
      next hnode =>
        split at hstep
        next hedge =>
          rw [bind_ok hstep]
          -- what the later steps do is put after the first one
          rcases ih (g.addStep c left s).1 (g.addStep c left s).2 with
            hok | ⟨e, taken, lacks, ⟨herr, later, rfl⟩ | ⟨t, herr, later, rfl⟩⟩
          · exact .inl hok
          · exact .inr ⟨e, s :: taken, lacks, .inl ⟨herr, later, rfl⟩⟩
          · exact .inr ⟨e, s :: taken, lacks, .inr ⟨t, herr, later, rfl⟩⟩
        next => exact .inr ⟨_, [], lacksSlot_noEdgeSlot g, .inr ⟨s, bind_error hstep, rest, rfl⟩⟩
      next => exact .inr ⟨_, [], lacksSlot_noNodeSlot g, .inl ⟨bind_error hstep, s :: rest, rfl⟩⟩

/-- A walk is added, or the edit stops on the way for want of a slot. -/
theorem addWalk_cases (c : Catalog) (w : Walk) (g : Graph) :
    addWalk c w g = .ok () (g.extend c w) ∨
      ∃ e g', addWalk c w g = .error e g' ∧ e.lacksSlot = true ∧ (g' = g ∨ g.OnTheWay c w g') := by
  have hjoin := joinNode_eq c w.start g
  rw [addWalk]
  split at hjoin
  next =>
    rw [bind_ok hjoin]
    rcases addSteps_cases c (g.joinNode c w.start).1 w.steps (g.joinNode c w.start).2 with
      hok | ⟨e, taken, lacks, ⟨herr, rest, hcut⟩ | ⟨s, herr, rest, hcut⟩⟩
    · exact .inl hok
    · exact .inr ⟨e, _, herr, lacks, .inr (.steps hcut)⟩
    · exact .inr ⟨e, _, herr, lacks, .inr (.joined hcut)⟩
  next => exact .inr ⟨_, g, bind_error hjoin, lacksSlot_noNodeSlot g, .inl rfl⟩

/-- A walk that is added leaves its extension. -/
theorem addWalk_eq_extend {w : Walk} {g' : Graph} (h : addWalk c w g = .ok () g') :
    g' = g.extend c w := by
  rcases addWalk_cases c w g with hok | ⟨_, _, herr, -⟩
  · rw [hok] at h
    cases h
    rfl
  · rw [herr] at h
    cases h

/-- Adding a path is adding its walk under new names, if that is accepted. -/
theorem addPath_eq (c : Catalog) (p : Path) (g : Graph) :
    addPath c p g =
      match p.walk? with
      | .error defect => .error (.malformedPath defect) g
      | .ok w =>
        match g.accept (g.renamed w) with
        | .error e => .error e g
        | .ok () => addWalk c (g.renamed w) g := by
  unfold addPath
  cases hw : p.walk? with
  | error defect => exact check_bind_error (by simp only)
  | ok w =>
      rw [check_bind_ok (a := g.renamed w) (by simp only)]
      cases hacc : g.accept (g.renamed w) with
      | error e => exact (check_bind_error (q := (·.accept _)) hacc).trans (by simp only [hacc])
      | ok _ =>
          rw [check_bind_ok hacc]
          simp only [hacc]

/-- Of a path whose walk is accepted that walk is added. -/
theorem addPath_of_accept {p : Path} {w : Walk} (hw : p.walk? = .ok w)
    (hacc : g.accept (g.renamed w) = .ok ()) : addPath c p g = addWalk c (g.renamed w) g := by
  rw [addPath_eq, hw]
  simp only [hacc]

/-- A path is refused before the graph is touched, or it writes a walk that is accepted. -/
theorem addPath_cases (c : Catalog) (p : Path) (g : Graph) :
    (∃ e, addPath c p g = .error e g) ∨
      ∃ w, p.walk? = .ok w ∧ g.accept (g.renamed w) = .ok () := by
  have hrun := addPath_eq c p g
  cases hw : p.walk? with
  | error defect =>
      rw [hw] at hrun
      exact .inl ⟨_, hrun⟩
  | ok w =>
      cases hacc : g.accept (g.renamed w) with
      | error e =>
          simp only [hw, hacc] at hrun
          exact .inl ⟨_, hrun⟩
      | ok _ => exact .inr ⟨w, rfl, hacc⟩

/-- A path that is added writes a walk that is accepted under its new names. -/
theorem addPath_eq_extend {p : Path} {g' : Graph} (h : addPath c p g = .ok () g') :
    ∃ w, p.walk? = .ok w ∧ g.accept (g.renamed w) = .ok () ∧ g' = g.extend c (g.renamed w) := by
  rcases addPath_cases c p g with ⟨e, herr⟩ | ⟨w, hw, hacc⟩
  · rw [herr] at h
    cases h
  · exact ⟨w, hw, hacc, addWalk_eq_extend (addPath_of_accept hw hacc ▸ h)⟩

/-! ### Slots stay below the limit -/

theorem keeps_slots_setLabel (c : Catalog) (id : NodeId) (label : String) :
    (setLabel c id label).Keeps (·.HasSlots 0 0) := by
  refine .bind (.check _) fun n => ?_
  split
  · exact .pure _
  · refine .bind (.modify fun g hslots => ?_) fun _ => .pure _
    exact (hasSlots_iff (size_nodes_modifyNode g _ _) (size_edges_modifyNode g _ _)).mpr hslots

theorem keeps_slots_joinNode (c : Catalog) (n : PathNode) :
    (joinNode c n).Keeps (·.HasSlots 0 0) := by
  have hlabel (label : String) (id : NodeId) :
      (discard (setLabel c id label) >>= fun _ => pure id : Edit NodeId).Keeps (·.HasSlots 0 0) :=
    .bind (keeps_slots_setLabel c id label).discard fun _ => .pure _
  refine .bind (.ask _) fun found => ?_
  cases found with
  | some id =>
      cases n.label with
      | none => exact .pure _
      | some label => exact hlabel label id
  | none =>
      refine .bind (keeps_slots_newNode _) fun id => ?_
      cases n.label with
      | none => exact .pure _
      | some label => exact hlabel label id

theorem keeps_slots_addStep (c : Catalog) (left : NodeId) (s : Step) :
    (addStep c left s).Keeps (·.HasSlots 0 0) :=
  .bind (keeps_slots_joinNode c s.target) fun _ =>
    .bind (keeps_slots_newEdge _).discard fun _ => .pure _

theorem keeps_slots_addSteps (c : Catalog) (left : NodeId) (steps : List Step) :
    (addSteps c left steps).Keeps (·.HasSlots 0 0) := by
  induction steps generalizing left with
  | nil => exact .pure _
  | cons s rest ih => exact .bind (keeps_slots_addStep c left s) ih

theorem keeps_slots_addPath (c : Catalog) (p : Path) :
    (addPath c p).Keeps (·.HasSlots 0 0) :=
  .bind (.check _) fun w => .bind (.check _) fun _ =>
    .bind (keeps_slots_joinNode c w.start) fun start => keeps_slots_addSteps c start w.steps

end Edit

end PatternGraph
