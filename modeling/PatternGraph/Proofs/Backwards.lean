/-
  PatternGraph.Proofs.Backwards

  A path written backwards means the same.  The graph asks of the two paths the
  same questions in another order.  The edges that they make are the same in
  reverse order, except that an edge without direction starts where it ended.
  The nodes may be joined in any order: the one that is joined first goes
  before the other, and the label that is offered first is taken, but it is the
  only one where no name is written with two labels.
-/
import PatternGraph.Path.Reversed
import PatternGraph.Proofs.Acceptance
import PatternGraph.Proofs.Incremental

namespace PatternGraph

/-! ## Nodes in any order -/

/-- The nodes have different names, or the same label if both have one. -/
def PathNode.Agrees (m n : PathNode) : Prop :=
  m.name = n.name → m.label.isSome → n.label.isSome → m.label = n.label

instance (m n : PathNode) : Decidable (m.Agrees n) :=
  inferInstanceAs (Decidable (_ → _ → _ → _))

section Joining

variable {c : Catalog} {l l' : List NodeContent} {m n : PathNode} {a b : String}

/-- A list with a node of the name, which is added if there is none. -/
def withName (l : List NodeContent) (a : String) : List NodeContent :=
  if l.any (·.name == a) then l else l ++ [.bare a]

theorem joinContents_eq (c : Catalog) (l : List NodeContent) (n : PathNode) :
    joinContents c l n = (withName l n.name).map (·.offer c n.name n.label) :=
  rfl

theorem withName_perm (h : l.Perm l') (a : String) : (withName l a).Perm (withName l' a) := by
  rw [withName, withName, h.any_eq]
  split
  · exact h
  · exact h.append_right _

theorem any_withName (l : List NodeContent) (a b : String) :
    (withName l a).any (·.name == b) = (a == b || l.any (·.name == b)) := by
  rw [withName]
  split
  next hany =>
    by_cases hab : a = b
    · rw [← hab, hany, Bool.or_true]
    · rw [beq_eq_false_iff_ne.mpr hab, Bool.false_or]
  next => simp [NodeContent.bare, Bool.or_comm]

/-- Two names may be added in either order. -/
theorem withName_comm (l : List NodeContent) (a b : String) :
    (withName (withName l a) b).Perm (withName (withName l b) a) := by
  by_cases hab : a = b
  · rw [hab]
  · have hba : ¬ b = a := fun heq => hab heq.symm
    rw [withName, any_withName, withName, withName, any_withName, withName,
      beq_eq_false_iff_ne.mpr hab, beq_eq_false_iff_ne.mpr hba, Bool.false_or, Bool.false_or]
    -- only where both are missing does the order show
    cases l.any (·.name == a) <;> cases l.any (·.name == b)
    case false.false =>
      show (l ++ [_] ++ [_]).Perm (l ++ [_] ++ [_])
      rw [List.append_assoc, List.append_assoc]
      exact (List.Perm.swap _ _ _).append_left l
    all_goals exact .refl _

/-- A name may be added before or after a label is offered to a node that is there. -/
theorem withName_map_offer (ha : l.any (·.name == a) = true) (c : Catalog)
    (label : Option String) (b : String) :
    withName (l.map (·.offer c a label)) b = (withName l b).map (·.offer c a label) := by
  have hnames : (l.map (·.offer c a label)).any (·.name == b) = l.any (·.name == b) := by
    simp only [List.any_map, Function.comp_def, NodeContent.name_offer]
  rw [withName, hnames, withName]
  split
  · rfl
  next hb =>
    -- a name that is missing is another one, and the label is not for it
    have hother : ¬ b = a := fun heq => hb (heq ▸ ha)
    have hbare : (NodeContent.bare b).offer c a label = .bare b :=
      NodeContent.offer_eq_self fun _ hname => absurd hname hother
    rw [List.map_append, List.map_cons, List.map_nil, hbare]

/-- Nodes that agree may offer their labels in either order. -/
theorem NodeContent.offer_comm (agrees : m.Agrees n) (c : Catalog) (d : NodeContent) :
    (d.offer c m.name m.label).offer c n.name n.label
      = (d.offer c n.name n.label).offer c m.name m.label := by
  have hself : ∀ (k : PathNode) (d : NodeContent), ¬ d.name = k.name →
      d.offer c k.name k.label = d := fun k d hne =>
    offer_eq_self fun _ hname => absurd hname hne
  by_cases hname : m.name = n.name
  · cases hm : m.label with
    | none => rfl
    | some label =>
        cases hn : n.label with
        | none => rfl
        | some other =>
            have hsame := agrees hname (by rw [hm]; rfl) (by rw [hn]; rfl)
            rw [hm, hn, Option.some.injEq] at hsame
            rw [hname, hsame]
  -- the node of the one name is not the node of the other
  · by_cases hdn : d.name = n.name
    · have hdm : ¬ d.name = m.name := fun heq => hname (heq.symm.trans hdn)
      rw [hself m d hdm, hself m _ (by rw [name_offer]; exact hdm)]
    · rw [hself n d hdn, hself n _ (by rw [name_offer]; exact hdn)]

theorem joinContents_perm (h : l.Perm l') (n : PathNode) :
    (joinContents c l n).Perm (joinContents c l' n) :=
  (withName_perm h n.name).map _

theorem foldl_joinContents_congr (h : l.Perm l') (ns : List PathNode) :
    (ns.foldl (joinContents c) l).Perm (ns.foldl (joinContents c) l') := by
  induction ns generalizing l l' with
  | nil => exact h
  | cons n rest ih => exact ih (joinContents_perm h n)

/-- Nodes that agree may be joined in either order. -/
theorem joinContents_comm (agrees : m.Agrees n) (c : Catalog) (l : List NodeContent) :
    (joinContents c (joinContents c l m) n).Perm (joinContents c (joinContents c l n) m) := by
  -- all names are added first, and all labels are offered then
  have hthere : ∀ a, (withName l a).any (·.name == a) = true := fun a => by
    rw [any_withName, beq_self_eq_true, Bool.true_or]
  have hsame : (NodeContent.offer c n.name n.label ·) ∘ (NodeContent.offer c m.name m.label ·)
      = (NodeContent.offer c m.name m.label ·) ∘ (NodeContent.offer c n.name n.label ·) :=
    funext (NodeContent.offer_comm agrees c)
  rw [joinContents_eq, joinContents_eq, withName_map_offer (hthere m.name), List.map_map,
    joinContents_eq, joinContents_eq, withName_map_offer (hthere n.name), List.map_map, hsame]
  exact (withName_comm l m.name n.name).map _

/-- Nodes that agree may be joined in any order. -/
theorem foldl_joinContents_perm {ns ms : List PathNode} (order : ns.Perm ms)
    (agrees : ∀ m ∈ ns, ∀ n ∈ ns, m.Agrees n) (l : List NodeContent) :
    (ns.foldl (joinContents c) l).Perm (ms.foldl (joinContents c) l) := by
  -- an order is another one with neighbours exchanged, again and again
  induction order generalizing l with
  | nil => exact .refl l
  | cons n _ ih => exact ih (fun x hx y hy => agrees x (.tail n hx) y (.tail n hy)) _
  | swap n m rest =>
      have hmn : m.Agrees n := agrees m (.head _) n (.tail m (.head rest))
      exact foldl_joinContents_congr (joinContents_comm hmn c l) rest
  | trans first _ ih ih' =>
      exact (ih agrees l).trans
        (ih' (fun x hx y hy => agrees x (first.mem_iff.mpr hx) y (first.mem_iff.mpr hy)) l)

end Joining

/-! ## Edges in reverse order -/

/-- What the edge says whose relationship is written from right to left. -/
def EdgeContent.backwards (d : EdgeContent) : EdgeContent :=
  if d.bidirectional then d.reversed else d

/-- The link as it is written from right to left. -/
def backwardLink (link : String × PathEdge × String) : String × PathEdge × String :=
  (link.2.2, link.2.1.opposite, link.1)

theorem linkContent_backwardLink (c : Catalog) (link : String × PathEdge × String) :
    linkContent c (backwardLink link) = (linkContent c link).backwards := by
  obtain ⟨left, ⟨name, direction, types, range⟩, right⟩ := link
  cases direction <;> rfl

namespace Walk

theorem links_reversedOnto (later : Walk) (steps : List Step) :
    (reversedOnto later steps).links
      = ((linksFrom later.start.name steps).map backwardLink).reverse ++ later.links := by
  induction steps generalizing later with
  | nil => rfl
  | cons s rest ih =>
      rw [reversedOnto, ih, linksFrom, List.map_cons, List.reverse_cons, List.append_assoc]
      rfl

theorem links_reversed (w : Walk) : w.reversed.links = (w.links.map backwardLink).reverse := by
  rw [reversed, links_reversedOnto]
  exact List.append_nil _

/-- The edges of a walk backwards. -/
theorem map_linkContent_reversed (c : Catalog) (w : Walk) :
    w.reversed.links.map (linkContent c)
      = ((w.links.map (linkContent c)).map EdgeContent.backwards).reverse := by
  rw [links_reversed, List.map_reverse, List.map_map, List.map_map]
  congr 2
  exact funext (linkContent_backwardLink c)

end Walk

/-! ## The same questions -/

namespace Graph

variable {g : Graph} {p : Path}

/-- As many nodes are new from either side. -/
theorem arrivals_reversed (g : Graph) (p : Path) : g.arrivals p.reversed = g.arrivals p := by
  -- names are counted once each, so their order does not show
  have hcount : ∀ q : String → Bool,
      (((p.nodes.map PathNode.name).reverse).filter q).eraseDups.length
        = ((p.nodes.map PathNode.name).filter q).eraseDups.length := fun q =>
    length_eraseDups (nodup_eraseDups _) fun a => by
      rw [List.mem_eraseDups, List.mem_filter, List.mem_filter, List.mem_reverse]
  rw [arrivals, arrivals, Path.nodes_reversed, List.map_reverse, hcount, hcount]

theorem length_edges_reversed (p : Path) : p.reversed.edges.length = p.edges.length := by
  rw [Path.edges_reversed, List.length_reverse, List.length_map]

/-- A path that is accepted is accepted backwards. -/
theorem Accepts.reversed (accepts : g.Accepts p) : g.Accepts p.reversed := by
  have hedge : ∀ {P : PathEdge → Prop}, (∀ e ∈ p.edges, P e.opposite) →
      ∀ e ∈ p.reversed.edges, P e := by
    intro P hP e he
    rw [Path.edges_reversed, List.mem_reverse, List.mem_map] at he
    obtain ⟨d, hd, rfl⟩ := he
    exact hP d hd
  have hnames : p.reversed.edges.map PathEdge.name = (p.edges.map PathEdge.name).reverse := by
    rw [Path.edges_reversed, List.map_reverse, List.map_map]
    rfl
  exact
    { alternates := accepts.alternates.reversed
      edge_names := hnames ▸ List.nodup_reverse.mpr accepts.edge_names
      edges_new := hedge accepts.edges_new
      ranges := hedge accepts.ranges
      types := hedge accepts.types
      node_room := (g.arrivals_reversed p).symm ▸ accepts.node_room
      edge_room := (length_edges_reversed p).symm ▸ accepts.edge_room }

theorem accepts_reversed_iff : g.Accepts p.reversed ↔ g.Accepts p :=
  ⟨fun accepts => p.reversed_reversed ▸ accepts.reversed, Accepts.reversed⟩

end Graph

/-! ## The path -/

/-- No name is written with two labels. -/
def Path.LabelsAgree (p : Path) : Prop := ∀ m ∈ p.nodes, ∀ n ∈ p.nodes, m.Agrees n

instance (p : Path) : Decidable p.LabelsAgree :=
  inferInstanceAs (Decidable (∀ m ∈ p.nodes, ∀ n ∈ p.nodes, m.Agrees n))

theorem Path.Named.reversed {p : Path} (named : p.Named) : p.reversed.Named := by
  intro a ha
  refine named a ?_
  rw [names, Path.reversed, List.map_reverse, List.mem_reverse, List.map_map] at ha
  have hname : PathElement.name ∘ PathElement.opposite = PathElement.name := by
    funext x
    cases x <;> rfl
  rwa [hname] at ha

namespace Reachable

variable {g : Graph}

/-- A path and the same path backwards are added to a graph that can come up together, and both
    make the same nodes and edges, but that a new edge without direction starts at its other end.
    No name is anonymous, and none is written with two labels. -/
theorem addPath_reversed (reach : Reachable g) (c : Catalog) {p : Path} (named : p.Named)
    (labels : p.LabelsAgree) :
    ((∃ h, Edit.addPath c p g = .ok () h) ↔ ∃ k, Edit.addPath c p.reversed g = .ok () k) ∧
      ∀ h k, Edit.addPath c p g = .ok () h → Edit.addPath c p.reversed g = .ok () k →
        h.nodeContents.Perm k.nodeContents ∧
          ∃ drawn, h.edgeContents = g.edgeContents ++ drawn ∧
            k.edgeContents = g.edgeContents ++ (drawn.map EdgeContent.backwards).reverse := by
  have wf := reach.wellFormed
  have hslots := reach.sound.slots
  constructor
  · rw [Graph.exists_addPath_iff hslots, Graph.exists_addPath_iff hslots,
      Graph.accepts_reversed_iff, Graph.arrivals_reversed, Graph.length_edges_reversed]
  · intro h k hh hk
    obtain ⟨haccepts, -⟩ := (Graph.exists_addPath_iff hslots c).mp ⟨h, hh⟩
    obtain ⟨w, rfl⟩ := Path.alternates_iff.mp haccepts.alternates
    have named' := named.reversed
    rw [← w.path_reversed] at named' hk
    obtain ⟨takes, rfl⟩ := (Edit.addPath_path_eq_ok hslots named).mp hh
    obtain ⟨takes', rfl⟩ := (Edit.addPath_path_eq_ok hslots named').mp hk
    obtain ⟨hfree, hnodup⟩ := Graph.fresh_of_accept takes.accepted
    obtain ⟨hfree', hnodup'⟩ := Graph.fresh_of_accept takes'.accepted
    constructor
    -- the nodes are joined in the opposite order, and labels that agree do not compete
    · rw [wf.nodeContents_extend hfree hnodup, wf.nodeContents_extend hfree' hnodup',
        w.nodes_reversed]
      refine foldl_joinContents_perm (List.reverse_perm _).symm (fun m hm n hn => ?_) _
      exact labels m (w.nodes_path ▸ hm) n (w.nodes_path ▸ hn)
    · refine ⟨w.links.map (linkContent c), wf.edgeContents_extend hfree hnodup, ?_⟩
      rw [wf.edgeContents_extend hfree' hnodup', w.map_linkContent_reversed]

/-- A path that comes back to a node, with arrows of each kind, a label for a node that has none and
    another one for a node that is labelled; it fills the budgets. -/
theorem addPath_reversed_when_full :
    let p : Path := ⟨[.node ⟨"a", some "A"⟩, .edge ⟨"r", .outgoing, ["R"], none⟩,
      .node ⟨"b", some "D"⟩, .edge ⟨"s", .incoming, [], none⟩, .node ⟨"a", none⟩,
      .edge ⟨"t", .both, ["T"], some ⟨none, some 2⟩⟩, .node ⟨"c", some "C"⟩]⟩
    let g := Command.runAll [.addNode "x", .addNode "c", .addNode "b", .setLabel .empty ⟨2⟩ "B",
      .removeNode ⟨0⟩] (.empty ⟨3, 3, 1⟩)
    ∃ h k, Edit.addPath .empty p g = .ok () h ∧ Edit.addPath .empty p.reversed g = .ok () k ∧
      h.nodeContents.Perm k.nodeContents ∧
      h.edgeContents.map (fun d => (d.name, d.src, d.dest))
        = [("r", some "a", some "b"), ("s", some "a", some "b"), ("t", some "a", some "c")] ∧
      k.edgeContents.map (fun d => (d.name, d.src, d.dest))
        = [("t", some "c", some "a"), ("s", some "a", some "b"), ("r", some "a", some "b")] := by
  intro p g
  have reach : Reachable g := (Reachable.empty _).runAll (by simp [Command.operand?])
    (by simp [Command.edge?])
  obtain ⟨haccepted, hsame⟩ :=
    reach.addPath_reversed .empty (p := p) (by decide +kernel) (by decide +kernel)
  have hh : Edit.addPath .empty p g = .ok () ((Edit.addPath .empty p).after g) :=
    Edit.ok_after_of_outcome (by decide +kernel)
  obtain ⟨k, hk⟩ := haccepted.mp ⟨_, hh⟩
  obtain ⟨hperm, drawn, hdrawn, hbackwards⟩ := hsame _ k hh hk
  -- the graph has no edges yet, so all are drawn
  have hnone : g.edgeContents = [] := by decide +kernel
  rw [hnone, List.nil_append] at hdrawn hbackwards
  refine ⟨_, k, hh, hk, hperm, by decide +kernel, ?_⟩
  rw [hbackwards, ← hdrawn]
  decide +kernel

end Reachable

end PatternGraph
