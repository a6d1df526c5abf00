/-
  PatternGraph.Proofs.Restriction

  Keeping some nodes is restriction, however it is done.  A restriction has the
  nodes that pass and the edges between them, in their slots, and of every list
  the edges that are left; no other graph fits the description.  A test that
  may have effects is put to every node once before any is taken out, and
  taking the nodes that fail out one after the other makes the same graph
  whatever their order, because each step leaves a restriction.
-/
import PatternGraph.Proofs.Reachability

namespace PatternGraph

namespace Graph

variable {g h h' : Graph} {passes : NodeId → Prop} {x : NodeId} {n m : Node}

/-! ## What a restriction is -/

/-- The graph without the nodes that fail and the edges at them.  Handles and fields are kept, and
    lists are filtered. -/
structure Restricts (g : Graph) (passes : NodeId → Prop) (h : Graph) : Prop where
  node : ∀ x m, h.node? x = some m ↔
    passes x ∧ ∃ n, g.node? x = some n ∧ m = n.keeping fun i => (h.edge? i).isSome
  edge : ∀ i e, h.edge? i = some e ↔ g.edge? i = some e ∧ passes e.src ∧ passes e.dest
  slots : h.nodes.size = g.nodes.size ∧ h.edges.size = g.edges.size
  limits : h.limits = g.limits
  consistent : h.WellFormed ∧ h.audit = .ok ()

/-- One graph fits the description. -/
theorem Restricts.unique (restricts : g.Restricts passes h) (restricts' : g.Restricts passes h') :
    h = h' := by
  have hedge : ∀ i, h.edge? i = h'.edge? i := fun i =>
    Option.ext fun e => by rw [restricts.edge, restricts'.edge]
  have hnode : ∀ x, h.node? x = h'.node? x := fun x =>
    Option.ext fun m => by simp only [restricts.node, restricts'.node, hedge]
  exact ext_view restricts.consistent.1.nodes_counted restricts.consistent.1.edges_counted
    restricts'.consistent.1.nodes_counted restricts'.consistent.1.edges_counted
    (restricts.slots.1.trans restricts'.slots.1.symm)
    (restricts.slots.2.trans restricts'.slots.2.symm) hnode hedge
    (restricts.limits.trans restricts'.limits.symm)

theorem isSome_edge?_induced (p : NodeId → Bool) (i : EdgeId) :
    ((g.induced p).edge? i).isSome = g.keepsEdge p i := by
  rw [edge?_induced, keepsEdge]
  cases g.edge? i with
  | none => rfl
  | some e => rw [Option.any_some, Option.filter, apply_ite Option.isSome]; simp

/-- An induced subgraph is a restriction to what its test passes. -/
theorem WellFormed.restricts_induced (wf : g.WellFormed) {p : NodeId → Bool}
    (hp : ∀ x n, g.node? x = some n → (p x = true ↔ passes x)) :
    g.Restricts passes (g.induced p) where
  node x m := by
    simp only [isSome_edge?_induced, node?_induced]
    constructor
    · intro hx
      split at hx
      next hpass =>
        obtain ⟨n, hn, rfl⟩ := Option.map_eq_some_iff.mp hx
        exact ⟨(hp x n hn).mp hpass, n, hn, rfl⟩
      next => cases hx
    · rintro ⟨hpass, n, hn, rfl⟩
      rw [if_pos ((hp x n hn).mpr hpass), hn, Option.map_some]
  edge i e := by
    rw [edge?_induced_eq_some]
    refine and_congr_right fun he => ?_
    obtain ⟨a, ha⟩ := wf.src_live he
    obtain ⟨b, hb⟩ := wf.dest_live he
    rw [spans, Bool.and_eq_true, hp _ _ ha, hp _ _ hb]
  slots := by simp [Graph.induced]
  limits := rfl
  consistent := ⟨wf.induced p, (wf.induced p).audit_eq_ok⟩

/-! ## Taking nodes out in some order -/

/-- A node that is taken out comes without its edges, as it was but for them. -/
def GivenBack (g : Graph) (x : NodeId) (m : Node) : Prop :=
  ∃ n, g.node? x = some n ∧ m = n.isolated

/-- Nodes are given back alike from a subgraph. -/
theorem GivenBack.of_induced {p : NodeId → Bool} (given : (g.induced p).GivenBack x m) :
    g.GivenBack x m := by
  obtain ⟨k, hk, rfl⟩ := given
  rw [node?_induced] at hk
  split at hk
  next =>
    obtain ⟨n, hn, rfl⟩ := Option.map_eq_some_iff.mp hk
    exact ⟨n, hn, rfl⟩
  next => cases hk

/-- Live nodes can be taken out one after the other, each once, and the others are left. -/
theorem WellFormed.mapM_removeNode (wf : g.WellFormed) {order : List NodeId}
    (hnodup : order.Nodup) (hlive : ∀ x ∈ order, (g.node? x).isSome) :
    ∃ taken, order.mapM Edit.removeNode g = .ok taken (g.induced fun x => decide (x ∉ order)) ∧
      List.Forall₂ g.GivenBack order taken := by
  -- each step leaves an induced subgraph, in which the others are still live
  induction order generalizing g with
  | nil =>
      rw [wf.induced_not_mem_nil]
      exact ⟨[], rfl, .nil⟩
  | cons x rest ih =>
      obtain ⟨hx, hrest⟩ := List.nodup_cons.mp hnodup
      obtain ⟨n, hn⟩ := Option.isSome_iff_exists.mp (hlive x List.mem_cons_self)
      have hfirst : Edit.removeNode x g = .ok n.isolated (g.induced (· != x)) := by
        rw [Edit.removeNode, wf.extractNode?_eq hn]
      have hlive' : ∀ y ∈ rest, ((g.induced (· != x)).node? y).isSome := fun y hy =>
        isSome_node?_induced_ne (hlive y (List.mem_cons_of_mem x hy)) fun heq => hx (heq ▸ hy)
      obtain ⟨taken, htaken, hgiven⟩ := ih (wf.induced _) hrest hlive'
      rw [induced_ne_induced] at htaken
      refine ⟨n.isolated :: taken, ?_,
        .cons ⟨n, hn, rfl⟩ (hgiven.imp fun _ _ => GivenBack.of_induced)⟩
      rw [List.mapM_cons, Edit.bind_ok hfirst, Edit.bind_ok htaken, Edit.pure_apply]

/-! ## Asking every node -/

/-- The answers of a test to every live node, in order and as the nodes stand. -/
def asked {σ : Type} (g : Graph) (keep : Node → StateM σ Bool) :
    StateM σ (List (NodeId × Bool)) :=
  g.liveNodes.mapM fun node => (node.1, ·) <$> keep node.2

section Answers

variable {σ : Type} {keep : Node → StateM σ Bool} {s s' : σ} {answers : List (NodeId × Bool)}

/-- Every node is asked once, whatever the answers are. -/
theorem map_fst_of_asked (nodes : List (NodeId × Node))
    (hasked : (nodes.mapM fun node => (node.1, ·) <$> keep node.2).run s = (answers, s')) :
    answers.map Prod.fst = nodes.map Prod.fst := by
  induction nodes generalizing s answers with
  | nil =>
      cases hasked
      rfl
  | cons node rest ih =>
      rw [List.mapM_cons] at hasked
      cases hasked
      rw [List.map_cons, List.map_cons, ih rfl]

theorem mem_rejected : x ∈ rejected answers ↔ (x, false) ∈ answers := by
  simp [rejected]

/-- Keeping by a test with effects asks every node and takes out those that are rejected. -/
theorem retainM_run (hasked : (g.asked keep).run s = (answers, s')) :
    (g.retainM fun _ n => keep n).run s = (g.extractNodes (rejected answers), s') := by
  rw [retainM, failing_eq, bind_pure_comp, Functor.map_map]
  show (let (answers, s') := (g.asked keep).run s
    (g.extractNodes (rejected answers), s')) = _
  rw [hasked]

variable (hasked : (g.asked keep).run s = (answers, s'))

include hasked

/-- The answers of a test without effects are those that it gives to the nodes. -/
theorem answers_of_pure {test : Node → Bool} (hpure : ∀ n, keep n = pure (test n)) :
    answers = g.liveNodes.map fun node => (node.1, test node.2) := by
  have hall : g.asked keep = pure (g.liveNodes.map fun node => (node.1, test node.2)) := by
    simp only [asked, hpure, map_pure, List.mapM_pure]
  rw [hall] at hasked
  exact (congrArg Prod.fst hasked).symm

/-- The answers are given to live nodes, each of which gets one. -/
theorem nodup_map_fst_answers : (answers.map Prod.fst).Nodup := by
  rw [map_fst_of_asked g.liveNodes hasked]
  exact g.nodup_liveNodes

theorem exists_answer_iff : (∃ passes, (x, passes) ∈ answers) ↔ ∃ n, g.node? x = some n := by
  have hkeys : x ∈ answers.map Prod.fst ↔ x ∈ g.liveNodes.map Prod.fst := by
    rw [map_fst_of_asked g.liveNodes hasked]
  simpa [mem_liveNodes] using hkeys

theorem nodup_rejected : (rejected answers).Nodup :=
  (nodup_map_fst_answers hasked).sublist (List.filter_sublist.map Prod.fst)

/-- A live node that is not rejected passes. -/
theorem not_mem_rejected_iff (hx : g.node? x = some n) :
    x ∉ rejected answers ↔ (x, true) ∈ answers := by
  rw [mem_rejected]
  obtain ⟨passes, hanswer⟩ := (exists_answer_iff hasked).mpr ⟨n, hx⟩
  have hone : ∀ b, (x, b) ∈ answers → b = passes := fun b hb =>
    congrArg Prod.snd (List.inj_on_of_nodup_map (nodup_map_fst_answers hasked) hb hanswer rfl)
  cases passes with
  | true => exact ⟨fun _ => hanswer, fun _ hfalse => nomatch hone false hfalse⟩
  | false => exact ⟨fun hnot => absurd hanswer hnot, fun htrue => nomatch hone true htrue⟩

end Answers

end Graph

namespace Reachable

variable {g : Graph}

/-- Keeping nodes of a graph that can come up puts the test to every node once, as it stands at
    first, and counts those that fail; what is left is the restriction to the others.  Taking the
    nodes that fail out one after the other succeeds in every order, gives each back without its
    edges, and makes the same graph. -/
theorem retain_exact (reach : Reachable g) {σ : Type} (keep : Node → StateM σ Bool) {s s' : σ}
    {answers : List (NodeId × Bool)} (hasked : (g.asked keep).run s = (answers, s')) :
    ∃ h, (g.retainM fun _ n => keep n).run s = (((Graph.rejected answers).length, h), s') ∧
      g.Restricts (fun x => (x, true) ∈ answers) h ∧
      (∀ test : Node → Bool, (∀ n, keep n = pure (test n)) →
        answers = g.liveNodes.map (fun node => (node.1, test node.2)) ∧
          Edit.retain test g = .ok (Graph.rejected answers).length h) ∧
      ∀ order : List NodeId, order.Perm (Graph.rejected answers) →
        ∃ taken, order.mapM Edit.removeNode g = .ok taken h ∧
          List.Forall₂ g.GivenBack order taken := by
  have wf := reach.wellFormed
  have hlive : ∀ x ∈ Graph.rejected answers, (g.node? x).isSome := fun x hx =>
    Option.isSome_iff_exists.mpr
      ((Graph.exists_answer_iff hasked).mp ⟨false, Graph.mem_rejected.mp hx⟩)
  have hnodup := Graph.nodup_rejected hasked
  have hout := wf.extractNodes_eq hnodup hlive
  -- the description has no order in it, and one graph fits it
  have hrestricts : ∀ order : List NodeId, order.Perm (Graph.rejected answers) →
      g.Restricts (fun x => (x, true) ∈ answers) (g.induced fun x => decide (x ∉ order)) := by
    intro order horder
    refine wf.restricts_induced fun x n hx => ?_
    rw [decide_eq_true_iff, horder.mem_iff, Graph.not_mem_rejected_iff hasked hx]
  refine ⟨_, ?_, hrestricts _ (.refl _), ?_, ?_⟩
  · rw [Graph.retainM_run hasked, hout]
  · intro test hpure
    have hanswers := Graph.answers_of_pure hasked hpure
    have hretain : g.retain (fun _ n => test n) = g.extractNodes (Graph.rejected answers) := by
      rw [Graph.retain_eq_extractNodes, hanswers, Graph.rejected, List.filter_map, List.map_map]
      rfl
    rw [hout] at hretain
    exact ⟨hanswers, congrArg (fun p : Nat × Graph => EStateM.Result.ok p.1 p.2) hretain⟩
  · intro order horder
    obtain ⟨taken, htaken, hgiven⟩ := wf.mapM_removeNode (horder.nodup_iff.mpr hnodup)
      fun x hx => hlive x (horder.mem_iff.mp hx)
    rw [(hrestricts order horder).unique (hrestricts _ (.refl _))] at htaken
    exact ⟨taken, htaken, hgiven⟩

/-- The test passes every other node that it is put to.  The two that fail are joined by edges of
    either direction and one has a loop; the one that stays keeps its loop behind an edge that goes,
    whichever is taken out first. -/
theorem retain_exact_of_turns :
    let edge (r : String) (src dest : Nat) : Command :=
      .addEdge ⟨r, ⟨src⟩, ⟨dest⟩, [], [], false, .single⟩
    let g := Command.runAll [.addNode "x", .addNode "a", .addNode "b", .addNode "c", edge "r" 1 3,
      edge "s" 3 1, edge "t" 1 1, edge "u" 1 2, edge "l" 2 2, .reverseEdge ⟨0⟩, .removeNode ⟨0⟩]
      (.empty .standard)
    let keep (_ : Node) : StateM Nat Bool := modifyGet fun turn => (turn % 2 == 1, turn + 1)
    ∃ h, (g.retainM fun _ n => keep n).run 0 = ((2, h), 3) ∧ g.Restricts (· = ⟨2⟩) h ∧
      h.node? ⟨2⟩ = some ⟨"b", none, .absent, #[⟨4⟩], #[⟨4⟩]⟩ ∧
      ∃ taken, [⟨3⟩, ⟨1⟩].mapM Edit.removeNode g = .ok taken h ∧
        List.Forall₂ g.GivenBack [⟨3⟩, ⟨1⟩] taken := by
  intro edge g keep
  have reach : Reachable g := (Reachable.empty .standard).runAll (by simp [edge, Command.operand?])
    (by simp [edge, Command.edge?, Edge.made_iff])
  have hasked : (g.asked keep).run 0 = ([(⟨1⟩, false), (⟨2⟩, true), (⟨3⟩, false)], 3) := by
    change @Eq (List (NodeId × Bool) × Nat) _ _
    decide +kernel
  obtain ⟨h, hrun, restricts, -, hanyOrder⟩ := reach.retain_exact keep hasked
  have hnode : ((g.retainM fun _ n => keep n).run 0).1.2.node? ⟨2⟩
      = some ⟨"b", none, .absent, #[⟨4⟩], #[⟨4⟩]⟩ := by decide +kernel
  rw [hrun] at hnode
  have hpasses : (fun x => (x, true) ∈ [(⟨1⟩, false), (⟨2⟩, true), (⟨3⟩, false)])
      = fun x : NodeId => x = ⟨2⟩ := by
    funext x
    simp
  rw [hpasses] at restricts
  exact ⟨h, hrun, restricts, hnode, hanyOrder _ (by decide)⟩

end Reachable

end PatternGraph
