/-
  PatternGraph.Proofs.Continuation

  What may become of the entities of a graph while commands run on it.  An
  entity is gone for good once its slot is vacated.  Until then a node keeps
  its name; an edge keeps its name, type names, direction flag and hops, its
  ends are exchanged as often as it is turned round, and of its types only
  unknown references are found.

  `Slots.Continues` says this of a table and any relation on its values.  Each
  operation on graphs continues the graph, and so does every effect of a
  command (`Effect.continues`) and every history (`runAll_continues`).
-/
import Mathlib.Logic.Function.Iterate
import PatternGraph.Proofs.Effect

namespace PatternGraph

/-! ## Tables -/

namespace Slots

variable {α : Type} {R R' R'' : Nat → α → α → Prop} {s t u : Slots α}

/-- The second table came out of the first: no slot was given back, and a value in a slot of the
    first table came out of the value that stood there. -/
structure Continues (R : Nat → α → α → Prop) (s t : Slots α) : Prop where
  size_le : s.size ≤ t.size
  value : ∀ i b, i < s.size → t.get? i = some b → ∃ a, s.get? i = some a ∧ R i a b

namespace Continues

theorem refl (hR : ∀ i a, R i a a) (s : Slots α) : s.Continues R s :=
  ⟨Nat.le_refl _, fun i b _ hb => ⟨b, hb, hR i b⟩⟩

theorem trans (h₁ : s.Continues R t) (h₂ : t.Continues R' u)
    (comp : ∀ i a b c, R i a b → R' i b c → R'' i a c) : s.Continues R'' u := by
  refine ⟨Nat.le_trans h₁.size_le h₂.size_le, ?_⟩
  intro i c hi hc
  obtain ⟨b, hb, hbc⟩ := h₂.value i c (Nat.lt_of_lt_of_le hi h₁.size_le) hc
  obtain ⟨a, ha, hab⟩ := h₁.value i b hi hb
  exact ⟨a, ha, comp i a b c hab hbc⟩

theorem push (hR : ∀ i a, R i a a) (s : Slots α) (a : α) : s.Continues R (s.push a) := by
  refine ⟨by simp, ?_⟩
  intro i b hi hb
  rw [get?_push, if_neg (Nat.ne_of_lt hi)] at hb
  exact ⟨b, hb, hR i b⟩

theorem vacate (hR : ∀ i a, R i a a) (s : Slots α) (i : Nat) : s.Continues R (s.vacate i) := by
  refine ⟨by simp, ?_⟩
  intro j b _ hb
  rw [get?_vacate] at hb
  split at hb
  · cases hb
  · exact ⟨b, hb, hR j b⟩

theorem sift {f : Nat → α → Option α} (hf : ∀ i a b, f i a = some b → R i a b) (s : Slots α) :
    s.Continues R (s.sift f) := by
  refine ⟨by simp, ?_⟩
  intro i b _ hb
  rw [get?_sift, Option.bind_eq_some_iff] at hb
  obtain ⟨a, ha, hab⟩ := hb
  exact ⟨a, ha, hf i a b hab⟩

theorem modify {i : Nat} {f : α → α} (hR : ∀ j a, j ≠ i → R j a a) (hf : ∀ a, R i a (f a))
    (s : Slots α) : s.Continues R (s.modify i f) := by
  refine ⟨by simp, ?_⟩
  intro j b _ hb
  rw [get?_modify] at hb
  split at hb
  next hji =>
    obtain ⟨a, ha, rfl⟩ := Option.map_eq_some_iff.mp hb
    exact ⟨a, ha, hji ▸ hf a⟩
  next hji => exact ⟨b, hb, hR j b hji⟩

theorem map {f : α → α} (hf : ∀ i a, R i a (f a)) (s : Slots α) : s.Continues R (s.map f) := by
  refine ⟨by simp, ?_⟩
  intro i b _ hb
  rw [get?_map] at hb
  obtain ⟨a, ha, rfl⟩ := Option.map_eq_some_iff.mp hb
  exact ⟨a, ha, hf i a⟩

theorem imp (h : s.Continues R t) (hRR' : ∀ i a b, R i a b → R' i a b) : s.Continues R' t := by
  refine ⟨h.size_le, fun i b hi hb => ?_⟩
  obtain ⟨a, ha, hab⟩ := h.value i b hi hb
  exact ⟨a, ha, hRR' i a b hab⟩

/-- What is left of a value came out of it. -/
theorem of_get? (h : s.Continues R t) {i : Nat} {a b : α} (ha : s.get? i = some a)
    (hb : t.get? i = some b) : R i a b := by
  obtain ⟨a', ha', hab⟩ := h.value i b (lt_size_of_get? ha) hb
  rw [ha] at ha'
  cases ha'
  exact hab

/-- A slot that is vacated stays so. -/
theorem get?_eq_none (h : s.Continues R t) {i : Nat} (hi : i < s.size) (hgone : s.get? i = none) :
    t.get? i = none := by
  cases hb : t.get? i with
  | none => rfl
  | some b =>
      obtain ⟨a, ha, -⟩ := h.value i b hi hb
      rw [hgone] at ha
      cases ha

end Continues

end Slots

/-! ## References, nodes and edges -/

/-- A reference stays as it is, or it is found where it was unknown. -/
inductive SchemaRef.Becomes {I : Type} : SchemaRef I → SchemaRef I → Prop where
  | same (r : SchemaRef I) : Becomes r r
  | found (name : String) (id : I) : Becomes (.unresolved name) (.resolved id)

namespace SchemaRef.Becomes

variable {I : Type} {q r s : SchemaRef I}

theorem trans (h₁ : q.Becomes r) (h₂ : r.Becomes s) : q.Becomes s := by
  cases h₁ with
  | same => exact h₂
  | found name id =>
      -- what is found stays
      cases h₂
      exact .found name id

theorem refresh (lookup : String → Option I) (r : SchemaRef I) : r.Becomes (r.refresh lookup) := by
  cases r with
  | absent => exact .same _
  | resolved id => exact .same _
  | unresolved name =>
      rw [SchemaRef.refresh]
      cases lookup name with
      | none => exact .same _
      | some id => exact .found name id

theorem all_refl (refs : List (SchemaRef I)) : List.Forall₂ Becomes refs refs :=
  List.forall₂_same.mpr fun r _ => .same r

theorem all_trans {p q r : List (SchemaRef I)} (h₁ : List.Forall₂ Becomes p q)
    (h₂ : List.Forall₂ Becomes q r) : List.Forall₂ Becomes p r := by
  induction h₁ generalizing r with
  | nil => exact h₂
  | cons hfirst _ ih =>
      cases h₂ with
      | cons hfirst' hrest' => exact .cons (hfirst.trans hfirst') (ih hrest')

end SchemaRef.Becomes

/-- A node keeps its name. -/
structure Node.Becomes (m n : Node) : Prop where
  name : n.name = m.name

namespace Node.Becomes

theorem refl (n : Node) : n.Becomes n :=
  ⟨rfl⟩

theorem trans {l m n : Node} (h₁ : l.Becomes m) (h₂ : m.Becomes n) : l.Becomes n :=
  ⟨h₂.name.trans h₁.name⟩

end Node.Becomes

/-- What may become of an edge that is turned round so often. -/
structure Edge.Becomes (turns : Nat) (d e : Edge) : Prop where
  name : e.name = d.name
  types : e.types = d.types
  typeRefs : List.Forall₂ SchemaRef.Becomes d.typeRefs e.typeRefs
  bidirectional : e.bidirectional = d.bidirectional
  hops : e.hops = d.hops
  ends : (e.src, e.dest) = Prod.swap^[turns] (d.src, d.dest)

namespace Edge.Becomes

theorem refl (e : Edge) : e.Becomes 0 e :=
  ⟨rfl, rfl, SchemaRef.Becomes.all_refl _, rfl, rfl, rfl⟩

theorem trans {m n : Nat} {c d e : Edge} (h₁ : c.Becomes m d) (h₂ : d.Becomes n e) :
    c.Becomes (m + n) e where
  name := h₂.name.trans h₁.name
  types := h₂.types.trans h₁.types
  typeRefs := SchemaRef.Becomes.all_trans h₁.typeRefs h₂.typeRefs
  bidirectional := h₂.bidirectional.trans h₁.bidirectional
  hops := h₂.hops.trans h₁.hops
  ends := by rw [h₂.ends, h₁.ends, Nat.add_comm, Function.iterate_add_apply]

theorem reversed (e : Edge) : e.Becomes 1 e.reversed :=
  ⟨rfl, rfl, SchemaRef.Becomes.all_refl _, rfl, rfl, rfl⟩

theorem refresh (e : Edge) (c : Catalog) : e.Becomes 0 (e.refresh c) := by
  refine ⟨rfl, rfl, ?_, rfl, rfl, rfl⟩
  exact List.forall₂_map_right_iff.mpr (List.forall₂_same.mpr fun r _ => .refresh _ r)

end Edge.Becomes

/-! ## Graphs -/

namespace Graph

/-- The second graph came out of the first while every edge was turned round so often as given. -/
structure Continues (turns : EdgeId → Nat) (g h : Graph) : Prop where
  nodes : g.nodes.Continues (fun _ => Node.Becomes) h.nodes
  edges : g.edges.Continues (fun i d e => d.Becomes (turns ⟨i⟩) e) h.edges

/-- The second graph came out of the first and no edge was turned round. -/
abbrev Steady (g h : Graph) : Prop := g.Continues (fun _ => 0) h

namespace Continues

variable {g h k : Graph}

theorem refl (g : Graph) : g.Steady g :=
  ⟨.refl (fun _ => Node.Becomes.refl) _, .refl (fun _ => Edge.Becomes.refl) _⟩

theorem trans {m n : EdgeId → Nat} (h₁ : g.Continues m h) (h₂ : h.Continues n k) :
    g.Continues (fun i => m i + n i) k :=
  ⟨h₁.nodes.trans h₂.nodes fun _ _ _ _ => Node.Becomes.trans,
    h₁.edges.trans h₂.edges fun _ _ _ _ => Edge.Becomes.trans⟩

theorem steady_trans (h₁ : g.Steady h) (h₂ : h.Steady k) : g.Steady k :=
  h₁.trans h₂

/-- Turning round edges that are not there changes nothing. -/
theorem of_stale {turns : EdgeId → Nat} (h : ∀ i e, g.edge? i = some e → turns i = 0) :
    g.Continues turns g := by
  refine ⟨(refl g).nodes, Nat.le_refl _, ?_⟩
  intro i e _ he
  refine ⟨e, he, ?_⟩
  rw [h ⟨i⟩ e he]
  exact .refl e

/-! ### Single changes -/

theorem insertNode (g : Graph) (n : Node) : g.Steady (g.insertNode n) :=
  ⟨.push (fun _ => Node.Becomes.refl) _ _, (refl g).edges⟩

theorem modifyNode {f : Node → Node} (hf : ∀ n : Node, n.Becomes (f n)) (g : Graph) (id : NodeId) :
    g.Steady (g.modifyNode id f) :=
  ⟨.modify (fun _ n _ => .refl n) hf _, (refl g).edges⟩

theorem link (g : Graph) (id : EdgeId) (src dest : NodeId) : g.Steady (g.link id src dest) :=
  (modifyNode (f := (·.addOutgoing id)) (fun _ => ⟨rfl⟩) g src).steady_trans
    (modifyNode (f := (·.addIncoming id)) (fun _ => ⟨rfl⟩) _ dest)

theorem unlink (g : Graph) (id : EdgeId) (src dest : NodeId) : g.Steady (g.unlink id src dest) :=
  (modifyNode (f := (·.without id)) (fun _ => ⟨rfl⟩) g src).steady_trans
    (modifyNode (f := (·.without id)) (fun _ => ⟨rfl⟩) _ dest)

theorem insertEdge (g : Graph) (e : Edge) : g.Steady (g.insertEdge e) := by
  have hpush : g.Steady { g with edges := g.edges.push e } :=
    ⟨(refl g).nodes, .push (fun _ => Edge.Becomes.refl) _ _⟩
  exact hpush.steady_trans (link _ _ _ _)

theorem dropEdge (g : Graph) (id : EdgeId) : g.Steady (g.dropEdge id) := by
  unfold Graph.dropEdge
  split
  next => exact refl g
  next e _ =>
    have hvacate : g.Steady { g with edges := g.edges.vacate id.index } :=
      ⟨(refl g).nodes, .vacate (fun _ => Edge.Becomes.refl) _ _⟩
    exact hvacate.steady_trans (unlink _ _ _ _)

theorem turnEdge (g : Graph) (id : EdgeId) (e : Edge) :
    g.Continues (fun i => (id == i).toNat) (g.turnEdge id e) := by
  have hturn : ∀ g : Graph, g.Continues (fun i => (id == i).toNat)
      { g with edges := g.edges.modify id.index Edge.reversed } := by
    refine fun g => ⟨(refl g).nodes, .modify ?_ ?_ _⟩
    · intro i d hi
      have hother : (id == ⟨i⟩) = false := beq_eq_false_iff_ne.mpr fun heq => hi (heq ▸ rfl)
      rw [hother]
      exact .refl d
    · intro d
      rw [beq_self_eq_true]
      exact .reversed d
  -- off the lists, turned round in its slot, and on the lists again
  have hall := ((unlink g id e.src e.dest).trans (hturn _)).trans (link _ id e.dest e.src)
  simp only [Nat.zero_add, Nat.add_zero] at hall
  exact hall

theorem induced (g : Graph) (p : NodeId → Bool) : g.Steady (g.induced p) := by
  refine ⟨.sift ?_ _, .sift ?_ _⟩
  · intro i m n hmn
    split at hmn
    · cases hmn
      exact ⟨rfl⟩
    · cases hmn
  · intro i d e hde
    split at hde
    · cases hde
      exact .refl d
    · cases hde

theorem refresh (g : Graph) (c : Catalog) : g.Steady (g.refresh c) :=
  ⟨.map (fun _ _ => ⟨rfl⟩) _, .map (fun _ e => .refresh e c) _⟩

/-! ### Paths and merges -/

theorem foldl {α : Type} {step : Graph → α → Graph}
    (hstep : ∀ (g : Graph) (a : α), g.Steady (step g a))
    (l : List α) (g : Graph) : g.Steady (l.foldl step g) := by
  induction l generalizing g with
  | nil => exact refl g
  | cons a rest ih => exact (hstep g a).steady_trans (ih _)

theorem offerLabel (c : Catalog) (g : Graph) (id : NodeId) (label : Option String) :
    g.Steady (g.offerLabel c id label) := by
  cases label with
  | none => exact refl g
  | some label =>
      refine modifyNode (fun n => ?_) g id
      split <;> exact ⟨rfl⟩

theorem findOrMake (g : Graph) (name : String) : g.Steady (g.findOrMake name).2 := by
  unfold Graph.findOrMake
  split
  · exact refl g
  · exact insertNode g _

theorem joinNode (c : Catalog) (g : Graph) (n : PathNode) : g.Steady (g.joinNode c n).2 :=
  (findOrMake g n.name).steady_trans (offerLabel c _ _ _)

theorem addSteps (c : Catalog) (g : Graph) (left : NodeId) (steps : List Step) :
    g.Steady (g.addSteps c left steps) := by
  induction steps generalizing g left with
  | nil => exact refl g
  | cons s rest ih =>
      exact ((joinNode c g s.target).steady_trans (insertEdge _ _)).steady_trans (ih _ _)

theorem extend (c : Catalog) (g : Graph) (w : Walk) : g.Steady (g.extend c w) :=
  (joinNode c g w.start).steady_trans (addSteps c _ _ _)

theorem onTheWay {c : Catalog} {w : Walk} (way : g.OnTheWay c w h) : g.Steady h := by
  cases way with
  | steps _ => exact extend c g _
  | joined _ => exact (extend c g _).steady_trans (joinNode c _ _)

theorem midMerge {other : Graph} (mid : g.MidMerge other h) : g.Steady h := by
  cases mid with
  | nodes _ => exact foldl insertNode _ g
  | edges _ => exact (foldl insertNode _ g).steady_trans (foldl insertEdge _ _)

end Continues

end Graph

/-! ## Commands and histories -/

namespace Command

variable {g g' : Graph} {k : Command}

/-- The command is to turn the edge round. -/
def turns : Command → EdgeId → Bool
  | .reverseEdge id, i => id == i
  | _, _ => false

/-- How often a history is to turn the edge round. -/
def turnsIn (history : List Command) (i : EdgeId) : Nat := history.countP (·.turns i)

theorem turnsIn_cons (k : Command) (rest : List Command) (i : EdgeId) :
    turnsIn (k :: rest) i = (k.turns i).toNat + turnsIn rest i := by
  rw [turnsIn, List.countP_cons, Nat.add_comm]
  cases k.turns i <;> rfl

/-- What a command makes of a graph came out of it. -/
theorem Effect.continues (effect : k.Effect g g') :
    g.Continues (fun i => (k.turns i).toNat) g' := by
  cases effect with
  | addNode _ _ => exact .insertNode g _
  | setLabel _ => exact .offerLabel _ g _ _
  | addEdge _ _ _ _ _ => exact .insertEdge g _
  | addPath _ _ way => exact .onTheWay way
  | merge _ _ _ mid => exact .midMerge mid
  | removeNode _ => exact .induced g _
  | removeEdge _ => exact .dropEdge g _
  | reverseEdge _ => exact .turnEdge g _ _
  | retain => exact .induced g _
  | resolve => exact .refresh g _

theorem run_reverseEdge {id : EdgeId} {e : Edge} (h : g.edge? id = some e) :
    (reverseEdge id).run g = g.turnEdge id e := by
  have hlive : g.liveEdge id = .ok e := by rw [Graph.liveEdge, h]
  have hrun : Edit.reverseEdge id g = .ok () (g.turnEdge id e) := Edit.check_bind_ok hlive
  show (Edit.reverseEdge id).after g = g.turnEdge id e
  rw [Edit.after, hrun]

/-- Whether a command succeeds or fails, what it leaves behind came out of what was there. -/
theorem run_continues (wf : g.WellFormed) (hother : k.OperandWellFormed) :
    g.Continues (fun i => (k.turns i).toNat) (k.run g) := by
  by_cases hturn : ∃ id e, k = .reverseEdge id ∧ g.edge? id = some e
  · obtain ⟨id, e, rfl, he⟩ := hturn
    rw [run_reverseEdge he]
    exact (Effect.reverseEdge he).continues
  · rcases run_cases wf hother with hsame | heffect
    · rw [hsame]
      refine .of_stale fun i e he => ?_
      -- no other command turns an edge round, and this one would have found it
      cases k <;> try rfl
      next id =>
        have hother : id ≠ i := fun heq => hturn ⟨id, e, rfl, heq ▸ he⟩
        rw [turns, beq_eq_false_iff_ne.mpr hother]
        rfl
    · exact heffect.continues

/-- What a history leaves behind came out of what was there. -/
theorem runAll_continues {history : List Command} (wf : g.WellFormed)
    (hother : ∀ k ∈ history, k.OperandWellFormed) :
    g.Continues (turnsIn history) (runAll history g) := by
  induction history generalizing g with
  | nil => exact .refl g
  | cons k rest ih =>
      obtain ⟨hk, hrest⟩ := List.forall_mem_cons.mp hother
      -- the turns of the first command and of the rest add up
      have hall := (run_continues wf hk).trans (ih (run_wellFormed wf hk) hrest)
      simp only [← turnsIn_cons] at hall
      exact hall

end Command

end PatternGraph
