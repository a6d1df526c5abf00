/-
  PatternGraph.Proofs.Reachability

  What holds of every graph that can come up.  Empty graphs are sound, and
  statements, copies, parts and commands keep graphs sound, so by induction on how
  a graph came up its parts agree, its slots are below the limit, and the audit
  passes.  Where there are slots for them, commands on such graphs succeed as a
  whole or change nothing.
-/
import PatternGraph.Proofs.Audit
import PatternGraph.Proofs.Effect

namespace PatternGraph

/-! ## Statements and parts -/

/-- What every path that is added keeps is kept by adding paths one after the other. -/
theorem Edit.addPaths_induction {c : Catalog} {P : Graph → Prop}
    (keep : ∀ {p g g'}, P g → addPath c p g = .ok () g' → P g') {paths : List Path} {g g' : Graph}
    (hg : P g) (h : addPaths c paths g = .ok () g') : P g' := by
  induction paths generalizing g with
  | nil =>
      cases h
      exact hg
  | cons p rest ih =>
      -- the paths after the first are added only if the first was
      rw [addPaths] at h
      cases hrun : addPath c p g with
      | error e g₁ =>
          rw [bind_error hrun] at h
          cases h
      | ok _ g₁ =>
          rw [bind_ok hrun] at h
          exact ih (keep hg hrun) h

/-- A path that is added keeps a graph sound. -/
theorem Graph.Sound.addPath {c : Catalog} {p : Path} {g g' : Graph} (sound : g.Sound)
    (h : Edit.addPath c p g = .ok () g') : g'.Sound where
  toWellFormed := (Edit.addPath_effect h).wellFormed sound.toWellFormed nofun
  slots := (Edit.keeps_slots_addPath c p).of_ok sound.slots h

/-- Adding paths one after the other keeps a graph sound. -/
theorem Graph.Sound.addPaths {c : Catalog} {paths : List Path} {g g' : Graph} (sound : g.Sound)
    (h : Edit.addPaths c paths g = .ok () g') : g'.Sound :=
  Edit.addPaths_induction .addPath sound h

/-- The graph of a statement is what its paths make of the empty graph. -/
theorem Graph.addPaths_of_ofPaths {c : Catalog} {limits : Limits} {paths : List Path} {g : Graph}
    (made : Graph.ofPaths c limits paths = .ok g) :
    Edit.addPaths c paths (.empty limits) = .ok () g := by
  unfold Graph.ofPaths at made
  split at made
  next hrun =>
    cases made
    exact hrun
  next => cases made

theorem Graph.ofPaths_eq_ok {c : Catalog} {limits : Limits} {paths : List Path} {g : Graph} :
    Graph.ofPaths c limits paths = .ok g ↔ Edit.addPaths c paths (.empty limits) = .ok () g := by
  refine ⟨addPaths_of_ofPaths, fun hrun => ?_⟩
  rw [Graph.ofPaths, hrun]

/-- The graph without nodes is sound. -/
theorem Graph.Sound.empty (limits : Limits) : (Graph.empty limits).Sound where
  toWellFormed := .empty limits
  slots := ⟨Nat.zero_le _, Nat.zero_le _⟩

theorem Graph.Sound.ofPaths {c : Catalog} {limits : Limits} {paths : List Path} {g : Graph}
    (made : Graph.ofPaths c limits paths = .ok g) : g.Sound :=
  (Graph.Sound.empty limits).addPaths (Graph.addPaths_of_ofPaths made)

/-- A subgraph of a sound graph is sound. -/
theorem Graph.Sound.induced {g : Graph} (sound : g.Sound) (p : NodeId → Bool) :
    (g.induced p).Sound where
  toWellFormed := sound.toWellFormed.induced p
  slots := (Graph.hasSlots_iff (Slots.size_sift _ _) (Slots.size_sift _ _)).mpr sound.slots

/-- A part and the rest are what a search from the first node of a copy reaches and does not. -/
theorem Graph.split?_eq_some {g part rest : Graph} (h : g.split? = some (part, rest)) :
    (g.compact.node? ⟨0⟩).isSome ∧
      part = (g.compact.retain fun id _ => (g.compact.searchFrom ⟨0⟩).has id).2 ∧
      rest = (g.compact.retain fun id _ => !(g.compact.searchFrom ⟨0⟩).has id).2 := by
  unfold split? at h
  dsimp only at h
  split at h
  next => cases h
  next hn =>
    cases h
    exact ⟨by rw [hn]; rfl, rfl, rfl⟩

/-- Both parts of a split are subgraphs of a copy. -/
theorem Graph.Sound.split?_eq_induced {g part rest : Graph} (sound : g.Sound)
    (h : g.split? = some (part, rest)) :
    (∃ p, part = g.compact.induced p) ∧ ∃ p, rest = g.compact.induced p := by
  obtain ⟨-, rfl, rfl⟩ := split?_eq_some h
  have wf := sound.compact.toWellFormed
  exact ⟨⟨_, by rw [wf.retain_eq]⟩, ⟨_, by rw [wf.retain_eq]⟩⟩

/-- Both parts of a split are sound. -/
theorem Graph.Sound.split {g part rest : Graph} (sound : g.Sound)
    (h : g.split? = some (part, rest)) : part.Sound ∧ rest.Sound := by
  obtain ⟨⟨p, rfl⟩, q, rfl⟩ := sound.split?_eq_induced h
  exact ⟨sound.compact.induced p, sound.compact.induced q⟩

/-! ## All graphs that can come up -/

namespace Reachable

variable {g : Graph}

/-- The parts of every graph that can come up agree, and no slot of it lies beyond the limit. -/
theorem sound (reach : Reachable g) : g.Sound := by
  induction reach with
  | empty limits => exact .empty limits
  | ofPaths made => exact .ofPaths made
  | compact _ ih => exact ih.compact
  | part _ split ih => exact (ih.split split).1
  | rest _ split ih => exact (ih.split split).2
  | run k _ _ _ ih ihOperand =>
      have hother : k.OperandWellFormed := fun other ho => (ihOperand other ho).toWellFormed
      exact ⟨Command.run_wellFormed ih.toWellFormed hother,
        Command.run_hasSlots ih.toWellFormed hother ih.slots⟩

theorem wellFormed (reach : Reachable g) : g.WellFormed := reach.sound.toWellFormed

/-- What holds of empty graphs and is kept by effects, copies and subgraphs holds of every graph
    that can come up. -/
theorem invariant {P : Graph → Prop} (empty : ∀ limits, P (.empty limits))
    (effect : ∀ {k : Command} {g g' : Graph}, g.Sound → P g →
      (∀ other, k.operand? = some other → other.Sound ∧ P other) →
      (∀ e, k.edge? = some e → e.Made) → k.Effect g g' → P g')
    (compact : ∀ {g : Graph}, g.Sound → P g → P g.compact)
    (induced : ∀ {g : Graph} (p : NodeId → Bool), g.Sound → P g → P (g.induced p))
    (reach : Reachable g) : P g := by
  induction reach with
  | empty limits => exact empty limits
  | @ofPaths c limits paths g made =>
      have hrun := Graph.addPaths_of_ofPaths made
      have hkept : g.Sound ∧ P g := by
        refine Edit.addPaths_induction (P := fun g => g.Sound ∧ P g) ?_
          ⟨.empty limits, empty limits⟩ hrun
        rintro p g g' ⟨sound, hP⟩ hadded
        exact ⟨sound.addPath hadded,
          effect (k := .addPath c p) sound hP nofun nofun (Edit.addPath_effect hadded)⟩
      exact hkept.2
  | compact reach ih => exact compact reach.sound ih
  | part reach split ih =>
      obtain ⟨⟨p, rfl⟩, -⟩ := reach.sound.split?_eq_induced split
      exact induced p reach.sound.compact (compact reach.sound ih)
  | rest reach split ih =>
      obtain ⟨-, q, rfl⟩ := reach.sound.split?_eq_induced split
      exact induced q reach.sound.compact (compact reach.sound ih)
  | run k reach operand made ih ihOperand =>
      have hother : k.OperandWellFormed := fun other ho => (operand other ho).wellFormed
      exact Command.run_of_effect reach.wellFormed hother ih fun _ heffect =>
        effect reach.sound ih (fun other ho => ⟨(operand other ho).sound, ihOperand other ho⟩)
          made heffect

/-- The parts of every graph that can come up agree, the audit finds nothing, and no counter is
    zero while something is left to be taken out. -/
theorem consistent (reach : Reachable g) :
    g.WellFormed ∧ g.audit = .ok () ∧
      (∀ x n, g.node? x = some n → 0 < g.nodeCount) ∧
      (∀ i e, g.edge? i = some e → 0 < g.edgeCount) :=
  ⟨reach.wellFormed, reach.wellFormed.audit_eq_ok,
    fun _ _ hn => reach.wellFormed.nodes_counted.live_pos hn,
    fun _ _ he => reach.wellFormed.edges_counted.live_pos he⟩

/-- A loop that survives the removal of a neighbour, after a stale handle was refused. -/
theorem consistent_loop :
    let g := Command.runAll
      [.addNode "a", .addNode "b", .addEdge ⟨"r", ⟨0⟩, ⟨1⟩, [], [], false, .single⟩,
        .addEdge ⟨"l", ⟨0⟩, ⟨0⟩, [], [], false, .single⟩, .reverseEdge ⟨0⟩, .removeNode ⟨7⟩,
        .removeNode ⟨1⟩] (.empty .standard)
    g.nodeCount = 1 ∧ g.edgeCount = 1 ∧ g.WellFormed ∧ g.audit = .ok () := by
  intro g
  have reach : Reachable g := (Reachable.empty .standard).runAll (by simp [Command.operand?])
    (by simp [Command.edge?, Edge.made_iff])
  exact ⟨by decide +kernel, by decide +kernel, reach.consistent.1, reach.consistent.2.1⟩

/-- Where there are slots for what it would take, a command that fails leaves every graph that can
    come up as it is.  A path that is accepted is added then, and a merge within the budgets is
    carried out: none of their steps can fail any more. -/
theorem all_or_nothing (reach : Reachable g) :
    (∀ k : Command, (∀ other, k.operand? = some other → Reachable other) →
      g.HasSlots (k.slots g).1 (k.slots g).2 → ∀ e g', k.edit g = .error e g' → g' = g) ∧
    (∀ (c : Catalog) (p : Path) (w : Walk), p.walk? = .ok w → g.accept (g.renamed w) = .ok () →
      g.HasSlots (g.newNodeNames (g.renamed w)).length w.steps.length →
      ∃ g', Edit.addPath c p g = .ok () g') ∧
    (∀ other, Reachable other →
      g.roomForNodes (g.missingNodes other).length = .ok () →
      g.roomForEdges (g.missingEdges other).length = .ok () →
      (∀ e ∈ g.missingEdges other, g.roomForTypes e.types.length = .ok ()) →
      g.HasSlots (g.missingNodes other).length (g.missingEdges other).length →
      ∃ tally g', Edit.merge other g = .ok tally g') := by
  refine ⟨?_, ?_, ?_⟩
  · intro k hoperand hslots e g' hfail
    exact Command.edit_error reach.wellFormed (fun other ho => (hoperand other ho).wellFormed)
      hslots hfail
  · intro c p w hw hacc hslots
    refine ⟨g.extend c (g.renamed w), (Edit.addPath_eq_ok reach.sound.slots).mpr
      ⟨w, hw, hacc, ?_, rfl⟩⟩
    rwa [Graph.renamed, Walk.length_steps_rename]
  · intro other hother hnodes hedges htypes hslots
    exact ⟨_, _, Edit.merge_ok hother.wellFormed
      (Graph.roomForMissing_eq_ok.mpr ⟨hnodes, hedges, htypes⟩) hslots⟩

/-- A path that writes a bound relationship after a new one adds neither of them; one that is
    accepted is added, and so is a graph within the budgets. -/
theorem all_or_nothing_path :
    let single (r : String) : Path :=
      ⟨[.node ⟨"a", none⟩, .edge ⟨r, .outgoing, [], none⟩, .node ⟨"b", none⟩]⟩
    let g := (Command.addPath .empty (single "r")).run (.empty .standard)
    let rejected : Command := .addPath .empty ⟨[.node ⟨"b", none⟩, .edge ⟨"s", .both, [], none⟩,
      .node ⟨"c", none⟩, .edge ⟨"r", .outgoing, [], none⟩, .node ⟨"a", none⟩]⟩
    rejected.edit.outcome g = .error (.duplicateEdge "r") ∧ rejected.edit.after g = g ∧
      (∃ g', Edit.addPath .empty (single "t") g = .ok () g') ∧
      ∃ tally g', Edit.merge g (.empty .strict) = .ok tally g' := by
  intro single g rejected
  have reach : Reachable g := .run _ (.empty .standard) nofun nofun
  have hrefused : rejected.edit.outcome g = .error (.duplicateEdge "r") := by decide +kernel
  refine ⟨hrefused, ?_, ?_, ?_⟩
  · cases hrun : rejected.edit g with
    | error e g' =>
        rw [Edit.after, hrun]
        exact reach.all_or_nothing.1 rejected (by simp [rejected, Command.operand?])
          (by decide +kernel) e g' hrun
    | ok _ g' =>
        rw [Edit.outcome, hrun] at hrefused
        cases hrefused
  · exact reach.all_or_nothing.2.1 .empty (single "t") ⟨⟨"a", none⟩,
      [⟨⟨"t", .outgoing, [], none⟩, ⟨"b", none⟩⟩]⟩ (by decide +kernel) (by decide +kernel)
      (by decide +kernel)
  · exact (Reachable.empty .strict).all_or_nothing.2.2 g reach (by decide +kernel)
      (by decide +kernel) (by decide +kernel) (by decide +kernel)

end Reachable

end PatternGraph
