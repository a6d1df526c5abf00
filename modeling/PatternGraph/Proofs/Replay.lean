/-
  PatternGraph.Proofs.Replay

  The paths that can be drafted are the paths that can be read as walks.  Calls
  write walks, and a walk is written by calls that say all of it: a named start,
  and for each step the direction, the range if there is one, and a named
  relationship with its types to a named node.  Nothing that one step sets is
  left for the next.
-/
import PatternGraph.Proofs.Drafting
import PatternGraph.Proofs.Extension

namespace PatternGraph

/-- The calls that say all of a step. -/
def Step.calls (s : Step) : List DraftCall :=
  .direction s.edge.direction :: (s.edge.range.toList.map .hops
    ++ [.edge ⟨some s.edge.name, s.edge.types⟩ ⟨some s.target.name, s.target.label⟩])

/-- The calls that say all of a walk. -/
def Walk.calls (w : Walk) : List DraftCall :=
  .node ⟨some w.start.name, w.start.label⟩ :: w.steps.flatMap Step.calls

namespace PathDraft

variable {d : PathDraft}

/-- The path has begun, and nothing waits for the next relationship. -/
structure Ready (d : PathDraft) : Prop where
  fault : d.fault = none
  begun : d.elements ≠ []
  direction : d.direction = .outgoing
  range : d.range = none

/-- The draft with more elements. -/
def extend (d : PathDraft) (elements : List PathElement) : PathDraft :=
  { d with elements := d.elements ++ elements }

theorem Ready.extend (ready : d.Ready) (elements : List PathElement) : (d.extend elements).Ready :=
  ⟨ready.fault, List.append_ne_nil_of_left_ne_nil ready.begun elements, ready.direction,
    ready.range⟩

/-- A step is written as it is, and the draft is ready for the next. -/
theorem Ready.run_calls (ready : d.Ready) (s : Step) : d.run s.calls = d.extend s.elements := by
  obtain ⟨⟨name, direction, types, range⟩, target⟩ := s
  obtain ⟨elements, next, waiting, waitingRange, fault⟩ := d
  obtain ⟨rfl, begun, rfl, rfl⟩ := ready
  cases elements with
  | nil => exact absurd rfl begun
  | cons first rest => cases range <;> rfl

theorem Ready.run_steps (ready : d.Ready) (steps : List Step) :
    d.run (steps.flatMap Step.calls) = d.extend (steps.flatMap Step.elements) := by
  induction steps generalizing d with
  | nil =>
      rw [List.flatMap_nil, List.flatMap_nil, PathDraft.extend, List.append_nil]
      rfl
  | cons s rest ih =>
      rw [List.flatMap_cons, run_append, ready.run_calls, ih (ready.extend _), List.flatMap_cons,
        PathDraft.extend, PathDraft.extend, PathDraft.extend, List.append_assoc]

/-- The calls of a walk write the walk, whatever the seed. -/
theorem finish_calls (seed : Nat) (w : Walk) :
    ((PathDraft.seeded seed).run w.calls).finish = .ok w.path := by
  have hstart : (PathDraft.seeded seed).run w.calls
      = ((PathDraft.seeded seed).node ⟨some w.start.name, w.start.label⟩).run
        (w.steps.flatMap Step.calls) := rfl
  have ready : ((PathDraft.seeded seed).node ⟨some w.start.name, w.start.label⟩).Ready :=
    ⟨rfl, List.cons_ne_nil _ _, rfl, rfl⟩
  rw [hstart, ready.run_steps]
  rfl

end PathDraft

/-! ## What an acceptance may blame -/

namespace Graph

/-- The shape of a path is blamed. -/
def Malformed {α : Type} (answer : Except GraphError α) : Prop :=
  ∃ defect, answer = .error (.malformedPath defect)

/-- If the shape is blamed, then by one of the questions. -/
theorem Malformed.of_bind {α β : Type} {x : Except GraphError α} {next : α → Except GraphError β}
    (h : Malformed (x >>= next)) : Malformed x ∨ ∃ a, Malformed (next a) := by
  cases x with
  | ok a => exact .inr ⟨a, h⟩
  | error e =>
      obtain ⟨defect, ⟨⟩⟩ := h
      exact .inl ⟨defect, rfl⟩

variable {g : Graph}

/-- A bound that is exceeded is blamed on what was counted. -/
theorem not_malformed_bound {P : Prop} [Decidable P] {e : GraphError}
    (he : ∀ defect, e ≠ .malformedPath defect) :
    ¬ Malformed (if P then .error e else .ok () : Except GraphError Unit) := by
  rintro ⟨defect, h⟩
  split at h
  · exact he defect (Except.error.inj h)
  · cases h

theorem not_malformed_freshEdgeName {seen : List String} {name : String} :
    ¬ Malformed (g.freshEdgeName seen name) := by
  rw [freshEdgeName]
  split
  · rintro ⟨defect, ⟨⟩⟩
  · exact not_malformed_bound nofun

theorem not_malformed_checkRange {e : PathEdge} : ¬ Malformed e.checkRange := by
  rintro ⟨defect, h⟩
  rw [PathEdge.checkRange] at h
  split at h <;> cases h

theorem not_malformed_acceptEdges {seen : List String} {edges : List PathEdge} :
    ¬ Malformed (g.acceptEdges seen edges) := by
  induction edges generalizing seen with
  | nil => rintro ⟨defect, ⟨⟩⟩
  | cons e rest ih =>
      intro h
      obtain h | ⟨-, h⟩ := h.of_bind
      · exact not_malformed_freshEdgeName h
      obtain h | ⟨-, h⟩ := h.of_bind
      · exact not_malformed_checkRange h
      obtain h | ⟨-, h⟩ := h.of_bind
      · exact not_malformed_bound (by exact nofun) h
      · exact ih h

/-- Once a path has been read as a walk, its shape is not blamed any more. -/
theorem not_malformed_accept {w : Walk} : ¬ Malformed (g.accept w) := by
  intro h
  obtain h | ⟨-, h⟩ := h.of_bind
  · exact not_malformed_acceptEdges h
  obtain h | ⟨-, h⟩ := h.of_bind
  · exact not_malformed_bound (by exact nofun) h
  · exact not_malformed_bound (by exact nofun) h

/-- A walk that is accepted stops for want of a slot, if at all. -/
theorem not_malformed_addWalk {c : Catalog} {w : Walk} :
    ¬ Malformed ((Edit.addWalk c w).outcome g) := by
  rintro ⟨defect, h⟩
  rcases Edit.addWalk_cases c w g with hok | ⟨e, g', herr, lacks, -⟩
  · rw [Edit.outcome, hok] at h
    cases h
  · rw [Edit.outcome, herr] at h
    obtain rfl := Except.error.inj h
    cases lacks

end Graph

/-- Adding a path blames its shape for what keeps the path from being read as a walk. -/
theorem Edit.addPath_eq_malformed_iff {c : Catalog} {p : Path} {g : Graph} {defect : PathDefect} :
    (addPath c p).outcome g = .error (.malformedPath defect) ↔ p.walk? = .error defect := by
  cases hw : p.walk? with
  | error found =>
      have hrun : (addPath c p).outcome g = .error (.malformedPath found) := by
        simp only [outcome, addPath_eq, hw]
      rw [hrun, Except.error.injEq, Except.error.injEq, GraphError.malformedPath.injEq]
  | ok w =>
      refine iff_of_false (fun h => ?_) (fun h => by cases h)
      simp only [outcome, addPath_eq, hw] at h
      cases hacc : g.accept (g.renamed w) with
      | error e =>
          simp only [hacc] at h
          exact Graph.not_malformed_accept ⟨defect, hacc.trans h⟩
      | ok _ =>
          simp only [hacc] at h
          exact Graph.not_malformed_addWalk ⟨defect, h⟩

/-- Adding a path blames its shape exactly if the path is not read as a walk. -/
theorem Edit.malformed_addPath_iff {c : Catalog} {p : Path} {g : Graph} :
    Graph.Malformed ((addPath c p).outcome g) ↔ ¬ ∃ w, p.walk? = .ok w := by
  simp only [Graph.Malformed, addPath_eq_malformed_iff]
  cases p.walk? with
  | error defect => exact iff_of_true ⟨defect, rfl⟩ (by rintro ⟨w, ⟨⟩⟩)
  | ok w => exact iff_of_false (by rintro ⟨defect, ⟨⟩⟩) (not_not_intro ⟨w, rfl⟩)

/-- Drafts make exactly the paths whose shape a graph accepts: what is drafted is never blamed for
    its shape, and what can be read as a walk is drafted by the calls that say all of it. -/
theorem Path.drafted_exact (p : Path) :
    ((∃ seed calls, ((PathDraft.seeded seed).run calls).finish = .ok p) ↔
        ∃ w, p.walk? = .ok w) ∧
      (∀ w, p.walk? = .ok w → ∀ seed, ((PathDraft.seeded seed).run w.calls).finish = .ok p) ∧
      ∀ seed calls, ((PathDraft.seeded seed).run calls).finish = .ok p →
        ∀ c g defect, (Edit.addPath c p).outcome g ≠ .error (.malformedPath defect) := by
  have hread : ∀ seed calls, ((PathDraft.seeded seed).run calls).finish = .ok p →
      ∃ w, p.walk? = .ok w := by
    intro seed calls hp
    rcases PathDraft.fails_or_writes seed calls with ⟨defect, fails⟩ | ⟨w, writes⟩
    · rw [PathDraft.finish_of_fails fails] at hp
      cases hp
    · rw [PathDraft.finish_of_writes writes] at hp
      cases hp
      exact ⟨w, walk?_path w⟩
  have hdraft : ∀ w, p.walk? = .ok w →
      ∀ seed, ((PathDraft.seeded seed).run w.calls).finish = .ok p := by
    intro w hw seed
    rw [eq_path_of_walk? hw]
    exact PathDraft.finish_calls seed w
  refine ⟨⟨?drafted, ?read⟩, hdraft, ?shape⟩
  case drafted =>
    rintro ⟨seed, calls, hp⟩
    exact hread seed calls hp
  case read =>
    rintro ⟨w, hw⟩
    exact ⟨0, w.calls, hdraft w hw 0⟩
  case shape =>
    intro seed calls hp c g defect hblamed
    exact Edit.malformed_addPath_iff.mp ⟨defect, hblamed⟩ (hread seed calls hp)

/-- A path with a range on one step only, and calls with anonymous elements whose path goes into a
    graph. -/
theorem Path.drafted_exact_of_ranges :
    let p : Path := ⟨[.node ⟨"a", some "Person"⟩,
      .edge ⟨"r", .incoming, ["KNOWS", "LIKES"], some ⟨some 1, none⟩⟩, .node ⟨"b", none⟩,
      .edge ⟨"s", .outgoing, [], none⟩, .node ⟨"a", none⟩]⟩
    let w : Walk := ⟨⟨"a", some "Person"⟩,
      [⟨⟨"r", .incoming, ["KNOWS", "LIKES"], some ⟨some 1, none⟩⟩, ⟨"b", none⟩⟩,
        ⟨⟨"s", .outgoing, [], none⟩, ⟨"a", none⟩⟩]⟩
    p.walk? = .ok w ∧
      w.calls = [.node ⟨some "a", some "Person"⟩, .direction .incoming, .hops ⟨some 1, none⟩,
        .edge ⟨some "r", ["KNOWS", "LIKES"]⟩ ⟨some "b", none⟩, .direction .outgoing,
        .edge ⟨some "s", []⟩ ⟨some "a", none⟩] ∧
      ((PathDraft.seeded 5).run w.calls).finish = .ok p ∧
      ∀ c g defect, (Edit.addPath c p).outcome g ≠ .error (.malformedPath defect) := by
  intro p w
  have hw : p.walk? = .ok w := by decide +kernel
  obtain ⟨-, hdraft, hshape⟩ := Path.drafted_exact p
  have hp := hdraft w hw 5
  exact ⟨hw, rfl, hp, hshape 5 w.calls hp⟩

end PatternGraph
