/-
  PatternGraph.Proofs.Blame

  What a path that is no walk is blamed for.  A list that begins with a node
  either has two elements of one kind next to each other, or is a walk, or is a
  walk and one relationship more.  The number of elements tells the last two
  apart, and that is all that is asked before the list is blamed for its end: of
  the lists with an even number of elements some end with a node.
-/
import PatternGraph.Proofs.Replay

namespace PatternGraph

/-- Two elements of one kind stand next to each other. -/
def Repeats (elements : List PathElement) : Prop :=
  ∃ before x y after, elements = before ++ x :: y :: after ∧ x.node?.isSome = y.node?.isSome

theorem Repeats.cons {elements : List PathElement} (repeats : Repeats elements) (x : PathElement) :
    Repeats (x :: elements) := by
  obtain ⟨before, y, z, after, rfl, hkind⟩ := repeats
  exact ⟨x :: before, y, z, after, rfl, hkind⟩

namespace Path

/-! ## Lists that begin with a node -/

/-- After a node follows a node, or nothing but steps, or steps and one relationship more, unless
    two elements of one kind stand next to each other. -/
theorem repeats_or_steps : ∀ (n : PathNode) (rest : List PathElement),
    Repeats (.node n :: rest) ∨ (∃ l : List Step, rest = l.flatMap Step.elements) ∨
      ∃ (l : List Step) (e : PathEdge), rest = l.flatMap Step.elements ++ [.edge e]
  | _, [] => .inr (.inl ⟨[], rfl⟩)
  | _, [.edge e] => .inr (.inr ⟨[], e, rfl⟩)
  | n, .node m :: rest => .inl ⟨[], .node n, .node m, rest, rfl, rfl⟩
  | n, .edge d :: .edge e :: rest => .inl ⟨[.node n], .edge d, .edge e, rest, rfl, rfl⟩
  | n, .edge e :: .node m :: rest => by
    rcases repeats_or_steps m rest with hrepeats | ⟨l, hl⟩ | ⟨l, d, hl⟩
    · exact .inl ((hrepeats.cons (.edge e)).cons (.node n))
    · exact .inr (.inl ⟨⟨e, m⟩ :: l, by rw [List.flatMap_cons, hl]; rfl⟩)
    · exact .inr (.inr ⟨⟨e, m⟩ :: l, d, by rw [List.flatMap_cons, hl]; rfl⟩)

/-- What is true of a path that is blamed for a defect. -/
def Shows (p : Path) : PathDefect → Prop
  | .noElements => p.elements = []
  | .startsWithEdge => ∃ e rest, p.elements = .edge e :: rest
  | .unpairedEnd => ∃ n rest, p.elements = .node n :: rest ∧ p.elements.length % 2 = 0
  | .notAlternating =>
    ∃ n rest, p.elements = .node n :: rest ∧ p.elements.length % 2 = 1 ∧ Repeats p.elements
  | _ => False

/-- Where nodes and relationships take turns no two elements of one kind stand next to each
    other. -/
theorem Alternates.not_repeats {p : Path} (alternates : p.Alternates) : ¬ Repeats p.elements := by
  rintro ⟨before, x, y, after, helements, hkind⟩
  have hx : p.elements[before.length]? = some x := by rw [helements]; simp
  have hy : p.elements[before.length + 1]? = some y := by rw [helements]; simp
  have hnext := alternates.node_iff _ _ hx
  rw [hkind, alternates.node_iff _ _ hy] at hnext
  omega

theorem steps?_eq_error {els : List PathElement} {d : PathDefect} (h : steps? els = .error d) :
    d = .notAlternating := by
  fun_induction steps? els with
  | case1 => cases h
  | case2 e n rest ih =>
      cases hr : steps? rest with
      | error d' =>
          rw [hr] at h
          cases h
          exact ih hr
      | ok l =>
          rw [hr] at h
          cases h
  | case3 => cases h; rfl

/-- A list of pairs after a node is no list of steps exactly if two elements of one kind stand next
    to each other. -/
theorem steps?_eq_error_iff {n : PathNode} {rest : List PathElement} (heven : rest.length % 2 = 0)
    {d : PathDefect} :
    steps? rest = .error d ↔ d = .notAlternating ∧ Repeats (.node n :: rest) := by
  rcases repeats_or_steps n rest with hrepeats | ⟨l, rfl⟩ | ⟨l, e, rfl⟩
  · cases hr : steps? rest with
    | error d' =>
        obtain rfl := steps?_eq_error hr
        exact ⟨fun h => ⟨(Except.error.inj h).symm, hrepeats⟩, fun h => congrArg _ h.1.symm⟩
    | ok l =>
        obtain rfl := eq_flatMap_of_steps? hr
        have alternates := alternates_iff.mpr ⟨⟨n, l⟩, rfl⟩
        exact absurd hrepeats alternates.not_repeats
  · have alternates := alternates_iff.mpr ⟨⟨n, l⟩, rfl⟩
    rw [steps?_flatMap]
    exact ⟨nofun, fun h => absurd h.2 alternates.not_repeats⟩
  · rw [List.length_append, length_flatMap_elements, List.length_singleton] at heven
    omega

/-- A path is blamed for what it shows, and for nothing else. -/
theorem walk?_eq_error_iff {p : Path} {d : PathDefect} : p.walk? = .error d ↔ p.Shows d := by
  obtain ⟨els⟩ := p
  match els with
  | [] => cases d <;> simp [walk?, Shows]
  | .edge e :: rest => cases d <;> simp [walk?, Shows]
  | .node n :: rest =>
      by_cases hodd : rest.length % 2 = 1
      · have hwhole : (rest.length + 1) % 2 = 0 := by omega
        cases d <;> simp [walk?, Shows, hodd, hwhole]
      · have heven : rest.length % 2 = 0 := by omega
        have hwhole : (rest.length + 1) % 2 = 1 := by omega
        have hread : (⟨.node n :: rest⟩ : Path).walk? = .error d ↔ steps? rest = .error d := by
          have hwalk : (⟨.node n :: rest⟩ : Path).walk? = (steps? rest).map (⟨n, ·⟩) := if_neg hodd
          rw [hwalk]
          cases steps? rest with
          | error d' => exact ⟨fun h => by cases h; rfl, fun h => by cases h; rfl⟩
          | ok l => exact iff_of_false (fun h => by cases h) (fun h => by cases h)
        rw [hread, steps?_eq_error_iff (n := n) heven]
        cases d <;> simp [Shows, hwhole]

/-! ## What the words of a blame say -/

/-- What the words of a blame say of a path is true. -/
def Deserves (p : Path) : String → Prop
  | "path has no elements" => p.elements = []
  | "path must start with a node" => ∃ e rest, p.elements = .edge e :: rest
  | "path must end with a node" => ∃ before e, p.elements = before ++ [.edge e]
  | "nodes and relationships must alternate" => Repeats p.elements
  | _ => False

/-- A node at either end, and an even number of elements. -/
def EvenBetweenNodes (p : Path) : Prop :=
  ∃ n between m, p.elements = .node n :: (between ++ [.node m]) ∧ between.length % 2 = 0

theorem EvenBetweenNodes.shows {p : Path} (even : p.EvenBetweenNodes) : p.Shows .unpairedEnd := by
  obtain ⟨n, between, m, helements, heven⟩ := even
  refine ⟨n, between ++ [.node m], helements, ?_⟩
  rw [helements, List.length_cons, List.length_append, List.length_singleton]
  omega

/-- A path that is blamed for its end ends with a relationship, or it ends with a node as it
    begins. -/
theorem Shows.end_or_even {p : Path} (shows : p.Shows .unpairedEnd) :
    (∃ before e, p.elements = before ++ [.edge e]) ∨ p.EvenBetweenNodes := by
  obtain ⟨n, rest, helements, heven⟩ := shows
  rw [helements, List.length_cons] at heven
  rcases List.eq_nil_or_concat rest with rfl | ⟨between, last, rfl⟩
  · cases heven
  · cases last with
    | edge e => exact .inl ⟨.node n :: between, e, by rw [helements]; simp⟩
    | node m =>
        rw [List.concat_eq_append] at helements heven
        rw [List.length_append, List.length_singleton] at heven
        exact .inr ⟨n, between, m, helements, by omega⟩

theorem EvenBetweenNodes.not_end {p : Path} (even : p.EvenBetweenNodes) :
    ¬ ∃ before e, p.elements = before ++ [.edge e] := by
  obtain ⟨n, between, m, helements, -⟩ := even
  rintro ⟨before, e, hend⟩
  rw [helements, ← List.cons_append] at hend
  cases List.append_inj_right' hend rfl

/-- Between two nodes an even number of elements cannot take turns. -/
theorem EvenBetweenNodes.repeats {p : Path} (even : p.EvenBetweenNodes) : Repeats p.elements := by
  obtain ⟨n, rest, helements, heven⟩ := even.shows
  have hend := even.not_end
  rw [helements] at heven hend ⊢
  rcases repeats_or_steps n rest with hrepeats | ⟨l, rfl⟩ | ⟨l, e, rfl⟩
  · exact hrepeats
  · rw [List.length_cons, length_flatMap_elements] at heven
    omega
  · exact absurd ⟨.node n :: l.flatMap Step.elements, e, rfl⟩ hend

/-- What a path is blamed for is true of it unless it has an even number of elements and a node at
    either end. -/
theorem Shows.deserves_iff {p : Path} {d : PathDefect} (shows : p.Shows d) :
    p.Deserves d.reason ↔ ¬ p.EvenBetweenNodes := by
  cases d with
  | noElements =>
      have hempty : p.elements = [] := shows
      refine iff_of_true shows ?_
      rintro ⟨n, between, m, helements, -⟩
      rw [hempty] at helements
      cases helements
  | startsWithEdge =>
      refine iff_of_true shows ?_
      obtain ⟨e, rest, hedge⟩ := shows
      rintro ⟨n, between, m, helements, -⟩
      rw [hedge] at helements
      cases helements
  | unpairedEnd =>
      constructor
      · exact fun deserves even => even.not_end deserves
      · exact shows.end_or_even.resolve_right
  | notAlternating =>
      obtain ⟨-, -, -, hodd, hrepeats⟩ := shows
      refine iff_of_true hrepeats fun even => ?_
      obtain ⟨-, -, -, heven⟩ := even.shows
      rw [hodd] at heven
      cases heven
  | secondStart | edgeBeforeStart | nothingDrafted | described => exact shows.elim

end Path

/-- What adding a path blames its shape for is true of the path, unless it has an even number of
    elements and a node at either end; then two elements of one kind stand next to each other, but
    it is blamed for its end.  A path that does not take turns from a node to a node is always
    blamed. -/
theorem Edit.addPath_blames (c : Catalog) (p : Path) (g : Graph) :
    (∀ d, (addPath c p).outcome g = .error (.malformedPath d) →
      (p.Deserves d.reason ↔ ¬ p.EvenBetweenNodes)) ∧
    (p.EvenBetweenNodes →
      (addPath c p).outcome g = .error (.malformedPath .unpairedEnd) ∧ Repeats p.elements) ∧
    ((∃ d, (addPath c p).outcome g = .error (.malformedPath d)) ↔ ¬ p.Alternates) := by
  refine ⟨fun d h => ?_, fun even => ?_, ?_⟩
  · have shows := Path.walk?_eq_error_iff.mp (addPath_eq_malformed_iff.mp h)
    exact Path.Shows.deserves_iff shows
  · have hread := Path.walk?_eq_error_iff.mpr even.shows
    exact ⟨addPath_eq_malformed_iff.mpr hread, even.repeats⟩
  · have hread : (∃ w, p.walk? = .ok w) ↔ p.Alternates := by
      simp only [Path.walk?_eq_ok_iff, Path.alternates_iff]
    rw [← hread]
    exact malformed_addPath_iff

/-- Two nodes are blamed for their end, which is a node. -/
theorem Edit.addPath_blames_node_end :
    let p : Path := ⟨[.node ⟨"a", none⟩, .node ⟨"b", none⟩]⟩
    ∃ d, (addPath .empty p).outcome (.empty .standard) = .error (.malformedPath d) ∧
      d.reason = "path must end with a node" ∧ ¬ p.Deserves d.reason ∧ Repeats p.elements := by
  intro p
  have even : p.EvenBetweenNodes := ⟨_, [], _, rfl, rfl⟩
  exact ⟨.unpairedEnd, rfl, rfl, even.not_end, even.repeats⟩

end PatternGraph
