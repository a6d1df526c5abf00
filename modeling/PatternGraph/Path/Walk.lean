/-
  PatternGraph.Path.Walk

  A path of the right shape: a starting node and steps, each a relationship and
  the node that it leads to.  Reading a path as a walk either finds these parts
  or says what is wrong with the shape; writing the walk out again gives the
  path back.  The paths of that shape are those in which nodes and
  relationships take turns.
-/
import PatternGraph.Path.Basic
import PatternGraph.Path.Defect

namespace PatternGraph

/-- One step of a walk. -/
structure Step where
  edge : PathEdge
  target : PathNode
deriving DecidableEq

/-- The two elements of a step. -/
def Step.elements (s : Step) : List PathElement := [.edge s.edge, .node s.target]

/-- A starting node and the steps from it. -/
structure Walk where
  start : PathNode
  steps : List Step
deriving DecidableEq

namespace Walk

/-- The nodes in order, repeated ones included. -/
def nodes (w : Walk) : List PathNode := w.start :: w.steps.map Step.target

/-- The relationships in order. -/
def edges (w : Walk) : List PathEdge := w.steps.map Step.edge

/-- Every name that is written, those of the nodes first. -/
def names (w : Walk) : List String :=
  w.nodes.map PathNode.name ++ w.edges.map PathEdge.name

/-- The walk written out. -/
def path (w : Walk) : Path := ⟨.node w.start :: w.steps.flatMap Step.elements⟩

/-- The walk with every name replaced. -/
def rename (f : String → String) (w : Walk) : Walk where
  start := { w.start with name := f w.start.name }
  steps := w.steps.map fun s =>
    { edge := { s.edge with name := f s.edge.name }
      target := { s.target with name := f s.target.name } }

theorem length_steps_rename (w : Walk) (f : String → String) :
    (w.rename f).steps.length = w.steps.length :=
  List.length_map _

/-- The nodes that are written out are those of the walk. -/
theorem nodes_path (w : Walk) : w.path.nodes = w.nodes := by
  have hsteps : ∀ l : List Step, (l.flatMap Step.elements).filterMap PathElement.node?
      = l.map Step.target := by
    intro l
    induction l with
    | nil => rfl
    | cons s rest ih => exact congrArg (s.target :: ·) ih
  exact congrArg (w.start :: ·) (hsteps w.steps)

/-- The relationships that are written out are those of the walk. -/
theorem edges_path (w : Walk) : w.path.edges = w.edges := by
  have hsteps : ∀ l : List Step, (l.flatMap Step.elements).filterMap PathElement.edge?
      = l.map Step.edge := by
    intro l
    induction l with
    | nil => rfl
    | cons s rest ih => exact congrArg (s.edge :: ·) ih
  exact hsteps w.steps

end Walk

namespace Path

/-- Reads elements two by two as steps. -/
def steps? : List PathElement → Except PathDefect (List Step)
  | [] => .ok []
  | .edge e :: .node n :: rest => (steps? rest).map (⟨e, n⟩ :: ·)
  | _ => .error .notAlternating

/-- Reads a path as a walk.  An odd number of elements after the first is reported before
anything is said of their kinds. -/
def walk? (p : Path) : Except PathDefect Walk :=
  match p.elements with
  | [] => .error .noElements
  | .edge _ :: _ => .error .startsWithEdge
  | .node n :: rest =>
    if rest.length % 2 = 1 then .error .unpairedEnd
    else (steps? rest).map (⟨n, ·⟩)

/-! ## Reading and writing -/

theorem steps?_flatMap (l : List Step) : steps? (l.flatMap Step.elements) = .ok l := by
  induction l with
  | nil => rfl
  | cons s rest ih =>
    rw [List.flatMap_cons]
    show (steps? (rest.flatMap Step.elements)).map (⟨s.edge, s.target⟩ :: ·) = .ok (s :: rest)
    rw [ih]
    rfl

theorem eq_flatMap_of_steps? {els : List PathElement} {l : List Step} (h : steps? els = .ok l) :
    els = l.flatMap Step.elements := by
  fun_induction steps? els generalizing l with
  | case1 => cases h; rfl
  | case2 e n rest ih =>
    cases hr : steps? rest with
    | error d => rw [hr] at h; cases h
    | ok l' =>
      rw [hr] at h
      cases h
      rw [List.flatMap_cons, ← ih hr]
      rfl
  | case3 => cases h

theorem length_flatMap_elements (l : List Step) :
    (l.flatMap Step.elements).length = 2 * l.length := by
  induction l with
  | nil => rfl
  | cons s rest ih => simp [List.flatMap_cons, Step.elements, ih]; omega

/-- A walk that is written out is read back. -/
theorem walk?_path (w : Walk) : w.path.walk? = .ok w := by
  simp only [walk?, Walk.path]
  rw [if_neg (by rw [length_flatMap_elements]; omega), steps?_flatMap]
  rfl

/-- A path that is read as a walk is that walk written out. -/
theorem eq_path_of_walk? {p : Path} {w : Walk} (h : p.walk? = .ok w) : p = w.path := by
  obtain ⟨els⟩ := p
  match els with
  | [] => cases h
  | .edge _ :: _ => cases h
  | .node n :: rest =>
    simp only [walk?] at h
    split at h
    · cases h
    · cases hr : steps? rest with
      | error d => rw [hr] at h; cases h
      | ok l =>
        rw [hr] at h
        cases h
        rw [Walk.path, ← eq_flatMap_of_steps? hr]

/-- The paths of the right shape are the walks written out. -/
theorem walk?_eq_ok_iff {p : Path} {w : Walk} : p.walk? = .ok w ↔ p = w.path :=
  ⟨eq_path_of_walk?, fun h => h ▸ walk?_path w⟩

/-! ## Taking turns -/

/-- Nodes and relationships take turns, from a node to a node: the number of elements is odd, and
the even places, counted from zero, are those of the nodes. -/
structure Alternates (p : Path) : Prop where
  odd : p.elements.length % 2 = 1
  node_iff : ∀ i x, p.elements[i]? = some x → (x.node?.isSome = true ↔ i % 2 = 0)

/-- Elements that begin with a relationship, end with a node and take turns are steps. -/
theorem exists_steps : (els : List PathElement) → els.length % 2 = 0 →
    (∀ i x, els[i]? = some x → (x.node?.isSome = true ↔ i % 2 = 1)) →
    ∃ l : List Step, els = l.flatMap Step.elements
  | [], _, _ => ⟨[], rfl⟩
  | .edge e :: .node n :: rest, heven, hturns => by
    have hlen : rest.length % 2 = 0 := by
      simp only [List.length_cons] at heven
      omega
    obtain ⟨l, hl⟩ := exists_steps rest hlen fun i x hx => by
      have hlater := hturns (i + 2) x hx
      rw [hlater]
      omega
    exact ⟨⟨e, n⟩ :: l, by rw [List.flatMap_cons, ← hl]; rfl⟩
  | [.edge _], heven, _ => absurd heven (by simp)
  | .edge _ :: .edge d :: _, _, hturns =>
    absurd ((hturns 1 (.edge d) rfl).mpr rfl) Bool.false_ne_true
  | .node n :: _, _, hturns => absurd ((hturns 0 (.node n) rfl).mp rfl) (by decide)

/-- Steps that are written out take turns. -/
theorem node_iff_of_steps {l : List Step} {i : Nat} {x : PathElement}
    (h : (l.flatMap Step.elements)[i]? = some x) : x.node?.isSome = true ↔ i % 2 = 1 := by
  induction l generalizing i with
  | nil => simp at h
  | cons s rest ih =>
    match i with
    | 0 =>
      obtain rfl : PathElement.edge s.edge = x := Option.some.inj h
      simp [PathElement.node?]
    | 1 =>
      obtain rfl : PathElement.node s.target = x := Option.some.inj h
      simp [PathElement.node?]
    | i + 2 =>
      rw [ih h]
      omega

/-- The paths that alternate are the walks written out. -/
theorem alternates_iff {p : Path} : p.Alternates ↔ ∃ w : Walk, p = w.path := by
  constructor
  · intro ⟨hodd, hturns⟩
    obtain ⟨els⟩ := p
    match els with
    | [] => simp at hodd
    | .edge e :: rest => exact absurd ((hturns 0 (.edge e) rfl).mpr rfl) Bool.false_ne_true
    | .node n :: rest =>
      have heven : rest.length % 2 = 0 := by
        simp only [List.length_cons] at hodd
        omega
      obtain ⟨l, rfl⟩ := exists_steps rest heven fun i x hx => by
        rw [hturns (i + 1) x hx]
        omega
      exact ⟨⟨n, l⟩, rfl⟩
  · rintro ⟨w, rfl⟩
    refine ⟨?_, ?_⟩
    · show (w.steps.flatMap Step.elements).length.succ % 2 = 1
      rw [length_flatMap_elements]
      omega
    · intro i x hx
      match i with
      | 0 =>
        obtain rfl : PathElement.node w.start = x := Option.some.inj hx
        simp [PathElement.node?]
      | i + 1 =>
        rw [node_iff_of_steps (l := w.steps) hx]
        omega

end Path

end PatternGraph
