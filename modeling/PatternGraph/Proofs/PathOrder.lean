/-
  PatternGraph.Proofs.PathOrder

  The paths of a statement may be written in any order.  They are added one
  after the other when the graph admits all of their relationships together and
  when what they make in the end fits: a budget that is exceeded on the way is
  exceeded in the end as well, whichever path it is that is refused.  What they
  make says what the nodes and links of all of them say, listed path by path,
  and neither list depends on its order.
-/
import Mathlib.Data.Set.List
import PatternGraph.Proofs.Backwards
import PatternGraph.Proofs.Cutting

namespace PatternGraph

theorem Walk.path_injective : Function.Injective Walk.path := by
  intro v w h
  have hwalk := Path.walk?_path v
  rw [h, Path.walk?_path] at hwalk
  exact (Except.ok.inj hwalk).symm

namespace Graph

variable {g h : Graph} {c : Catalog} {w : Walk} {ws vs : List Walk}

/-! ## Walks one after the other -/

/-- The graph with walks added one after the other. -/
def extendAll (c : Catalog) (g : Graph) (ws : List Walk) : Graph := ws.foldl (extend c) g

theorem extendAll_cons (c : Catalog) (g : Graph) (w : Walk) (ws : List Walk) :
    g.extendAll c (w :: ws) = (g.extend c w).extendAll c ws :=
  rfl

theorem limits_extendAll (c : Catalog) (g : Graph) (ws : List Walk) :
    (g.extendAll c ws).limits = g.limits := by
  induction ws generalizing g with
  | nil => rfl
  | cons w rest ih => rw [extendAll_cons, ih, limits_extend]

/-- Walks keep a graph well formed; its nodes are joined by all of theirs, and it gets an edge for
    each of their links. -/
theorem WellFormed.extendAll (wf : g.WellFormed) (admits : g.AdmitsAll (ws.flatMap Walk.edges)) :
    (g.extendAll c ws).WellFormed ∧
      (g.extendAll c ws).nodeContents
        = (ws.flatMap Walk.nodes).foldl (joinContents c) g.nodeContents ∧
      (g.extendAll c ws).edgeContents
        = g.edgeContents ++ (ws.flatMap Walk.links).map (linkContent c) := by
  induction ws generalizing g with
  | nil => exact ⟨wf, rfl, (List.append_nil _).symm⟩
  | cons w rest ih =>
      obtain ⟨hfirst, hlater⟩ := (wf.admitsAll_append_iff c).mp admits
      obtain ⟨wf', hnodes, hedges⟩ := ih (wf.extend hfirst.free hfirst.nodup) hlater
      refine ⟨wf', ?_, ?_⟩
      · rw [extendAll_cons, hnodes, wf.nodeContents_extend hfirst.free hfirst.nodup,
          List.flatMap_cons, List.foldl_append]
      · rw [extendAll_cons, hedges, wf.edgeContents_extend hfirst.free hfirst.nodup,
          List.flatMap_cons, List.map_append, List.append_assoc]

/-- What walks are added to fits when what they make does. -/
theorem Fits.of_extendAll (fits : (g.extendAll c ws).Fits) (wf : g.WellFormed)
    (admits : g.AdmitsAll (ws.flatMap Walk.edges)) : g.Fits := by
  induction ws generalizing g with
  | nil => exact fits
  | cons w rest ih =>
      obtain ⟨hfirst, hlater⟩ := (wf.admitsAll_append_iff c).mp admits
      have hfits := ih fits (wf.extend hfirst.free hfirst.nodup) hlater
      exact hfits.of_extend wf hfirst.free hfirst.nodup

/-- Walks that are added to a tidy graph leave no vacated slots. -/
theorem Tidy.extendAll (tidy : g.Tidy) (wf : g.WellFormed)
    (admits : g.AdmitsAll (ws.flatMap Walk.edges)) : (g.extendAll c ws).Tidy := by
  induction ws generalizing g with
  | nil => exact tidy
  | cons w rest ih =>
      obtain ⟨hfirst, hlater⟩ := (wf.admitsAll_append_iff c).mp admits
      exact ih (tidy.extend wf hfirst.free hfirst.nodup) (wf.extend hfirst.free hfirst.nodup) hlater

/-- Walks with names are added, when they are written out, if their relationships are admitted
    together and what they make fits. -/
theorem WellFormed.addPaths_eq_ok (wf : g.WellFormed) (fits : g.Fits)
    (named : ∀ w ∈ ws, w.path.Named) :
    Edit.addPaths c (ws.map Walk.path) g = .ok () h ↔
      g.AdmitsAll (ws.flatMap Walk.edges) ∧ (g.extendAll c ws).Fits ∧ h = g.extendAll c ws := by
  induction ws generalizing g with
  | nil =>
      refine ⟨fun hrun => ?_, ?_⟩
      · cases hrun
        exact ⟨⟨nofun, List.nodup_nil⟩, fits, rfl⟩
      · rintro ⟨-, -, rfl⟩
        rfl
  | cons w rest ih =>
      obtain ⟨hw, hrest⟩ := List.forall_mem_cons.mp named
      have hwalk := Path.walk?_path w
      rw [List.map_cons, Edit.addPaths_cons_eq_ok fits.slots hw, List.flatMap_cons,
        wf.admitsAll_append_iff c, extendAll_cons]
      constructor
      · rintro ⟨w', hw', takes, hrun⟩
        obtain rfl := Except.ok.inj (hwalk.symm.trans hw')
        obtain ⟨hfirst, hfits⟩ := (wf.takes_iff_admitsAll c).mp takes
        have wf' := wf.extend (c := c) hfirst.free hfirst.nodup
        obtain ⟨hlater, hfitsAll, rfl⟩ := (ih wf' hfits hrest).mp hrun
        exact ⟨⟨hfirst, hlater⟩, hfitsAll, rfl⟩
      · rintro ⟨⟨hfirst, hlater⟩, hfitsAll, rfl⟩
        have wf' := wf.extend (c := c) hfirst.free hfirst.nodup
        -- the walks after the first only add, so the first one fits when all of them do
        have hfits := hfitsAll.of_extendAll wf' hlater
        exact ⟨w, hwalk, (wf.takes_iff_admitsAll c).mpr ⟨hfirst, hfits⟩,
          (ih wf' hfits hrest).mpr ⟨hlater, hfitsAll, rfl⟩⟩

/-! ## Another order -/

theorem AdmitsAll.perm {edges later : List PathEdge} (admits : g.AdmitsAll edges)
    (order : edges.Perm later) : g.AdmitsAll later where
  each e he := admits.each e (order.mem_iff.mpr he)
  nodup := (order.map _).nodup_iff.mp admits.nodup

section Order

variable (order : ws.Perm vs) (wf : g.WellFormed)
  (admits : g.AdmitsAll (ws.flatMap Walk.edges))
include order wf admits

/-- Walks whose nodes agree say the same in any order. -/
theorem WellFormed.extendAll_perm
    (agrees : ∀ m ∈ ws.flatMap Walk.nodes, ∀ n ∈ ws.flatMap Walk.nodes, m.Agrees n) :
    (g.extendAll c ws).nodeContents.Perm (g.extendAll c vs).nodeContents ∧
      (g.extendAll c ws).edgeContents.Perm (g.extendAll c vs).edgeContents := by
  obtain ⟨-, hnodes, hedges⟩ := wf.extendAll (c := c) admits
  obtain ⟨-, hnodes', hedges'⟩ := wf.extendAll (c := c) (admits.perm (order.flatMap_right _))
  rw [hnodes, hnodes', hedges, hedges']
  exact ⟨foldl_joinContents_perm (order.flatMap_right _) agrees _,
    ((order.flatMap_right _).map _).append_left _⟩

/-- What walks make of a tidy graph in another order has the same names, so it fits as well. -/
theorem Fits.extendAll_perm (fits : (g.extendAll c ws).Fits) (tidy : g.Tidy)
    (agrees : ∀ m ∈ ws.flatMap Walk.nodes, ∀ n ∈ ws.flatMap Walk.nodes, m.Agrees n) :
    (g.extendAll c vs).Fits := by
  obtain ⟨hnodes, hedges⟩ := wf.extendAll_perm (c := c) order admits agrees
  have admits' := admits.perm (order.flatMap_right _)
  refine fits.of_names (tidy.extendAll wf admits') (wf.extendAll admits').1 (wf.extendAll admits).1
    ?_ (fun a ha => ?_) fun a ha => ?_
  · rw [limits_extendAll, limits_extendAll]
  · rw [hasNode_iff_mem_nodeNames] at ha ⊢
    exact (hnodes.map _).mem_iff.mpr ha
  · rw [hasEdge_iff_mem_edgeNames] at ha ⊢
    exact (hedges.map _).mem_iff.mpr ha

end Order

end Graph

/-! ## Statements -/

namespace Edit

variable {c : Catalog} {ps : List Path} {g h : Graph}

/-- Paths that are added are walks written out. -/
theorem exists_walks_of_addPaths (named : ∀ p ∈ ps, p.Named)
    (run : addPaths c ps g = .ok () h) : ∃ ws : List Walk, ps = ws.map Walk.path := by
  induction ps generalizing g with
  | nil => exact ⟨[], rfl⟩
  | cons p rest ih =>
      obtain ⟨hp, hrest⟩ := List.forall_mem_cons.mp named
      obtain ⟨w, hw, -, hrun⟩ := addPaths_cons_of_ok hp run
      obtain ⟨ws, rfl⟩ := ih hrest hrun
      exact ⟨w :: ws, by rw [Path.eq_path_of_walk? hw, List.map_cons]⟩

end Edit

namespace Graph

variable {ps qs : List Path} {g : Graph}

/-- A statement that is accepted is accepted in another order, and says the same. -/
theorem exists_ofPaths_perm {c : Catalog} {limits : Limits} (order : ps.Perm qs)
    (named : ∀ p ∈ ps, p.Named)
    (labels : ∀ m ∈ ps.flatMap Path.nodes, ∀ n ∈ ps.flatMap Path.nodes, m.Agrees n)
    (made : Graph.ofPaths c limits ps = .ok g) :
    ∃ h, Graph.ofPaths c limits qs = .ok h ∧
      g.nodeContents.Perm h.nodeContents ∧ g.edgeContents.Perm h.edgeContents := by
  have hrun := addPaths_of_ofPaths made
  obtain ⟨ws, rfl⟩ := Edit.exists_walks_of_addPaths named hrun
  -- the other order is an order of the same walks
  have hwritten : qs ∈ Set.range (List.map Walk.path) := by
    rw [Set.range_list_map]
    intro q hq
    obtain ⟨w, -, hw⟩ := List.mem_map.mp (order.mem_iff.mpr hq)
    exact ⟨w, hw⟩
  obtain ⟨vs, rfl⟩ := hwritten
  have order' : ws.Perm vs := (List.map_perm_map_iff Walk.path_injective).mp order
  have named' : ∀ w ∈ ws, w.path.Named := fun w hw => named _ (List.mem_map_of_mem hw)
  have agrees : ∀ m ∈ ws.flatMap Walk.nodes, ∀ n ∈ ws.flatMap Walk.nodes, m.Agrees n := by
    simpa only [List.flatMap_map, Walk.nodes_path] using labels
  have wf : (Graph.empty limits).WellFormed := .empty limits
  have fits : (Graph.empty limits).Fits :=
    ⟨Nat.zero_le _, Nat.zero_le _, (Sound.empty limits).slots⟩
  obtain ⟨admits, hfits, rfl⟩ := (wf.addPaths_eq_ok fits named').mp hrun
  have named'' : ∀ w ∈ vs, w.path.Named := fun w hw => named' w (order'.mem_iff.mpr hw)
  have hfits' := hfits.extendAll_perm order' wf admits (.empty limits) agrees
  refine ⟨_, ofPaths_eq_ok.mpr ((wf.addPaths_eq_ok fits named'').mpr
    ⟨admits.perm (order'.flatMap_right _), hfits', rfl⟩), ?_⟩
  exact wf.extendAll_perm order' admits agrees

/-- The paths of a statement may be written in any order: it is accepted in one when it is in
    another, and both graphs say the same of their nodes and of their edges.  No name is anonymous,
    and none is written with two labels. -/
theorem ofPaths_perm (c : Catalog) (limits : Limits) (order : ps.Perm qs)
    (named : ∀ p ∈ ps, p.Named)
    (labels : ∀ m ∈ ps.flatMap Path.nodes, ∀ n ∈ ps.flatMap Path.nodes, m.Agrees n) :
    ((∃ g, Graph.ofPaths c limits ps = .ok g) ↔ ∃ h, Graph.ofPaths c limits qs = .ok h) ∧
      ∀ g h, Graph.ofPaths c limits ps = .ok g → Graph.ofPaths c limits qs = .ok h →
        g.nodeContents.Perm h.nodeContents ∧ g.edgeContents.Perm h.edgeContents := by
  have hforth : ∀ g, Graph.ofPaths c limits ps = .ok g → ∃ h, Graph.ofPaths c limits qs = .ok h ∧
      g.nodeContents.Perm h.nodeContents ∧ g.edgeContents.Perm h.edgeContents := fun _ =>
    exists_ofPaths_perm order named labels
  have hsame : ∀ {m}, m ∈ ps.flatMap Path.nodes ↔ m ∈ qs.flatMap Path.nodes :=
    (order.flatMap_right Path.nodes).mem_iff
  refine ⟨⟨fun ⟨g, hg⟩ => ?_, fun ⟨h, hh⟩ => ?_⟩, fun g h hg hh => ?_⟩
  · obtain ⟨h, hh, -⟩ := hforth g hg
    exact ⟨h, hh⟩
  · obtain ⟨g, hg, -⟩ := exists_ofPaths_perm order.symm
      (fun q hq => named q (order.mem_iff.mpr hq))
      (fun m hm n hn => labels m (hsame.mpr hm) n (hsame.mpr hn)) hh
    exact ⟨g, hg⟩
  · obtain ⟨k, hk, hperm⟩ := hforth g hg
    obtain rfl := Except.ok.inj (hh.symm.trans hk)
    exact hperm

/-- A label that comes with the last sighting of its node in one order and with the first in the
    other; the budgets are full in the end. -/
theorem ofPaths_perm_when_full :
    let step (a : PathNode) (r : PathEdge) (b : PathNode) : Path := ⟨[.node a, .edge r, .node b]⟩
    let ps := [step ⟨"x", none⟩ ⟨"r", .outgoing, ["R"], none⟩ ⟨"y", none⟩,
      step ⟨"y", some "B"⟩ ⟨"s", .incoming, ["S", "T"], none⟩ ⟨"z", none⟩,
      step ⟨"z", none⟩ ⟨"u", .both, [], some ⟨none, some 2⟩⟩ ⟨"x", some "A"⟩]
    let qs := ps.reverse
    let g := (Edit.addPaths .empty ps).after (.empty ⟨3, 3, 2⟩)
    Graph.ofPaths .empty ⟨3, 3, 2⟩ ps = .ok g ∧
      (g.nodeContents.map fun d => (d.name, d.label))
        = [("x", some "A"), ("y", some "B"), ("z", none)] ∧
      ∃ h, Graph.ofPaths .empty ⟨3, 3, 2⟩ qs = .ok h ∧
        g.nodeContents.Perm h.nodeContents ∧ g.edgeContents.Perm h.edgeContents := by
  intro step ps qs g
  have hg : Graph.ofPaths .empty ⟨3, 3, 2⟩ ps = .ok g :=
    ofPaths_eq_ok.mpr (Edit.ok_after_of_outcome (by decide +kernel))
  obtain ⟨haccepted, hsame⟩ := ofPaths_perm .empty ⟨3, 3, 2⟩
    (List.reverse_perm ps).symm (by decide +kernel) (by decide +kernel)
  obtain ⟨h, hh⟩ := haccepted.mp ⟨g, hg⟩
  exact ⟨hg, by decide +kernel, h, hh, hsame g h hg hh⟩

end Graph

end PatternGraph
