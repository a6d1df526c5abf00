/-
  PatternGraph.Proofs.Projection

  The matrix of a graph.  Rows and columns are slots of a copy, where slots and
  numbers are the same, so a caller who reads the numbers of the graph itself
  finds the entries where they are.  What a backend is asked to do is said for
  all backends; sparse matrices do it without refusing.
-/
import PatternGraph.Graph.Projection
import PatternGraph.Proofs.Agreement
import PatternGraph.Proofs.Sparse

namespace PatternGraph

variable {M ε : Type}

/-- A square matrix in which entries are set one after the other, until the backend refuses. -/
def MatrixBackend.fill (backend : MatrixBackend M ε) (size : Nat) (cells : List (Nat × Nat)) :
    Except ε M := do
  let m ← backend.zero size size
  cells.foldlM (fun m cell => backend.setEntry m cell.1 cell.2) m

namespace Graph

variable {g : Graph} {x y : NodeId} {m n : Node} {e : Edge}

/-- The number that the graph gives to the name of a node. -/
def ordinal? (g : Graph) (x : NodeId) : Option Nat :=
  (g.nameOf? x).bind fun name => g.ordinals.lookup name

/-- The row and the column of an edge: the numbers of its source and of its destination. -/
def cell? (g : Graph) (e : Edge) : Option (Nat × Nat) := do
  return (← g.ordinal? e.src, ← g.ordinal? e.dest)

theorem cell?_eq_some {i j : Nat} :
    g.cell? e = some (i, j) ↔ g.ordinal? e.src = some i ∧ g.ordinal? e.dest = some j := by
  rw [cell?]
  cases g.ordinal? e.src <;> cases g.ordinal? e.dest <;> simp

/-! ## Numbers and slots of the copy -/

namespace WellFormed

variable (wf : g.WellFormed)
include wf

/-- The number of a node is its slot in the copy, and less than the number of nodes. -/
theorem ordinal?_eq (h : g.node? x = some n) :
    g.ordinal? x = some (g.copyId x).index ∧ (g.copyId x).index < g.nodeCount := by
  have hvalue := getElem?_values_copyId h
  have hname : (g.nodes.values.map Node.name)[(g.copyId x).index]? = some n.name := by
    rw [List.getElem?_map, hvalue]
    rfl
  refine ⟨?_, ?_⟩
  · rw [ordinal?, nameOf?_of_live h]
    show g.ordinals.lookup n.name = _
    rw [ordinals, lookup_zipIdx (nodup_nodeNames wf) hname, Nat.zero_add]
  · rw [← wf.length_nodeContents, nodeContents, List.length_map]
    exact (List.getElem?_eq_some_iff.mp hvalue).1

/-- Different nodes have different slots in the copy. -/
theorem copyId_inj (hx : g.node? x = some m) (hy : g.node? y = some n)
    (h : (g.copyId x).index = (g.copyId y).index) : x = y := by
  have hvalue := getElem?_values_copyId hx
  rw [h, getElem?_values_copyId hy] at hvalue
  exact wf.node_name_inj hx hy (congrArg Node.name (Option.some.inj hvalue).symm)

/-- Where a live edge stands in the matrix. -/
theorem cell?_of_mem (he : e ∈ g.edges.values) :
    g.cell? e = some ((g.copyEdge e).src.index, (g.copyEdge e).dest.index) ∧
      (g.copyEdge e).src.index < g.nodeCount ∧ (g.copyEdge e).dest.index < g.nodeCount := by
  obtain ⟨⟨a, ha⟩, b, hb⟩ := wf.live_of_mem he
  obtain ⟨hsrc, hsrc'⟩ := wf.ordinal?_eq ha
  obtain ⟨hdest, hdest'⟩ := wf.ordinal?_eq hb
  exact ⟨cell?_eq_some.mpr ⟨hsrc, hdest⟩, hsrc', hdest'⟩

end WellFormed

/-- The entries of the edges, in order. -/
def cells (g : Graph) : List (Nat × Nat) :=
  g.edges.values.map fun e => ((g.copyEdge e).src.index, (g.copyEdge e).dest.index)

theorem WellFormed.map_cell? (wf : g.WellFormed) :
    g.edges.values.map g.cell? = g.cells.map some := by
  rw [cells, List.map_map]
  exact List.map_congr_left fun e he => (wf.cell?_of_mem he).1

theorem WellFormed.cells_lt (wf : g.WellFormed) :
    ∀ cell ∈ g.cells, cell.1 < g.nodeCount ∧ cell.2 < g.nodeCount := by
  intro cell hcell
  obtain ⟨e, he, rfl⟩ := List.mem_map.mp hcell
  exact (wf.cell?_of_mem he).2

/-- An entry is set when an edge has it. -/
theorem WellFormed.mem_cells (wf : g.WellFormed) {i j : Nat} :
    (i, j) ∈ g.cells ↔ ∃ id e, g.edge? id = some e ∧ g.ordinal? e.src = some i ∧
      g.ordinal? e.dest = some j := by
  have hsome : Function.Injective (some : Nat × Nat → _) := fun _ _ => Option.some.inj
  rw [← List.mem_map_of_injective hsome, ← wf.map_cell?, List.mem_map]
  refine ⟨?_, ?_⟩
  · rintro ⟨e, he, hentry⟩
    obtain ⟨id, hid⟩ := mem_values_edges.mp he
    exact ⟨id, e, hid, cell?_eq_some.mp hentry⟩
  · rintro ⟨id, e, hid, hends⟩
    exact ⟨e, mem_values_edges.mpr ⟨id, hid⟩, cell?_eq_some.mpr hends⟩

/-- There are as many different entries as different pairs of ends. -/
theorem WellFormed.length_eraseDups_cells (wf : g.WellFormed) :
    g.cells.eraseDups.length
      = (g.edges.values.map fun e => (e.src, e.dest)).eraseDups.length := by
  have hcells : g.cells = (g.edges.values.map fun e => (e.src, e.dest)).map fun ends =>
      ((g.copyId ends.1).index, (g.copyId ends.2).index) := by
    rw [cells, List.map_map]
    rfl
  rw [hcells, length_eraseDups_map]
  rintro p hp q hq heq
  obtain ⟨d, hd, rfl⟩ := List.mem_map.mp hp
  obtain ⟨e, he, rfl⟩ := List.mem_map.mp hq
  obtain ⟨⟨a, ha⟩, b, hb⟩ := wf.live_of_mem hd
  obtain ⟨⟨a', ha'⟩, b', hb'⟩ := wf.live_of_mem he
  obtain ⟨hsrc, hdest⟩ := Prod.mk.inj heq
  exact Prod.ext (wf.copyId_inj ha ha' hsrc) (wf.copyId_inj hb hb' hdest)

/-! ## What a backend is asked to do -/

theorem ofBackend_bind {α β : Type} (describe : ε → String) (x : Except ε α) (f : α → Except ε β) :
    ofBackend describe (x >>= f) = ofBackend describe x >>= fun a => ofBackend describe (f a) := by
  cases x <;> rfl

theorem setEntries_eq (backend : MatrixBackend M ε) (m : M) (edges : List Edge) :
    setEntries backend m edges = ofBackend backend.describe
      (edges.foldlM (fun m e => backend.setEntry m e.src.index e.dest.index) m) := by
  induction edges generalizing m with
  | nil => rfl
  | cons e rest ih =>
      rw [List.foldlM_cons, ofBackend_bind, setEntries]
      exact bind_congr ih

/-- The matrix of a graph is filled with its entries, and a refusal is told in the words of the
    backend. -/
theorem Sound.toMatrix_eq (sound : g.Sound) (backend : MatrixBackend M ε) :
    g.toMatrix backend
      = ofBackend backend.describe (backend.fill g.nodeCount g.cells) := by
  rw [MatrixBackend.fill, ofBackend_bind, toMatrix, (Agrees.compact sound).nodeCount_eq]
  refine bind_congr fun m => ?_
  rw [setEntries_eq, values_edges_compact sound.slots, List.foldlM_map, cells, List.foldlM_map]

/-- Handles of nodes are words, so there are fewer nodes than words. -/
theorem Sound.nodeCount_lt (sound : g.Sound) : g.nodeCount < UInt32.size := by
  have hcount : g.nodeCount ≤ g.nodes.size := sound.nodes_counted.live_le_size
  exact Nat.lt_succ_of_le (Nat.le_trans hcount sound.slots.nodes)

/-- The sparse matrix of a graph is filled with its entries and not refused. -/
theorem Sound.toMatrix_sparse (sound : g.Sound) :
    ∃ m, g.toMatrix SparseMatrix.backend = .ok m ∧
      m.Represents g.nodeCount g.nodeCount g.cells := by
  obtain ⟨start, hzero, hstart⟩ := SparseMatrix.represents_zero g.nodeCount sound.nodeCount_lt
  obtain ⟨m, hfold, hm⟩ := hstart.foldlM_setEntry sound.cells_lt
  have hfill : SparseMatrix.backend.fill g.nodeCount g.cells = .ok m := by
    show (SparseMatrix.zero g.nodeCount g.nodeCount >>= fun m => g.cells.foldlM _ m) = _
    rw [hzero]
    exact hfold
  exact ⟨m, by rw [sound.toMatrix_eq, hfill]; rfl, hm⟩

/-- The sparse matrix of a graph was given the entries of its edges. -/
theorem Sound.represents_of_toMatrix (sound : g.Sound) {m : SparseMatrix}
    (hm : g.toMatrix SparseMatrix.backend = .ok m) :
    m.Represents g.nodeCount g.nodeCount g.cells := by
  obtain ⟨m', hmade, represents⟩ := sound.toMatrix_sparse
  rw [hmade] at hm
  cases hm
  exact represents

end Graph

open PatternGraph.Graph

namespace Reachable

variable {g : Graph}

/-- The matrix of a graph that can come up.  Any backend is asked for a square matrix with a row for
    every node, and then for the entry of every edge, in order, until it refuses; rows and columns
    are the numbers that the graph itself gives to the names of the ends.  A sparse matrix is never
    refused, since a graph gives its nodes words as handles and so has no more of them than a sparse
    matrix can have columns; its true entries are those of the edges. -/
theorem matrix_exact (reach : Reachable g) :
    (∃ cells : List (Nat × Nat), g.edges.values.map g.cell? = cells.map some ∧
      (∀ cell ∈ cells, cell.1 < g.nodeCount ∧ cell.2 < g.nodeCount) ∧
      ∀ (M ε : Type) (backend : MatrixBackend M ε),
        g.toMatrix backend = ofBackend backend.describe (backend.fill g.nodeCount cells)) ∧
    ∃ m, g.toMatrix SparseMatrix.backend = .ok m ∧
      m.rowCount = g.nodeCount ∧ m.columnCount = g.nodeCount ∧
      (∀ i j, m.get i j = true ↔ ∃ id e, g.edge? id = some e ∧ g.ordinal? e.src = some i ∧
        g.ordinal? e.dest = some j) ∧
      m.entryCount = (g.edges.values.map fun e => (e.src, e.dest)).eraseDups.length := by
  have sound := reach.sound
  refine ⟨⟨g.cells, sound.map_cell?, sound.cells_lt, fun _ _ => sound.toMatrix_eq⟩, ?_⟩
  obtain ⟨m, hm, represents⟩ := sound.toMatrix_sparse
  refine ⟨m, hm, represents.rows, represents.columns, fun i j => ?_, ?_⟩
  · rw [represents.get_iff, sound.mem_cells]
  · rw [represents.entryCount_eq, sound.length_eraseDups_cells]

/-- Two parallel edges, one of them turned round, and a loop, after a node before them was taken out
    and a node came in by a merge: a backend that records what it is asked for, one that refuses the
    second entry, and a sparse matrix. -/
theorem matrix_exact_of_removal :
    let edge (r : String) (src dest : Nat) : Command :=
      .addEdge ⟨r, ⟨src⟩, ⟨dest⟩, [], [], false, .single⟩
    let g := Command.runAll
      [.addNode "x", .addNode "a", .addNode "b", edge "r" 1 2, edge "s" 2 1, edge "l" 2 2,
        .reverseEdge ⟨1⟩, .removeNode ⟨0⟩, .merge ((Command.addNode "c").run (.empty .standard))]
      (.empty .standard)
    let record : MatrixBackend (List (Nat × Nat)) String :=
      ⟨fun rows columns => .ok [(rows, columns)], fun m i j => .ok (m ++ [(i, j)]), id⟩
    let refuse : MatrixBackend Bool String :=
      ⟨fun _ _ => .ok false, fun m _ _ => if m then .error "twice" else .ok true, id⟩
    g.toMatrix record = .ok [(3, 3), (0, 1), (0, 1), (1, 1)] ∧
      g.toMatrix refuse = .error (.matrix "twice") ∧
      ∃ m, g.toMatrix SparseMatrix.backend = .ok m ∧ m.rowCount = 3 ∧ m.entryCount = 2 := by
  intro edge g record refuse
  have hother : Reachable ((Command.addNode "c").run (.empty .standard)) :=
    .run _ (.empty .standard) nofun nofun
  have reach : Reachable g :=
    (Reachable.empty _).runAll (by simp [edge, Command.operand?, hother])
    (by simp [edge, Command.edge?, Edge.made_iff])
  obtain ⟨⟨cells, hcells, -, hall⟩, m, hm, hrows, -, -, hentries⟩ := reach.matrix_exact
  have hsome : Function.Injective (some : Nat × Nat → _) := fun _ _ => Option.some.inj
  have hlist : cells = [(0, 1), (0, 1), (1, 1)] :=
    List.map_injective_iff.mpr hsome (hcells.symm.trans (by decide +kernel))
  have hcount : g.nodeCount = 3 := by decide +kernel
  rw [hcount] at hall hrows
  refine ⟨?_, ?_, m, hm, hrows, hentries.trans (by decide +kernel)⟩
  · rw [hall, hlist]
    rfl
  · rw [hall, hlist]
    rfl

end Reachable

end PatternGraph
