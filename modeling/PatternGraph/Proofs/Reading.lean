/-
  PatternGraph.Proofs.Reading

  The text of a graph is read back.  Every name in it is set off by one of five
  marks; every part that may be left out begins with a mark that does not stand
  where the part is missing; and the hops are written with a star only where they
  are not a single hop.  So the text tells the nodes with their labels and the
  edges with their types, hops, direction and ends, as long as the names hold
  none of the five marks.
-/
import Mathlib.Data.Set.Insert
import PatternGraph.Graph.Text
import PatternGraph.Proofs.Legible
import PatternGraph.Proofs.Reachability

namespace PatternGraph

/-! ## Names and numbers -/

/-- The characters that set off names in the text of a graph. -/
def marks : List Char := [':', ')', '|', '*', ']']

/-- The name holds none of the characters that set off names. -/
def Unmarked (name : String) : Prop := ∀ c ∈ name.toList, c ∉ marks

-- the characters of the name are looked through, and not all characters there are
instance (name : String) : Decidable (Unmarked name) := List.decidableBAll _ name.toList

/-- Letters, digits and underscores are no marks. -/
theorem unmarked_of_word {name : String}
    (h : ∀ c ∈ name.toList, c.isAlphanum = true ∨ c = '_') : Unmarked name := by
  intro c hc hmark
  have hword := h c hc
  simp only [marks, List.mem_cons, List.not_mem_nil, or_false] at hmark
  obtain rfl | rfl | rfl | rfl | rfl := hmark <;> exact absurd hword (by decide)

theorem legible_name {follow : Set (Option Char)} (hfollow : ∀ c, some c ∈ follow → c ∈ marks) :
    Legible Unmarked id Set.univ follow id :=
  .of_run (fun _ h => h) (fun c hc h => h (hfollow c hc)) fun _ _ _ _ => trivial

theorem legible_number {follow : Set (Option Char)}
    (hfollow : ∀ c, some c ∈ follow → c.isDigit = false) :
    Legible (fun _ : Nat => True) id {o | ∃ c ∈ o, c.isDigit = true} follow toString := by
  have hdigits : ∀ n : Nat, (toString n).toList = Nat.toDigits 10 n := fun n => Nat.toList_repr
  have hrun : Legible (fun _ : Nat => True) toString {o | ∃ c ∈ o, c.isDigit = true} follow
      toString := by
    refine .of_run (p := fun c => c.isDigit = true) ?_ (fun c hc h => ?_) ?_
    · intro n _ c hc
      rw [hdigits] at hc
      exact Nat.isDigit_of_mem_toDigits (by decide) (by decide) hc
    · rw [hfollow c hc] at h
      cases h
    · intro n r _ _
      rw [hdigits]
      obtain ⟨c, rest, hn⟩ := List.exists_cons_of_ne_nil (Nat.toDigits_ne_nil (n := n) (b := 10))
      rw [hn]
      refine ⟨c, rfl, Nat.isDigit_of_mem_toDigits (b := 10) (n := n) (by decide) (by decide) ?_⟩
      rw [hn]
      exact List.mem_cons_self
  refine hrun.reread fun m n h => ?_
  have hlist : Nat.toDigits 10 m = Nat.toDigits 10 n := by rw [← hdigits, ← hdigits, h]
  rw [id, ← Nat.ofDigitChars_ten_toDigits (n := m), hlist, Nat.ofDigitChars_ten_toDigits, id]

/-! ## Nodes -/

namespace Node

/-- The name and the label hold no marks. -/
def Unmarked (n : Node) : Prop :=
  PatternGraph.Unmarked n.name ∧ ∀ label ∈ n.label, PatternGraph.Unmarked label
deriving Decidable

/-- What the text shows of a node. -/
def shown (n : Node) : String × Option String := (n.name, n.label)

theorem text_eq (n : Node) : n.text = "(" ++ (n.name ++ n.label.elim "" (":" ++ ·) ++ ")") := by
  rw [text]
  cases n.label with
  | none => simp only [Option.elim_none, String.append_empty, String.append_assoc]
  | some label => simp only [Option.elim_some, String.append_assoc]

theorem legible_text {follow : Set (Option Char)} :
    Legible Unmarked shown {some '('} follow text := by
  have hname : Legible Unmarked Node.name Set.univ ({some ':'} ∪ {some ')'}) Node.name :=
    (legible_name (by simp [marks])).comap Node.name fun _ h => h.1
  have hlabel : Legible PatternGraph.Unmarked id {some ':'} {some ')'} (":" ++ ·) :=
    (legible_name (by simp [marks])).after rfl rfl
  have hlabels : Legible Unmarked Node.label ({some ':'} ∪ {some ')'}) {some ')'}
      fun n => n.label.elim "" (":" ++ ·) :=
    (hlabel.optional (by simp)).via Node.label (fun _ h => h.2) (fun _ => rfl)
      fun _ _ _ _ h => by simpa using h
  have hbody : Legible Unmarked shown Set.univ follow
      fun n => n.name ++ n.label.elim "" (":" ++ ·) ++ ")" :=
    (hname.append hlabels).before rfl
  have hwhole : Legible Unmarked shown {some '('} follow
      fun n => "(" ++ (n.name ++ n.label.elim "" (":" ++ ·) ++ ")") :=
    hbody.after rfl rfl
  exact hwhole.via id (fun _ h => h) text_eq fun _ _ _ _ h => h

end Node

/-! ## Hops -/

namespace Hops

/-- What is written of hops: nothing, one number, or the ends of a range. -/
def written (h : Hops) : Option (Nat × Option (Option Nat)) :=
  if h.isVariable then some (h.min, if h.max = some h.min then none else some h.max) else none

theorem text_eq (h : Hops) :
    h.text = h.written.elim "" fun w => "*" ++ (toString w.1
      ++ w.2.elim "" fun max => ".." ++ max.elim "" toString) := by
  rw [text, written]
  split
  · split
    · simp
    · rw [maxText]
      cases h.max with
      | none => simp [String.append_assoc]
      | some m => simp [String.append_assoc]
  · rfl

theorem written_of_variable {h : Hops} (hv : h.isVariable = true) :
    h.written = some (h.min, if h.max = some h.min then none else some h.max) :=
  if_pos hv

theorem written_of_single {h : Hops} (hv : h.isVariable = false) : h.written = none :=
  if_neg (by rw [hv]; exact Bool.false_ne_true)

theorem written_inj {a b : Hops} (h : a.written = b.written) : a = b := by
  cases ha : a.isVariable <;> cases hb : b.isVariable
  · rw [isVariable_eq_false.mp ha, isVariable_eq_false.mp hb]
  · rw [written_of_single ha, written_of_variable hb] at h
    cases h
  · rw [written_of_variable ha, written_of_single hb] at h
    cases h
  · rw [written_of_variable ha, written_of_variable hb] at h
    obtain ⟨min, max⟩ := a
    obtain ⟨min', max'⟩ := b
    obtain ⟨rfl, hmax⟩ := Prod.mk.inj (Option.some.inj h)
    -- one number is written where the ends agree, and two where they do not
    split at hmax <;> split at hmax
    next hm hm' => rw [show max = some min from hm, show max' = some min from hm']
    next => cases hmax
    next => cases hmax
    next => exact congrArg (Hops.mk min) (Option.some.inj hmax)

theorem legible_text :
    Legible (fun _ => True) id ({some '*'} ∪ {some ']'}) {some ']'} text := by
  have hmax : Legible (fun max : Option Nat => ∀ n ∈ max, True) (Option.map id) {some '.'}
      {some ']'} fun max => ".." ++ max.elim "" toString :=
    ((legible_number (by simp)).optional (by simp)).after rfl rfl
  have hstop : Legible (fun _ : Nat × Option (Option Nat) => True) Prod.snd
      ({some '.'} ∪ {some ']'}) {some ']'}
      fun w => w.2.elim "" fun max => ".." ++ max.elim "" toString :=
    (hmax.optional (by simp)).via Prod.snd (fun _ _ _ _ _ _ => trivial) (fun _ => rfl)
      fun _ _ _ _ h => by simpa using h
  have hmin : Legible (fun _ : Nat × Option (Option Nat) => True) Prod.fst
      {o | ∃ c ∈ o, c.isDigit = true} ({some '.'} ∪ {some ']'}) fun w => toString w.1 :=
    (legible_number (by simp)).comap Prod.fst fun _ _ => trivial
  have hstar : Legible (fun _ : Nat × Option (Option Nat) => True) id {some '*'} {some ']'}
      fun w => "*" ++ (toString w.1 ++ w.2.elim "" fun max => ".." ++ max.elim "" toString) :=
    (hmin.append hstop).after rfl rfl
  exact (hstar.optional (by simp)).via written (fun _ _ _ _ => trivial) text_eq
    fun a b _ _ h => written_inj (by simpa using h)

end Hops
/-! ## Edges -/

/-- What the text shows of an edge: all but what the catalog says of its types. -/
structure EdgeShown where
  name : String
  types : List String
  hops : Hops
  bidirectional : Bool
  src : Option String
  dest : Option String
deriving DecidableEq

/-- An edge and the names of its ends. -/
structure EdgeLine where
  edge : Edge
  src : String
  dest : String

namespace EdgeLine

/-- The name, the types and the names of the ends hold no marks. -/
structure Unmarked (l : EdgeLine) : Prop where
  name : PatternGraph.Unmarked l.edge.name
  types : ∀ t ∈ l.edge.types, PatternGraph.Unmarked t
  src : PatternGraph.Unmarked l.src
  dest : PatternGraph.Unmarked l.dest

/-- What the text shows of the edge. -/
def shown (l : EdgeLine) : EdgeShown where
  name := l.edge.name
  types := l.edge.types
  hops := l.edge.hops
  bidirectional := l.edge.bidirectional
  src := some l.src
  dest := some l.dest

/-- The edge as text between the names of its ends. -/
def text (l : EdgeLine) : String := l.edge.textBetween l.src l.dest

end EdgeLine

namespace Edge

theorem typeText_eq (e : Edge) :
    e.typeText = writeList (":" ++ ·) ("|" ++ ·) e.types := by
  have hbars := intercalate_map "|" id e.types
  rw [List.map_id] at hbars
  rw [typeText, hbars]
  cases e.types with
  | nil => rfl
  | cons t rest => exact (String.append_assoc ..).symm

theorem legible_typeText {ok : Edge → Prop} (hok : ∀ e, ok e → ∀ t ∈ e.types, Unmarked t) :
    Legible ok Edge.types ({some ':'} ∪ ({some '*'} ∪ {some ']'}))
      ({some '*'} ∪ {some ']'}) typeText := by
  have htype : Legible Unmarked id Set.univ ({some '|'} ∪ ({some '*'} ∪ {some ']'})) id :=
    legible_name (by simp [marks])
  have hfirst : Legible Unmarked id {some ':'} ({some '|'} ∪ ({some '*'} ∪ {some ']'}))
      (":" ++ ·) :=
    htype.after rfl rfl
  have hrest : Legible Unmarked id {some '|'} ({some '|'} ∪ ({some '*'} ∪ {some ']'}))
      ("|" ++ ·) :=
    htype.after rfl rfl
  exact (hfirst.list (by simp) hrest (by simp)).via Edge.types hok typeText_eq fun _ _ _ _ h => by
    simpa using h

/-- The two arrows begin alike, and an end follows them. -/
theorem legible_arrow :
    Legible (fun _ : Bool => True) id {some '-'} {some '('} fun b => if b then "-" else "->" where
  head_mem {b r} _ _ := by
    cases b
    · rfl
    · rfl
  unique {a b r s} _ _ hr hs h := by
    cases a <;> cases b
    · exact ⟨rfl, List.append_cancel_left h⟩
    · obtain rfl : '>' :: r = s := List.tail_eq_of_cons_eq h
      cases hs
    · obtain rfl : r = '>' :: s := List.tail_eq_of_cons_eq h
      cases hr
    · exact ⟨rfl, List.append_cancel_left h⟩

theorem textBetween_eq (e : Edge) (src dest : String) :
    e.textBetween src dest = "(" ++ (src ++ (")-" ++ ("[" ++ (e.name ++ (e.typeText ++ (e.hops.text
      ++ ("]" ++ ((if e.bidirectional then "-" else "->") ++ ("(" ++ (dest ++ ")")))))))))) := by
  rw [textBetween, bodyText]
  simp only [String.append_assoc]

/-- The text of an edge tells its hops apart from any others, whatever its names. -/
theorem textBetween_hops_inj {e : Edge} {a b : Hops} {src dest : String}
    (h : ({ e with hops := a } : Edge).textBetween src dest
      = ({ e with hops := b } : Edge).textBetween src dest) : a = b := by
  have hlist := congrArg String.toList h
  simp only [textBetween_eq, typeText, String.toList_append, List.append_cancel_left_eq] at hlist
  refine (Hops.legible_text.unique trivial trivial ?_ ?_ hlist).1
  · rfl
  · rfl

end Edge

theorem EdgeLine.legible_text {follow : Set (Option Char)} :
    Legible Unmarked shown {some '('} follow text := by
  have hsrc : Legible Unmarked src Set.univ {some ')'} src :=
    (legible_name (by simp [marks])).comap src fun _ h => h.src
  have hname : Legible Unmarked (fun l => l.edge.name) Set.univ
      ({some ':'} ∪ ({some '*'} ∪ {some ']'})) fun l => l.edge.name :=
    (legible_name (by simp [marks])).comap (fun l : EdgeLine => l.edge.name) fun _ h => h.name
  have htypes : Legible Unmarked (fun l => l.edge.types)
      ({some ':'} ∪ ({some '*'} ∪ {some ']'})) ({some '*'} ∪ {some ']'})
      fun l => l.edge.typeText :=
    (Edge.legible_typeText fun _ h => h).comap edge fun _ h => h.types
  have hhops : Legible Unmarked (fun l => l.edge.hops) ({some '*'} ∪ {some ']'}) {some ']'}
      fun l => l.edge.hops.text :=
    Hops.legible_text.comap (fun l : EdgeLine => l.edge.hops) fun _ _ => trivial
  have harrow : Legible Unmarked (fun l => l.edge.bidirectional) {some '-'} {some '('}
      fun l => if l.edge.bidirectional then "-" else "->" :=
    Edge.legible_arrow.comap (fun l : EdgeLine => l.edge.bidirectional) fun _ _ => trivial
  have hdest : Legible Unmarked dest Set.univ {some ')'} dest :=
    (legible_name (by simp [marks])).comap dest fun _ h => h.dest
  -- the pieces from the last to the first
  have hend : Legible Unmarked dest {some '('} follow fun l => "(" ++ (l.dest ++ ")") := by
    have hclosed : Legible Unmarked dest Set.univ follow fun l => l.dest ++ ")" := hdest.before rfl
    exact hclosed.after rfl rfl
  have hbody : Legible Unmarked _ {some '['} follow fun l => "[" ++ (l.edge.name
      ++ (l.edge.typeText ++ (l.edge.hops.text ++ ("]"
        ++ ((if l.edge.bidirectional then "-" else "->") ++ ("(" ++ (l.dest ++ ")"))))))) :=
    (hname.append (htypes.append (hhops.append ((harrow.append hend).after rfl rfl)))).after rfl rfl
  have hwhole : Legible Unmarked _ {some '('} follow fun l => "(" ++ (l.src ++ (")-" ++ ("["
      ++ (l.edge.name ++ (l.edge.typeText ++ (l.edge.hops.text ++ ("]"
        ++ ((if l.edge.bidirectional then "-" else "->") ++ ("(" ++ (l.dest ++ ")")))))))))) :=
    (hsrc.append (hbody.after rfl rfl)).after rfl rfl
  -- what was read in the order of the text is put together
  let assemble (t : String × String × List String × Hops × Bool × String) : EdgeShown :=
    ⟨t.2.1, t.2.2.1, t.2.2.2.1, t.2.2.2.2.1, some t.1, some t.2.2.2.2.2⟩
  exact hwhole.via id (fun _ h => h) (fun l => l.edge.textBetween_eq l.src l.dest)
    fun _ _ _ _ h => congrArg assemble h

/-! ## Graphs -/

namespace Graph

variable {g h : Graph}

/-- What the text shows of the nodes, in order. -/
def nodesShown (g : Graph) : List (String × Option String) := g.nodes.values.map Node.shown

/-- What the text shows of an edge of the graph. -/
def edgeShown (g : Graph) (e : Edge) : EdgeShown where
  name := e.name
  types := e.types
  hops := e.hops
  bidirectional := e.bidirectional
  src := g.nameOf? e.src
  dest := g.nameOf? e.dest

/-- What the text shows of the edges, in order. -/
def edgesShown (g : Graph) : List EdgeShown := g.edges.values.map g.edgeShown

/-- No name, label or type in the graph holds one of the characters that set off names. -/
structure Unmarked (g : Graph) : Prop where
  nodes : ∀ n ∈ g.nodes.values, n.Unmarked
  edges : ∀ e ∈ g.edges.values, PatternGraph.Unmarked e.name ∧
    ∀ t ∈ e.types, PatternGraph.Unmarked t

/-- The edges with the names of their ends, in order. -/
def lines (g : Graph) : List EdgeLine :=
  g.edges.values.map fun e => ⟨e, g.endText e.src, g.endText e.dest⟩

theorem text_eq (g : Graph) :
    g.text = writeList Node.text (fun n => ", " ++ n.text) g.nodes.values
      ++ String.join (g.lines.map fun l => "\n" ++ l.text) := by
  have hlines := intercalate_map "\n" id (g.nodeLine :: g.edges.values.map g.edgeText)
  rw [List.map_id, writeList, nodeLine, intercalate_map] at hlines
  rw [text, nodeLine, intercalate_map, hlines, lines, List.map_map, List.map_map]
  rfl

/-- A list of nodes and lines of edges as the text of a graph has them. -/
theorem legible_text :
    Legible (fun p : List Node × List EdgeLine => (∀ n ∈ p.1, n.Unmarked) ∧ ∀ l ∈ p.2, l.Unmarked)
      (fun p => (p.1.map Node.shown, p.2.map EdgeLine.shown))
      ({some '('} ∪ ({some '\n'} ∪ {none})) {none}
      fun p => writeList Node.text (fun n => ", " ++ n.text) p.1
        ++ String.join (p.2.map fun l => "\n" ++ l.text) := by
  have hnext : Legible Node.Unmarked Node.shown {some ','} ({some ','} ∪ ({some '\n'} ∪ {none}))
      fun n => ", " ++ n.text :=
    Node.legible_text.after rfl rfl
  have hline : Legible EdgeLine.Unmarked EdgeLine.shown {some '\n'} ({some '\n'} ∪ {none})
      fun l => "\n" ++ l.text :=
    EdgeLine.legible_text.after rfl rfl
  exact ((Node.legible_text.list (by simp) hnext (by simp)).comap Prod.fst fun _ h => h.1).append
    ((hline.many (by simp)).comap Prod.snd fun _ h => h.2)

/-- The text names the ends of every edge of a well-formed graph. -/
theorem WellFormed.nameOf?_ends (wf : g.WellFormed) {e : Edge} (he : e ∈ g.edges.values) :
    g.nameOf? e.src = some (g.endText e.src) ∧ g.nameOf? e.dest = some (g.endText e.dest) := by
  obtain ⟨i, hi⟩ := mem_values_edges.mp he
  obtain ⟨m, hm⟩ := wf.src_live hi
  obtain ⟨n, hn⟩ := wf.dest_live hi
  rw [endText, endText, nameOf?_of_live hm, nameOf?_of_live hn]
  exact ⟨rfl, rfl⟩

theorem WellFormed.map_shown_lines (wf : g.WellFormed) :
    g.lines.map EdgeLine.shown = g.edgesShown := by
  rw [lines, edgesShown, List.map_map]
  refine List.map_congr_left fun e he => ?_
  obtain ⟨hsrc, hdest⟩ := wf.nameOf?_ends he
  rw [edgeShown, hsrc, hdest]
  rfl

theorem Unmarked.of_nameOf? (unmarked : g.Unmarked) {x : NodeId} {name : String}
    (hx : g.nameOf? x = some name) : PatternGraph.Unmarked name := by
  obtain ⟨n, hn, rfl⟩ := nameOf?_eq_some.mp hx
  exact (unmarked.nodes n (mem_values_nodes.mpr ⟨x, hn⟩)).1

theorem Unmarked.lines (unmarked : g.Unmarked) (wf : g.WellFormed) :
    ∀ l ∈ g.lines, l.Unmarked := by
  intro l hl
  obtain ⟨e, he, rfl⟩ := List.mem_map.mp hl
  obtain ⟨hname, htypes⟩ := unmarked.edges e he
  obtain ⟨hsrc, hdest⟩ := wf.nameOf?_ends he
  exact ⟨hname, htypes, unmarked.of_nameOf? hsrc, unmarked.of_nameOf? hdest⟩

end Graph

/-- Graphs that can come up and have the same text show the same nodes and edges in the same order,
    if none of their names holds one of the five marks; and edges that differ in their hops have
    different texts, whatever their names. -/
theorem Reachable.text_tells {g h : Graph} (hg : Reachable g) (hh : Reachable h)
    (unmarked : g.Unmarked) (unmarked' : h.Unmarked) (htext : g.text = h.text) :
    g.nodesShown = h.nodesShown ∧ g.edgesShown = h.edgesShown ∧
      ∀ (e : Edge) (a b : Hops) (src dest : String), a ≠ b →
        ({ e with hops := a } : Edge).textBetween src dest
          ≠ ({ e with hops := b } : Edge).textBetween src dest := by
  have wf := hg.wellFormed
  have wf' := hh.wellFormed
  have hlist := congrArg String.toList htext
  rw [g.text_eq, h.text_eq] at hlist
  have hread := (Graph.legible_text.unique (a := (g.nodes.values, g.lines))
    (b := (h.nodes.values, h.lines)) (r := []) (s := []) ⟨unmarked.nodes, unmarked.lines wf⟩
    ⟨unmarked'.nodes, unmarked'.lines wf'⟩ rfl rfl (by rw [hlist])).1
  obtain ⟨hnodes, hedges⟩ := Prod.mk.inj hread
  rw [wf.map_shown_lines, wf'.map_shown_lines] at hedges
  exact ⟨hnodes, hedges, fun _ _ _ _ _ hne h => hne (Edge.textBetween_hops_inj h)⟩

/-- Two graphs with one text: the names are resolved in one and not in the other, and a slot has
    been vacated in one of them. -/
theorem Reachable.text_tells_of_slots :
    let c : Catalog := (({} : SchemaTable).addLabel "Person" ⟨4⟩).addType "KNOWS" ⟨7⟩ |>.catalog
    let p : Path := ⟨[.node ⟨"a", some "Person"⟩,
      .edge ⟨"r_1", .incoming, ["KNOWS", "LIKES"], some ⟨some 0, none⟩⟩, .node ⟨"b", none⟩,
      .edge ⟨"s", .both, [], some ⟨some 2, some 2⟩⟩, .node ⟨"a", none⟩]⟩
    let g := Command.runAll [.addPath .empty p] (.empty .standard)
    let h := Command.runAll [.addNode "x", .addPath c p, .removeNode ⟨0⟩] (.empty .standard)
    g.text = "(a:Person), (b)\n(b)-[r_1:KNOWS|LIKES*0..]->(a)\n(b)-[s*2]-(a)" ∧
      g ≠ h ∧ g.nodesShown = h.nodesShown ∧ g.edgesShown = h.edgesShown := by
  intro c p g h
  have hg : Reachable g := (Reachable.empty .standard).runAll (by simp [Command.operand?])
    (by simp [Command.edge?])
  have hh : Reachable h := (Reachable.empty .standard).runAll (by simp [Command.operand?])
    (by simp [Command.edge?])
  have unmarked : g.Unmarked := ⟨by decide +kernel, by decide +kernel⟩
  have unmarked' : h.Unmarked := ⟨by decide +kernel, by decide +kernel⟩
  have htext : g.text = h.text := by decide +kernel
  obtain ⟨hnodes, hedges, -⟩ := hg.text_tells hh unmarked unmarked' htext
  exact ⟨by decide +kernel, by decide +kernel, hnodes, hedges⟩

end PatternGraph
