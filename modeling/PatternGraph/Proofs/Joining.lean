/-
  PatternGraph.Proofs.Joining

  Nodes of a path joined to what the nodes of a graph say.  What has a label
  keeps it.  Of two lists, where the second adds what the first does not have,
  a node is joined to the second, unless the first one has its name and lacks
  its label.
-/
import PatternGraph.Proofs.Saying

namespace PatternGraph

/-- One of the nodes bears the name and has a label. -/
def Labelled (nodes : List NodeContent) (name : String) : Prop :=
  ∃ d ∈ nodes, d.name = name ∧ d.label.isSome

variable {c : Catalog} {name a : String} {label : Option String} {d : NodeContent}
  {l m : List NodeContent} {n : PathNode} {ns : List PathNode} {has : String → Bool}

/-- A label is not taken by a node of another name, nor by one that has a label. -/
theorem NodeContent.offer_eq_self (h : label.isSome → d.name = name → d.label.isSome) :
    d.offer c name label = d := by
  cases label with
  | none => rfl
  | some label =>
      refine if_neg ?_
      rintro ⟨hname, hlabel⟩
      have hsome := h rfl hname
      rw [hlabel] at hsome
      cases hsome

theorem NodeContent.isSome_label_offer (hname : d.name = name) (hlabel : label.isSome) :
    (d.offer c name label).label.isSome := by
  cases hd : d.label with
  | some _ => rw [offer_eq_self fun _ _ => by rw [hd]; rfl, hd]; rfl
  | none =>
      obtain ⟨label, rfl⟩ := Option.isSome_iff_exists.mp hlabel
      rw [offer, if_pos ⟨hname, hd⟩]
      rfl

/-- What has a label keeps it, and what is joined with a label has one. -/
theorem labelled_joinContents (h : Labelled l a ∨ (n.name = a ∧ n.label.isSome)) :
    Labelled (joinContents c l n) a := by
  rcases h with ⟨d, hd, rfl, hlabel⟩ | ⟨rfl, hlabel⟩
  · have hsame : d.offer c n.name n.label = d := NodeContent.offer_eq_self fun _ _ => hlabel
    refine ⟨d, List.mem_map.mpr ⟨d, ?_, hsame⟩, rfl, hlabel⟩
    split
    · exact hd
    · exact List.mem_append_left _ hd
  · -- the node that is joined is there already, or it is the new one
    have hthere : ∃ d ∈ (if l.any (·.name == n.name) then l else l ++ [.bare n.name]),
        d.name = n.name := by
      split
      next hany =>
        obtain ⟨d, hd, hname⟩ := List.any_eq_true.mp hany
        exact ⟨d, hd, beq_iff_eq.mp hname⟩
      next => exact ⟨.bare n.name, by simp, rfl⟩
    obtain ⟨d, hd, hname⟩ := hthere
    exact ⟨_, List.mem_map_of_mem hd, (NodeContent.name_offer _ _ _ _).trans hname,
      NodeContent.isSome_label_offer hname hlabel⟩

theorem labelled_foldl_joinContents
    (h : Labelled l a ∨ ∃ n ∈ ns, n.name = a ∧ n.label.isSome) :
    Labelled (ns.foldl (joinContents c) l) a := by
  induction ns generalizing l with
  | nil => simpa using h
  | cons n rest ih =>
      refine ih ?_
      rcases h with hold | ⟨k, hk, hname⟩
      · exact .inl (labelled_joinContents (.inl hold))
      · rcases List.mem_cons.mp hk with rfl | hrest
        · exact .inl (labelled_joinContents (.inr hname))
        · exact .inr ⟨k, hrest, hname⟩

theorem filter_map_offer (c : Catalog) (name : String) (label : Option String)
    (l : List NodeContent) (has : String → Bool) :
    (l.map (·.offer c name label)).filter (!has ·.name)
      = (l.filter (!has ·.name)).map (·.offer c name label) := by
  rw [List.filter_map]
  congr 2
  funext d
  rw [Function.comp_apply, NodeContent.name_offer]

theorem any_name_iff : l.any (·.name == a) = true ↔ a ∈ l.map NodeContent.name := by
  rw [List.any_eq_true, List.mem_map]
  simp only [beq_iff_eq]

theorem map_offer_eq_self (h : label.isSome → ∀ d ∈ l, d.name = name → d.label.isSome) :
    l.map (·.offer c name label) = l :=
  (List.map_congr_left fun d hd => NodeContent.offer_eq_self fun hsome => h hsome d hd).trans
    (List.map_id' l)

/-- A node of the first of two lists that lacks no label of it is not joined to the second. -/
theorem joinContents_append_of_mem (hmem : n.name ∈ l.map NodeContent.name)
    (hlabel : n.label.isSome → ∀ d ∈ l, d.name = n.name → d.label.isSome) :
    joinContents c (l ++ m) n = l ++ m.map (·.offer c n.name n.label) := by
  have hany : (l ++ m).any (·.name == n.name) = true := by
    rw [List.any_append, any_name_iff.mpr hmem, Bool.true_or]
  rw [joinContents, if_pos hany, List.map_append, map_offer_eq_self hlabel]

/-- A node that is not in the first of two lists is joined to the second. -/
theorem joinContents_append_of_not_mem (hmem : n.name ∉ l.map NodeContent.name) :
    joinContents c (l ++ m) n = l ++ joinContents c m n := by
  have hany : (l ++ m).any (·.name == n.name) = m.any (·.name == n.name) := by
    rw [List.any_append, Bool.eq_false_iff.mpr (mt any_name_iff.mp hmem), Bool.false_or]
  have hfirst : l.map (·.offer c n.name n.label) = l :=
    map_offer_eq_self fun _ d hd hname => absurd (hname ▸ List.mem_map_of_mem hd) hmem
  rw [joinContents, hany, joinContents]
  split
  · rw [List.map_append, hfirst]
  · rw [List.append_assoc, List.map_append, hfirst]

/-- A node whose name is left out adds nothing to what is not. -/
theorem filter_joinContents_of_has (hn : has n.name = true) :
    (joinContents c m n).filter (!has ·.name)
      = (m.filter (!has ·.name)).map (·.offer c n.name n.label) := by
  have hnew : (m ++ [NodeContent.bare n.name]).filter (!has ·.name) = m.filter (!has ·.name) := by
    rw [List.filter_append, List.filter_cons_of_neg (by simp [NodeContent.bare, hn])]
    exact List.append_nil _
  rw [joinContents, filter_map_offer]
  split
  · rfl
  · rw [hnew]

/-- A node whose name is not left out is joined to what is not. -/
theorem filter_joinContents_of_not_has (hn : has n.name = false) :
    (joinContents c m n).filter (!has ·.name) = joinContents c (m.filter (!has ·.name)) n := by
  have hnew : (m ++ [NodeContent.bare n.name]).filter (!has ·.name)
      = m.filter (!has ·.name) ++ [.bare n.name] := by
    rw [List.filter_append, List.filter_cons_of_pos (by simp [NodeContent.bare, hn])]
    rfl
  have hany : (m.filter (!has ·.name)).any (·.name == n.name) = m.any (·.name == n.name) := by
    rw [Bool.eq_iff_iff, any_name_iff, any_name_iff]
    refine ⟨fun hmem => (List.filter_sublist.map _).subset hmem, fun hmem => ?_⟩
    obtain ⟨d, hd, hname⟩ := List.mem_map.mp hmem
    exact List.mem_map.mpr ⟨d, List.mem_filter.mpr ⟨hd, by rw [hname, hn]; rfl⟩, hname⟩
  rw [joinContents, filter_map_offer, joinContents, hany]
  split
  · rfl
  · rw [hnew]

/-- A node is joined to two lists, of which the second adds what the first does not have, by
    joining it to the second, when the first one lacks no label of it. -/
theorem joinContents_append_filter (hhas : ∀ a, has a = true ↔ a ∈ l.map NodeContent.name)
    (hlabel : n.label.isSome → ∀ d ∈ l, d.name = n.name → d.label.isSome) :
    joinContents c (l ++ m.filter (!has ·.name)) n
      = l ++ (joinContents c m n).filter (!has ·.name) := by
  cases hn : has n.name with
  | true =>
      rw [joinContents_append_of_mem ((hhas n.name).mp hn) hlabel, filter_joinContents_of_has hn]
  | false =>
      have hnot : n.name ∉ l.map NodeContent.name := mt (hhas n.name).mpr (by simp [hn])
      rw [joinContents_append_of_not_mem hnot, filter_joinContents_of_not_has hn]

theorem foldl_joinContents_append_filter (hhas : ∀ a, has a = true ↔ a ∈ l.map NodeContent.name)
    (hlabel : ∀ n ∈ ns, n.label.isSome → ∀ d ∈ l, d.name = n.name → d.label.isSome) :
    ns.foldl (joinContents c) (l ++ m.filter (!has ·.name))
      = l ++ (ns.foldl (joinContents c) m).filter (!has ·.name) := by
  induction ns generalizing m with
  | nil => rfl
  | cons n rest ih =>
      obtain ⟨hn, hrest⟩ := List.forall_mem_cons.mp hlabel
      rw [List.foldl_cons, joinContents_append_filter hhas hn, ih hrest, List.foldl_cons]

end PatternGraph
