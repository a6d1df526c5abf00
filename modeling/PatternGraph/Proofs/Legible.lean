/-
  PatternGraph.Proofs.Legible

  Ways of writing that can be read back.  Text is read from left to right, and
  what follows a piece of it is known by its first character, which is `none` at
  the end of the text.  A piece is legible if, whatever may follow it, the text
  tells both what was written and where it ends.

  Legible pieces are put together as texts are: one after the other, after a
  mark or before one, where they may be left out, and as lists.  A piece that may
  be left out, or that may be followed by another of its kind, must not begin
  with a character that may follow it.
-/
import Mathlib.Data.Set.Lattice
import Mathlib.Order.CompletePartialOrder

namespace PatternGraph

/-- Of the values that are `ok` the text tells what `read` reads off them, and where it ends.  It
begins with a character of `first` if what follows it begins with one of `follow`. -/
structure Legible {α β : Type} (ok : α → Prop) (read : α → β) (first follow : Set (Option Char))
    (write : α → String) : Prop where
  head_mem : ∀ {a r}, ok a → r.head? ∈ follow → ((write a).toList ++ r).head? ∈ first
  unique : ∀ {a b r s}, ok a → ok b → r.head? ∈ follow → s.head? ∈ follow →
    (write a).toList ++ r = (write b).toList ++ s → read a = read b ∧ r = s

/-- A list of pieces, the first written in one way and the others in another. -/
def writeList {α : Type} (write write' : α → String) : List α → String
  | [] => ""
  | a :: rest => write a ++ String.join (rest.map write')

/-- Pieces with separators are the first piece, and then each other after a separator. -/
theorem intercalate_map {α : Type} (sep : String) (write : α → String) (l : List α) :
    sep.intercalate (l.map write) = writeList write (fun a => sep ++ write a) l := by
  cases l with
  | nil => rfl
  | cons a l =>
      induction l generalizing a with
      | nil =>
          rw [List.map_singleton, String.intercalate_singleton, writeList, List.map_nil,
            String.join_nil, String.append_empty]
      | cons b rest ih =>
          rw [List.map_cons, List.map_cons, String.intercalate_cons_cons, ← List.map_cons, ih,
            writeList, writeList, List.map_cons, String.join_cons, String.append_assoc,
            String.append_assoc]

namespace Legible

variable {α β γ : Type} {ok : α → Prop} {read : α → β} {write : α → String}
  {first middle follow start : Set (Option Char)} {mark : String} {c : Char}

/-- Texts with different beginnings are different. -/
theorem ne_of_apart (apart : Disjoint start follow) {r s : List Char} (hr : r.head? ∈ start)
    (hs : s.head? ∈ follow) : r ≠ s := by
  rintro rfl
  exact Set.disjoint_left.mp apart hr hs

/-! ## Words -/

/-- A run of characters of one kind ends where the first character of another kind stands. -/
theorem append_inj_of_run {p : Char → Prop} {a b r s : List Char} (ha : ∀ c ∈ a, p c)
    (hb : ∀ c ∈ b, p c) (hr : ∀ c ∈ r.head?, ¬ p c) (hs : ∀ c ∈ s.head?, ¬ p c)
    (h : a ++ r = b ++ s) : a = b ∧ r = s := by
  induction a generalizing b with
  | nil =>
      cases b with
      | nil => exact ⟨rfl, h⟩
      | cons d b =>
          obtain rfl : r = d :: (b ++ s) := h
          exact absurd (hb d List.mem_cons_self) (hr d rfl)
  | cons d a ih =>
      cases b with
      | nil =>
          obtain rfl : d :: (a ++ r) = s := h
          exact absurd (ha d List.mem_cons_self) (hs d rfl)
      | cons d' b =>
          obtain ⟨rfl, hrest⟩ := List.cons.inj h
          obtain ⟨rfl, rfl⟩ := ih (fun c hc => ha c (List.mem_cons_of_mem d hc))
            (fun c hc => hb c (List.mem_cons_of_mem d hc)) hrest
          exact ⟨rfl, rfl⟩

/-- Texts of characters that cannot follow them are told in full. -/
theorem of_run {p : Char → Prop} (hp : ∀ a, ok a → ∀ c ∈ (write a).toList, p c)
    (hfollow : ∀ c, some c ∈ follow → ¬ p c)
    (hfirst : ∀ a r, ok a → r.head? ∈ follow → ((write a).toList ++ r).head? ∈ first) :
    Legible ok write first follow write where
  head_mem := hfirst _ _
  unique {a b r s} ha hb hr hs h := by
    obtain ⟨hsame, hrest⟩ := append_inj_of_run (hp a ha) (hp b hb)
      (fun c hc => hfollow c (hc ▸ hr)) (fun c hc => hfollow c (hc ▸ hs)) h
    exact ⟨String.toList_inj.mp hsame, hrest⟩

/-! ## Pieces of text put together -/

/-- The same pieces, reached from other values and read in another way. -/
theorem via {ok' : γ → Prop} {δ : Type} {read' : γ → δ} {write' : γ → String}
    (legible : Legible ok read first follow write) (f : γ → α) (hok : ∀ a, ok' a → ok (f a))
    (hwrite : ∀ a, write' a = write (f a))
    (hread : ∀ a b, ok' a → ok' b → read (f a) = read (f b) → read' a = read' b) :
    Legible ok' read' first follow write' where
  head_mem {a r} ha hr := by
    rw [hwrite]
    exact legible.head_mem (hok a ha) hr
  unique {a b r s} ha hb hr hs h := by
    rw [hwrite, hwrite] at h
    obtain ⟨hsame, hrest⟩ := legible.unique (hok a ha) (hok b hb) hr hs h
    exact ⟨hread a b ha hb hsame, hrest⟩

/-- The pieces of what is found in other values. -/
theorem comap {ok' : γ → Prop} (legible : Legible ok read first follow write) (f : γ → α)
    (hok : ∀ a, ok' a → ok (f a)) :
    Legible ok' (fun a => read (f a)) first follow fun a => write (f a) :=
  legible.via f hok (fun _ => rfl) fun _ _ _ _ h => h

/-- The same pieces, read in another way. -/
theorem reread {read' : α → γ} (legible : Legible ok read first follow write)
    (hread : ∀ a b, read a = read b → read' a = read' b) :
    Legible ok read' first follow write :=
  legible.via id (fun _ h => h) (fun _ => rfl) fun a b _ _ h => hread a b h

/-- One piece after another. -/
theorem append {read' : α → γ} {write' : α → String}
    (legible : Legible ok read first middle write)
    (legible' : Legible ok read' middle follow write') :
    Legible ok (fun a => (read a, read' a)) first follow fun a => write a ++ write' a where
  head_mem {a r} ha hr := by
    rw [String.toList_append, List.append_assoc]
    exact legible.head_mem ha (legible'.head_mem ha hr)
  unique {a b r s} ha hb hr hs h := by
    rw [String.toList_append, String.toList_append, List.append_assoc, List.append_assoc] at h
    obtain ⟨hsame, hrest⟩ :=
      legible.unique ha hb (legible'.head_mem ha hr) (legible'.head_mem hb hs) h
    obtain ⟨hsame', hrest'⟩ := legible'.unique ha hb hr hs hrest
    exact ⟨Prod.ext hsame hsame', hrest'⟩

/-- A piece after a mark. -/
theorem after (legible : Legible ok read middle follow write) (hmark : mark.toList.head? = some c)
    (hc : some c ∈ first) : Legible ok read first follow fun a => mark ++ write a where
  head_mem {a r} _ _ := by
    rw [String.toList_append, List.append_assoc, List.head?_append, hmark]
    exact hc
  unique {a b r s} ha hb hr hs h := by
    rw [String.toList_append, String.toList_append, List.append_assoc, List.append_assoc] at h
    exact legible.unique ha hb hr hs (List.append_cancel_left h)

/-- A piece before a mark, which sets it off from whatever follows. -/
theorem before (legible : Legible ok read first {some c} write)
    (hmark : mark.toList.head? = some c) :
    Legible ok read first follow fun a => write a ++ mark := by
  have hnext : ∀ r : List Char, (mark.toList ++ r).head? ∈ ({some c} : Set (Option Char)) := by
    intro r
    rw [List.head?_append, hmark]
    rfl
  constructor
  case head_mem =>
    intro a r ha _
    rw [String.toList_append, List.append_assoc]
    exact legible.head_mem ha (hnext r)
  case unique =>
    intro a b r s ha hb _ _ h
    rw [String.toList_append, String.toList_append, List.append_assoc, List.append_assoc] at h
    obtain ⟨hsame, hrest⟩ := legible.unique ha hb (hnext r) (hnext s) h
    exact ⟨hsame, List.append_cancel_left hrest⟩

/-- A piece that may be left out. -/
theorem optional (legible : Legible ok read start follow write) (apart : Disjoint start follow) :
    Legible (fun o : Option α => ∀ a ∈ o, ok a) (Option.map read) (start ∪ follow) follow
      fun o => o.elim "" write where
  head_mem {o r} ho hr := by
    cases o with
    | none => exact .inr hr
    | some a => exact .inl (legible.head_mem (ho a rfl) hr)
  unique {o o' r s} ho ho' hr hs h := by
    cases o with
    | none =>
        cases o' with
        | none => exact ⟨rfl, h⟩
        | some b => exact absurd h.symm (ne_of_apart apart (legible.head_mem (ho' b rfl) hs) hr)
    | some a =>
        cases o' with
        | none => exact absurd h (ne_of_apart apart (legible.head_mem (ho a rfl) hr) hs)
        | some b =>
            obtain ⟨hsame, hrest⟩ := legible.unique (ho a rfl) (ho' b rfl) hr hs h
            exact ⟨congrArg some hsame, hrest⟩

/-- Pieces of one kind, as many as there may be. -/
theorem many (legible : Legible ok read start (start ∪ follow) write)
    (apart : Disjoint start follow) :
    Legible (fun l : List α => ∀ a ∈ l, ok a) (List.map read) (start ∪ follow) follow
      fun l => String.join (l.map write) := by
  have hhead : ∀ {l : List α} {r : List Char}, (∀ a ∈ l, ok a) → r.head? ∈ follow →
      ((String.join (l.map write)).toList ++ r).head? ∈ start ∪ follow := by
    intro l r hl hr
    induction l with
    | nil => exact .inr hr
    | cons a l ih =>
        obtain ⟨ha, hl⟩ := List.forall_mem_cons.mp hl
        rw [List.map_cons, String.join_cons, String.toList_append, List.append_assoc]
        exact .inl (legible.head_mem ha (ih hl))
  refine ⟨hhead, ?_⟩
  intro l m r s hl hm hr hs h
  induction l generalizing m with
  | nil =>
      cases m with
      | nil => exact ⟨rfl, h⟩
      | cons b m =>
          obtain ⟨hb, hm⟩ := List.forall_mem_cons.mp hm
          rw [List.map_cons, String.join_cons, String.toList_append, List.append_assoc] at h
          exact absurd h.symm (ne_of_apart apart (legible.head_mem hb (hhead hm hs)) hr)
  | cons a l ih =>
      obtain ⟨ha, hl⟩ := List.forall_mem_cons.mp hl
      rw [List.map_cons, String.join_cons, String.toList_append, List.append_assoc] at h
      cases m with
      | nil => exact absurd h (ne_of_apart apart (legible.head_mem ha (hhead hl hr)) hs)
      | cons b m =>
          obtain ⟨hb, hm⟩ := List.forall_mem_cons.mp hm
          rw [List.map_cons, String.join_cons, String.toList_append, List.append_assoc] at h
          obtain ⟨hsame, hrest⟩ := legible.unique ha hb (hhead hl hr) (hhead hm hs) h
          obtain ⟨htail, hend⟩ := ih hl hm hrest
          exact ⟨congrArg₂ List.cons hsame htail, hend⟩

/-- A list whose first piece is written in one way and whose other pieces are written in
another. -/
theorem list {write' : α → String} {start' : Set (Option Char)}
    (legible : Legible ok read start (start' ∪ follow) write) (apart : Disjoint start follow)
    (legible' : Legible ok read start' (start' ∪ follow) write')
    (apart' : Disjoint start' follow) :
    Legible (fun l : List α => ∀ a ∈ l, ok a) (List.map read) (start ∪ follow) follow
      (writeList write write') := by
  have hfirst : Legible (fun p : α × List α => ok p.1 ∧ ∀ a ∈ p.2, ok a) (fun p => read p.1)
      start (start' ∪ follow) fun p => write p.1 :=
    legible.comap Prod.fst fun _ h => h.1
  have hrest : Legible (fun p : α × List α => ok p.1 ∧ ∀ a ∈ p.2, ok a) (fun p => p.2.map read)
      (start' ∪ follow) follow fun p => String.join (p.2.map write') :=
    (legible'.many apart').comap Prod.snd fun _ h => h.2
  let parts : List α → Option (α × List α)
    | [] => none
    | a :: rest => some (a, rest)
  refine ((hfirst.append hrest).optional apart).via parts ?_ ?_ ?_
  · rintro (_ | ⟨a, rest⟩) hl p hp
    · cases hp
    · cases hp
      exact List.forall_mem_cons.mp hl
  · rintro (_ | ⟨a, rest⟩)
    · rfl
    · rfl
  · rintro (_ | ⟨a, rest⟩) (_ | ⟨b, others⟩) - - h
    · rfl
    · cases h
    · cases h
    · obtain ⟨hsame, htail⟩ := Prod.mk.inj (Option.some.inj h)
      exact congrArg₂ List.cons hsame htail

end Legible

end PatternGraph
