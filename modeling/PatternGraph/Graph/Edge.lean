/-
  PatternGraph.Graph.Edge

  Edges of a graph: relationships between two of its nodes.
-/
import PatternGraph.Graph.Handle
import PatternGraph.Hops
import PatternGraph.Schema.Ident
import PatternGraph.Schema.Ref

namespace PatternGraph

/-- An edge of a graph.  The names of its types stand in one list, and in another what the catalog
says of them. -/
structure Edge where
  name : String
  src : NodeId
  dest : NodeId
  types : List String := []
  typeRefs : List (SchemaRef TypeId) := []
  bidirectional : Bool := false
  hops : Hops := .single
deriving DecidableEq

namespace Edge

/-- Both ends are one node. -/
def isLoop (e : Edge) : Bool := e.src == e.dest

/-- The edge with one more type and what the catalog says of it. -/
def withType (e : Edge) (name : String) (ref : SchemaRef TypeId) : Edge :=
  { e with types := e.types ++ [name], typeRefs := e.typeRefs ++ [ref] }

/-- The edge with more types, one after the other. -/
def withTypes (e : Edge) (types : List (String × SchemaRef TypeId)) : Edge :=
  types.foldl (fun e type => e.withType type.1 type.2) e

/-- The edge with a direction flag. -/
def withFlag (e : Edge) (bidirectional : Bool) : Edge := { e with bidirectional }

/-- The edge with a range of hops. -/
def withHops (e : Edge) (hops : Hops) : Edge := { e with hops }

/-- The same edge between other nodes. -/
def between (e : Edge) (src dest : NodeId) : Edge := { e with src, dest }

/-- The edge turned round. -/
def reversed (e : Edge) : Edge := e.between e.dest e.src

/-- The type names, each after a bar but the first, all after a colon. -/
def typeText (e : Edge) : String :=
  if e.types.isEmpty then "" else ":" ++ "|".intercalate e.types

/-- What stands between the arrow's two parts: name, types and hops in brackets. -/
def bodyText (e : Edge) : String :=
  "[" ++ e.name ++ e.typeText ++ e.hops.text ++ "]"

/-- The edge as text between the names of its ends. -/
def textBetween (e : Edge) (src dest : String) : String :=
  "(" ++ src ++ ")-" ++ e.bodyText ++ (if e.bidirectional then "-" else "->") ++ "(" ++ dest ++ ")"

/-! ## Types -/

theorem withTypes_eq (e : Edge) (types : List (String × SchemaRef TypeId)) :
    e.withTypes types = { e with
      types := e.types ++ types.map Prod.fst, typeRefs := e.typeRefs ++ types.map Prod.snd } := by
  unfold withTypes
  induction types generalizing e with
  | nil => simp
  | cons type rest ih =>
    rw [List.foldl_cons, ih]
    simp [withType]

/-! ## Edges that are handed in -/

/-- The edges that a caller can make: an edge starts without types, and each call adds a type with
its reference, or sets the flag or the hops. -/
inductive Made : Edge → Prop where
  | plain (name : String) (src dest : NodeId) : Made { name, src, dest }
  | withType {e : Edge} (made : Made e) (name : String) (ref : SchemaRef TypeId) :
      Made (e.withType name ref)
  | withFlag {e : Edge} (made : Made e) (bidirectional : Bool) : Made (e.withFlag bidirectional)
  | withHops {e : Edge} (made : Made e) (hops : Hops) : Made (e.withHops hops)

theorem Made.withTypes {e : Edge} (made : Made e) (types : List (String × SchemaRef TypeId)) :
    Made (e.withTypes types) := by
  unfold Edge.withTypes
  induction types generalizing e with
  | nil => exact made
  | cons type rest ih => exact ih (made.withType type.1 type.2)

/-- The edges that a caller can make are those with a reference for each of their types. -/
theorem made_iff {e : Edge} : Made e ↔ e.typeRefs.length = e.types.length := by
  constructor
  · intro made
    induction made with
    | plain name src dest => rfl
    | withType _ name ref ih => simp [withType, ih]
    | withFlag _ _ ih => exact ih
    | withHops _ _ ih => exact ih
  · intro hlength
    have made := (((Made.plain e.name e.src e.dest).withFlag e.bidirectional).withHops
      e.hops).withTypes (e.types.zip e.typeRefs)
    rwa [withTypes_eq, List.map_fst_zip (Nat.le_of_eq hlength.symm),
      List.map_snd_zip (Nat.le_of_eq hlength)] at made

instance (e : Edge) : Decidable e.Made := decidable_of_iff _ made_iff.symm

end Edge

end PatternGraph
