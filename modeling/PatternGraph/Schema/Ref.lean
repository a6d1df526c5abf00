/-
  PatternGraph.Schema.Ref

  What is known of a schema name.  Looking a name up never fails: a name that
  the catalog does not know yet is kept, so that it can be looked up again once
  the schema has grown.
-/

namespace PatternGraph

/-- A reference from a pattern into the catalog; `I` is the kind of identifier. -/
inductive SchemaRef (I : Type) where
  /-- No name was written. -/
  | absent
  /-- A name was written that the catalog did not know. -/
  | unresolved (name : String)
  /-- The catalog gave the name this identifier. -/
  | resolved (id : I)
deriving DecidableEq

namespace SchemaRef

variable {I : Type}

/-- The reference for `name` after the catalog has answered. -/
def ofAnswer (name : String) : Option I → SchemaRef I
  | some id => .resolved id
  | none => .unresolved name

/-- The identifier, where there is one. -/
def id? : SchemaRef I → Option I
  | .resolved id => some id
  | _ => none

/-- The name that is still waiting for an identifier. -/
def pending? : SchemaRef I → Option String
  | .unresolved name => some name
  | _ => none

/-- A name was written and is not known yet. -/
def isUnresolved (r : SchemaRef I) : Bool :=
  r.pending?.isSome

/-- No name was written. -/
def isAbsent : SchemaRef I → Bool
  | .absent => true
  | _ => false

/-- Asks the catalog once more for a name that was unknown; other references stay. -/
def refresh (lookup : String → Option I) : SchemaRef I → SchemaRef I
  | .unresolved name => ofAnswer name (lookup name)
  | r => r

/-- The catalog has an identifier for a name that was unknown. -/
def isRefreshed (lookup : String → Option I) (r : SchemaRef I) : Bool :=
  (r.pending?.bind lookup).isSome

/-- `-` for no name, the name after `?` while it is unknown, else the identifier. -/
def text [ToString I] : SchemaRef I → String
  | .absent => "-"
  | .unresolved name => "?" ++ name
  | .resolved id => toString id

/-! ## Refreshing -/

theorem refresh_absent (lookup : String → Option I) :
    (absent : SchemaRef I).refresh lookup = absent :=
  rfl

theorem refresh_resolved (lookup : String → Option I) (id : I) :
    (resolved id).refresh lookup = resolved id :=
  rfl

end SchemaRef

end PatternGraph
