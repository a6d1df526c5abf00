/-
  PatternGraph.Schema.Catalog

  The catalog of a graph database as patterns see it: two namespaces, one for
  labels and one for relationship types, each a partial map from names to
  identifiers.  A schema that grows leads from a catalog to one that extends
  it; names that were looked up before can then be refreshed.  `SchemaTable` is
  a catalog given by listing its entries.
-/
import PatternGraph.Schema.Ident
import PatternGraph.Schema.Ref

namespace PatternGraph

/-- The two namespaces of a schema. -/
inductive NameKind where
  | label
  | edgeType
deriving DecidableEq

/-- Answers for label names and for relationship type names. -/
structure Catalog where
  labelId? : String → Option LabelId
  typeId? : String → Option TypeId

namespace Catalog

/-- The catalog that knows no name. -/
def empty : Catalog where
  labelId? _ := none
  typeId? _ := none

/-- The number of `name` in the namespace of `kind`. -/
def number? (c : Catalog) (kind : NameKind) (name : String) : Option Nat :=
  match kind with
  | .label => (c.labelId? name).map LabelId.value
  | .edgeType => (c.typeId? name).map TypeId.value

/-- The reference recorded for a label written as `name`. -/
def labelRef (c : Catalog) (name : String) : SchemaRef LabelId :=
  .ofAnswer name (c.labelId? name)

/-- The reference recorded for a relationship type written as `name`. -/
def typeRef (c : Catalog) (name : String) : SchemaRef TypeId :=
  .ofAnswer name (c.typeId? name)

/-- What `c` knows, `d` knows by the same identifier: the schema has only grown from one to
the other. -/
structure Extends (c d : Catalog) : Prop where
  labelId? : ∀ {name : String} {id : LabelId}, c.labelId? name = some id → d.labelId? name = some id
  typeId? : ∀ {name : String} {id : TypeId}, c.typeId? name = some id → d.typeId? name = some id

/-! ## Growing -/

theorem Extends.refl (c : Catalog) : c.Extends c :=
  ⟨fun h => h, fun h => h⟩

theorem Extends.trans {c d e : Catalog} (hcd : c.Extends d) (hde : d.Extends e) : c.Extends e :=
  ⟨fun h => hde.labelId? (hcd.labelId? h), fun h => hde.typeId? (hcd.typeId? h)⟩

theorem empty_extends (c : Catalog) : empty.Extends c :=
  ⟨nofun, nofun⟩

/-- A label that is looked up early and refreshed later is as if it were looked up later. -/
theorem Extends.refresh_labelRef {c d : Catalog} (h : c.Extends d) (name : String) :
    (c.labelRef name).refresh d.labelId? = d.labelRef name := by
  unfold labelRef
  cases hc : c.labelId? name with
  | none => rfl
  | some id => rw [h.labelId? hc]; rfl

/-- The same for a relationship type. -/
theorem Extends.refresh_typeRef {c d : Catalog} (h : c.Extends d) (name : String) :
    (c.typeRef name).refresh d.typeId? = d.typeRef name := by
  unfold typeRef
  cases hc : c.typeId? name with
  | none => rfl
  | some id => rw [h.typeId? hc]; rfl

end Catalog

/-- A catalog written out as its entries, the latest entry of each namespace first. -/
structure SchemaTable where
  labels : List (String × LabelId) := []
  types : List (String × TypeId) := []

namespace SchemaTable

/-- Registers a label; a later registration of the same name wins. -/
def addLabel (t : SchemaTable) (name : String) (id : LabelId) : SchemaTable :=
  { t with labels := (name, id) :: t.labels }

/-- Registers a relationship type; a later registration of the same name wins. -/
def addType (t : SchemaTable) (name : String) (id : TypeId) : SchemaTable :=
  { t with types := (name, id) :: t.types }

/-- The catalog that answers from the table. -/
def catalog (t : SchemaTable) : Catalog where
  labelId? name := t.labels.lookup name
  typeId? name := t.types.lookup name

/-! ## Registering -/

theorem labelId?_addLabel (t : SchemaTable) (name other : String) (id : LabelId) :
    (t.addLabel name id).catalog.labelId? other =
      if other = name then some id else t.catalog.labelId? other := by
  by_cases h : other = name
  · simp [catalog, addLabel, h]
  · simp [catalog, addLabel, List.lookup_cons, beq_eq_false_iff_ne.mpr h, h]

theorem typeId?_addType (t : SchemaTable) (name other : String) (id : TypeId) :
    (t.addType name id).catalog.typeId? other =
      if other = name then some id else t.catalog.typeId? other := by
  by_cases h : other = name
  · simp [catalog, addType, h]
  · simp [catalog, addType, List.lookup_cons, beq_eq_false_iff_ne.mpr h, h]

/-- The namespaces are apart. -/
theorem typeId?_addLabel (t : SchemaTable) (name other : String) (id : LabelId) :
    (t.addLabel name id).catalog.typeId? other = t.catalog.typeId? other :=
  rfl

theorem labelId?_addType (t : SchemaTable) (name other : String) (id : TypeId) :
    (t.addType name id).catalog.labelId? other = t.catalog.labelId? other :=
  rfl

/-- A schema grows by registering a label that it does not know. -/
theorem extends_addLabel {t : SchemaTable} {name : String} (id : LabelId)
    (hnew : t.catalog.labelId? name = none) : t.catalog.Extends (t.addLabel name id).catalog where
  labelId? {other i} h := by
    rw [labelId?_addLabel, if_neg, h]
    rintro rfl
    rw [hnew] at h
    cases h
  typeId? h := h

/-- The same for a relationship type. -/
theorem extends_addType {t : SchemaTable} {name : String} (id : TypeId)
    (hnew : t.catalog.typeId? name = none) : t.catalog.Extends (t.addType name id).catalog where
  labelId? h := h
  typeId? {other i} h := by
    rw [typeId?_addType, if_neg, h]
    rintro rfl
    rw [hnew] at h
    cases h

end SchemaTable

end PatternGraph
