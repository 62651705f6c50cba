import WireSchema.Schema.Check

/-!
# Well-formed schemas

The conditions on the names and types of a schema, without an order in which they are looked at.
-/

namespace WireSchema

/-- A type that can stand in a field, given the names declared. -/
inductive TypeExpr.WellFormed (declared : List String) : TypeExpr → Prop
  | primitive (p : Primitive) : WellFormed declared (.named p.name)
  | declared {name : String} : name ∈ declared → WellFormed declared (.named name)
  | optional {t : TypeExpr} : WellFormed declared t → WellFormed declared (.applied "optional" [t])
  | list {t : TypeExpr} : WellFormed declared t → WellFormed declared (.applied "list" [t])
  | map (key : Primitive) {t : TypeExpr} :
    WellFormed declared t → WellFormed declared (.applied "map" [.named key.name, t])
  | array {t : TypeExpr} (size : Nat) : WellFormed declared t → WellFormed declared (.array t size)

def FreeName (name : String) : Prop :=
  name ∉ keywords ∧ name.toList.head? ≠ some '_' ∧ name ∉ memberNames

def FreeTypeName (name : String) : Prop :=
  FreeName name ∧ name ∉ moduleNames ∧ (∀ p : Primitive, name ≠ p.name) ∧
    name ∉ ["optional", "list", "map"]

/-- The fields of one owner. Only fields with a name can be at odds with one another. -/
structure WellFormedFields (declared : List String) (fields : List Field) : Prop where
  distinct : (fields.filterMap Field.name).Nodup
  free : ∀ f ∈ fields, ∀ name, f.name = some name →
    FreeName name ∧ name ∉ declared ∧ name ∉ moduleNames
  types : ∀ f ∈ fields, f.type.WellFormed declared

structure Union.WellFormed (declared : List String) (u : Union) : Prop where
  distinct : (u.variants.map Variant.name).Nodup
  free : ∀ v ∈ u.variants, FreeName v.name
  fields : ∀ v ∈ u.variants, WellFormedFields declared v.fields

def Schema.names (s : Schema) : List String := s.declaredNames.map Prod.fst

structure Schema.WellFormed (s : Schema) : Prop where
  distinct : s.names.Nodup
  free : ∀ name ∈ s.names, FreeTypeName name
  records : ∀ r ∈ s.records, WellFormedFields s.names r.fields
  unions : ∀ u ∈ s.unions, u.WellFormed s.names

end WireSchema
