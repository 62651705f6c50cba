import WireSchema.Wire.Segment

/-!
# Declarations of a layout

The records, unions and variants of a layout by their names, with the segments that their fields are
written in.
-/

namespace WireSchema

def RecordLayout.segments (r : RecordLayout) : List Segment := Segment.ofFields r.wireFields

def VariantLayout.segments (v : VariantLayout) : List Segment := Segment.ofFields v.variant.fields

def UnionLayout.tagBytes (u : UnionLayout) (v : VariantLayout) : List UInt8 :=
  toBytes u.width.size v.tag

def UnionLayout.variantOfTag? (u : UnionLayout) (tag : Int) : Option VariantLayout :=
  u.variants.find? fun v => (v.tag : Int) = tag

inductive Declaration where
  | record (r : RecordLayout)
  | union (u : UnionLayout)
deriving Repr

namespace Declaration

def name : Declaration → String
  | record r => r.name
  | union u => u.name

def attributes : Declaration → TypeAttributes
  | record r => r.attributes
  | union u => u.attributes

end Declaration

namespace Layout

variable (S : Layout)

def record? (name : String) : Option RecordLayout := S.records.find? (·.name = name)

def union? (name : String) : Option UnionLayout := S.unions.find? (·.name = name)

def variant? (union name : String) : Option (UnionLayout × VariantLayout) := do
  let u ← S.union? union
  let v ← u.variants.find? (·.name = name)
  return (u, v)

/-- The declaration of a name. The name of a variant behind that of its union stands for the
union. -/
def declaration? (name : String) : Option Declaration :=
  match S.record? name, S.union? name with
  | some r, _ => some (.record r)
  | none, some u => some (.union u)
  | none, none =>
    match Text.segments '.' name.toList with
    | [u, v] => (S.variant? (.ofList u) (.ofList v)).map fun uv => .union uv.1
    | _ => none

def declarationOf? : Owner → Option Declaration
  | .record name => (S.record? name).map .record
  | .variant union _ => (S.union? union).map .union

def fields? : Owner → Option (List Field)
  | .record name => (S.record? name).map fun r => r.record.fields
  | .variant union name => (S.variant? union name).map fun uv => uv.2.variant.fields

def fieldNames? (owner : Owner) : Option (List String) :=
  (S.fields? owner).map fun fields => fields.map Field.ident

end Layout

end WireSchema
