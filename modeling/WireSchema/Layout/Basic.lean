import WireSchema.Layout.Default
import WireSchema.Layout.Order
import WireSchema.Layout.Resolve
import WireSchema.Layout.Tags
import WireSchema.Schema.Check

/-!
# Layouts

A layout is a schema with everything resolved that the wire format needs: the order of each
record's fields, and the width and values of each union's tags. Records are resolved before unions,
each kind in source order, and the first failure is the one reported.
-/

namespace WireSchema

/-- The fields are in declaration order; `order` has the same fields in the order of the wire. -/
structure RecordLayout where
  record : Record
  attributes : TypeAttributes
  fields : List FieldLayout
  order : List FieldLayout
  hasDefault : Bool
deriving BEq, Repr, Inhabited

/-- Tags that come from a schema are not negative. -/
structure VariantLayout where
  variant : Variant
  attributes : VariantAttributes
  tag : Nat
deriving BEq, Repr, Inhabited

structure UnionLayout where
  union : Union
  attributes : TypeAttributes
  width : TagWidth
  variants : List VariantLayout
deriving BEq, Repr, Inhabited

structure Layout where
  records : List RecordLayout
  unions : List UnionLayout
deriving BEq, Repr, Inhabited

namespace RecordLayout

def name (r : RecordLayout) : String := r.record.name

def wireFields (r : RecordLayout) : List Field :=
  (r.order.filter fun f => !f.attributes.ignore).map FieldLayout.field

/-- An ignored field is filled with its default when it is read, so it must have one. -/
def checkIgnored (known : List String) : List FieldLayout → Resolved Unit
  | [] => pure ()
  | f :: fs =>
    if f.attributes.ignore && !f.field.type.hasDefault known then
      unresolved (.ignoredWithoutDefault f.field.ident f.field.type.text) f.field.location
    else checkIgnored known fs

def resolveFields (fields : List Field) : Resolved (List FieldLayout) :=
  fields.mapM fun f => return ⟨f, ← FieldAttributes.resolve f.annotations⟩

def ofRecord (known : List String) (r : Record) : Resolved RecordLayout := do
  let attributes ← TypeAttributes.resolve r.annotations
  match attributes.unionOptions, attributes.unionLocation with
  | some _, some l => unresolved .unionOptionOnRecord l
  | some _, none => unresolved .unionOptionOnRecord r.location
  | none, _ => pure ()
  let fields ← resolveFields r.fields
  checkIgnored known fields
  let order ← orderFields fields
  return ⟨r, attributes, fields, order, known.contains r.name⟩

end RecordLayout

namespace VariantLayout

def name (v : VariantLayout) : String := v.variant.name

def className (union : String) (index : Nat) : String := "_" ++ union ++ "_" ++ toString index

end VariantLayout

namespace UnionLayout

def name (u : UnionLayout) : String := u.union.name

/-- The fields of variants cannot be annotated. -/
def checkFieldBlocks : List Field → Resolved Unit
  | [] => pure ()
  | f :: fs =>
    match f.annotations with
    | [] => checkFieldBlocks fs
    | b :: _ => unresolved .annotatedVariantField b.location

def ofUnion (u : Union) : Resolved UnionLayout := do
  let attributes ← TypeAttributes.resolve u.annotations
  let options := attributes.unionOptions.getD .empty
  checkFieldBlocks (u.variants.flatMap Variant.fields)
  let values ← u.variants.mapM fun v => VariantAttributes.resolve v.annotations
  let tags ← assignTags options (u.variants.zip values)
  return ⟨u, attributes, options.width,
    (u.variants.zip (values.zip tags)).map fun (v, a, tag) => ⟨v, a, tag.toNat⟩⟩

end UnionLayout

namespace Layout

def ofSchema (s : Schema) : Resolved Layout := do
  let known := defaultable s.records
  let records ← s.records.mapM (RecordLayout.ofRecord known)
  let unions ← s.unions.mapM UnionLayout.ofUnion
  return ⟨records, unions⟩

/-- The layout of the schema that a text defines. -/
def ofText [Text.CharacterNames] (text : String) : Except Rejection Layout :=
  match Schema.parse text with
  | .error why => .error (.reading why)
  | .ok s =>
    match ofSchema s with
    | .error why => .error (.resolving why)
    | .ok layout => .ok layout

/-- A layout can be examined without being written out. -/
theorem exists_of_any_ofText [Text.CharacterNames] (text : String) (p : Layout → Bool)
    (h : (ofText text).toOption.any p = true) : ∃ S, ofText text = .ok S ∧ p S = true := by
  cases hS : ofText text with
  | error why =>
    rw [hS] at h
    cases h
  | ok S =>
    rw [hS] at h
    exact ⟨S, rfl, h⟩

def names (layout : Layout) : List String :=
  layout.records.map RecordLayout.name ++ layout.unions.map UnionLayout.name

def typeAttributes (layout : Layout) : List TypeAttributes :=
  layout.records.map RecordLayout.attributes ++ layout.unions.map UnionLayout.attributes

def hookModules (layout : Layout) : List String :=
  ((layout.typeAttributes.flatMap TypeAttributes.hooks).filterMap fun path =>
    (splitHookPath path).1).eraseDups

def hookNames (layout : Layout) : List String := layout.hookModules.map firstPart

end Layout

end WireSchema
