import WireSchema.Layout.Basic

/-!
# Piecewise resolution

Every piece of every declaration resolved on its own, so that one failure does not hide another.
-/

namespace WireSchema

structure RecordPieces where
  name : String
  attributes : Resolved TypeAttributes
  fields : List (Resolved FieldAttributes)
  order : Resolved (List FieldLayout)

structure UnionPieces where
  name : String
  attributes : Resolved TypeAttributes
  variants : List (Resolved VariantAttributes)
  tags : Resolved (List Int)

def Record.pieces (r : Record) : RecordPieces where
  name := r.name
  attributes := TypeAttributes.resolve r.annotations
  fields := r.fields.map fun f => FieldAttributes.resolve f.annotations
  order := do orderFields (← RecordLayout.resolveFields r.fields)

def Union.pieces (u : Union) : UnionPieces where
  name := u.name
  attributes := TypeAttributes.resolve u.annotations
  variants := u.variants.map fun v => VariantAttributes.resolve v.annotations
  tags := do
    let attributes ← TypeAttributes.resolve u.annotations
    let values ← u.variants.mapM fun v => VariantAttributes.resolve v.annotations
    assignTags (attributes.unionOptions.getD .empty) (u.variants.zip values)

end WireSchema
