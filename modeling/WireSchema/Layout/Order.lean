import WireSchema.Layout.Attributes
import WireSchema.Layout.Fault

/-!
# Field order

On the wire, the fields with an order number come first, by number, and then the others, by
position. Two fields cannot have the same number. Ignored fields keep their place in the order,
though they are not written.
-/

namespace WireSchema

structure FieldLayout where
  field : Field
  attributes : FieldAttributes
deriving BEq, Repr, Inhabited

namespace FieldLayout

/-- Where a field stands: numbered fields before the others, then the number, then the position. -/
def rank (f : FieldLayout) : Nat × Int × Nat :=
  match f.attributes.orderNo with
  | some n => (0, n, f.field.index)
  | none => (1, 0, f.field.index)

/-- Ranks are compared part by part. -/
def le (f g : FieldLayout) : Bool :=
  let a := f.rank
  let b := g.rank
  a.1 < b.1 || (a.1 = b.1 && (a.2.1 < b.2.1 || (a.2.1 = b.2.1 && a.2.2 ≤ b.2.2)))

end FieldLayout

/-- The first field whose number an earlier one has, given the earlier fields with a number. -/
def checkNumbers : List (Int × FieldLayout) → List FieldLayout → Resolved Unit
  | _, [] => pure ()
  | claimed, f :: fs =>
    match f.attributes.orderNo with
    | none => checkNumbers claimed fs
    | some n =>
      match claimed.find? (·.1 = n) with
      | some (_, g) =>
        unresolved (.sharedOrder g.field.ident f.field.ident n) f.field.location
      | none => checkNumbers ((n, f) :: claimed) fs

def orderFields (fields : List FieldLayout) : Resolved (List FieldLayout) := do
  checkNumbers [] fields
  return fields.mergeSort FieldLayout.le

end WireSchema
