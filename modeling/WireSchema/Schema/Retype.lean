import WireSchema.Schema.Basic

/-!
# Another type for a field

A schema with another type for one of its fields, and everything else as it is.
-/

namespace WireSchema

/-- Two lists that differ in one item only, which is changed in the way that `R` tells. -/
inductive OneChanged {α : Type} (R : α → α → Prop) : List α → List α → Prop
  | head {a b : α} {as : List α} : R a b → OneChanged R (a :: as) (b :: as)
  | tail {a : α} {as bs : List α} : OneChanged R as bs → OneChanged R (a :: as) (a :: bs)

/-- The type `t` of the field is changed into `t'`. -/
def Field.Retyped (t t' : TypeExpr) (f g : Field) : Prop := f.type = t ∧ g = { f with type := t' }

/-- The type `t` of one field is changed into `t'`. -/
inductive Record.Retyped (t t' : TypeExpr) : Record → Record → Prop
  | mk {r : Record} {fields : List Field} : OneChanged (Field.Retyped t t') r.fields fields →
    Retyped t t' r { r with fields }

inductive Variant.Retyped (t t' : TypeExpr) : Variant → Variant → Prop
  | mk {v : Variant} {fields : List Field} : OneChanged (Field.Retyped t t') v.fields fields →
    Retyped t t' v { v with fields }

inductive Union.Retyped (t t' : TypeExpr) : Union → Union → Prop
  | mk {u : Union} {variants : List Variant} :
    OneChanged (Variant.Retyped t t') u.variants variants → Retyped t t' u { u with variants }

inductive Schema.Retyped (t t' : TypeExpr) : Schema → Schema → Prop
  | record {records records' : List Record} {unions : List Union} :
    OneChanged (Record.Retyped t t') records records' →
      Retyped t t' ⟨records, unions⟩ ⟨records', unions⟩
  | union {records : List Record} {unions unions' : List Union} :
    OneChanged (Union.Retyped t t') unions unions' →
      Retyped t t' ⟨records, unions⟩ ⟨records, unions'⟩

def Schema.fields (s : Schema) : List Field :=
  s.records.flatMap Record.fields ++ s.unions.flatMap fun u => u.variants.flatMap Variant.fields

end WireSchema
