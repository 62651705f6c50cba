import WireSchema.Layout.Basic

/-!
# The resolution trace

One line for every declaration, in the order in which they are resolved: the field order of a
record, the tags of a union.
-/

namespace WireSchema

def FieldLayout.traceText (f : FieldLayout) : String :=
  f.field.ident ++ if f.attributes.ignore then " (ignored)" else ""

def RecordLayout.trace (r : RecordLayout) : String :=
  "Resolved " ++ r.name ++ " field order: " ++ ", ".intercalate (r.order.map (·.traceText))

def UnionLayout.trace (u : UnionLayout) : String :=
  "Resolved " ++ u.name ++ " tags (" ++ u.width.name ++ "): " ++
    ", ".intercalate (u.variants.map fun v => v.name ++ "=" ++ toString v.tag)

def Layout.trace (layout : Layout) : List String :=
  layout.records.map RecordLayout.trace ++ layout.unions.map UnionLayout.trace

end WireSchema
