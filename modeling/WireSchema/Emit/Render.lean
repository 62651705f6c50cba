import WireSchema.Emit.Text

/-!
# Rendering

A module is put together from what its layout holds, and some of that is looked up in places where
nothing may be: a generic type is taken to be applied to as many types as it needs, and a tag to fit
into the bytes of its width. A module is rendered if all these look-ups succeed. The codecs and the
defaults of a field ask for no more than the hint for its type does.
-/

namespace WireSchema

namespace TypeExpr

/-- The hint for a type of this name, given the hints for the types it is applied to. -/
def hintOf? (name : String) (hints : List (Option String)) : Option String :=
  if name = "optional" then do
    let t ← hints[0]?.join
    return t ++ " | None"
  else if name = "list" ∨ name = "array" then do
    let t ← hints[0]?.join
    return "list[" ++ t ++ "]"
  else if name = "map" then do
    let k ← hints[0]?.join
    let v ← hints[1]?.join
    return "dict[" ++ k ++ ", " ++ v ++ "]"
  else some ((Primitive.ofName? name).elim name Primitive.hint)

mutual
def hint? : TypeExpr → Option String
  | named name => hintOf? name []
  | applied name args => hintOf? name (hints? args)
  | array element _ => hintOf? "array" [hint? element]

def hints? : List TypeExpr → List (Option String)
  | [] => []
  | t :: ts => hint? t :: hints? ts
end

end TypeExpr

def hintsOf? (fields : List Field) : Option Hints :=
  fields.mapM fun f => do return (f.ident, ← f.type.hint?)

def RecordLayout.emitted? (table : CodecTable) (r : RecordLayout) : Option RecordClass := do
  let fields ← hintsOf? r.record.fields
  return { r.emitted table with fields }

def VariantLayout.emitted? (table : CodecTable) (u : UnionLayout) (v : VariantLayout)
    (index : Nat) : Option VariantClass := do
  let tagBytes ← u.width.kind.encode? v.tag
  let fields ← hintsOf? v.variant.fields
  return { v.emitted table u index with tagBytes, fields }

def UnionLayout.emitted? (table : CodecTable) (u : UnionLayout) : Option UnionClass := do
  let variants ← u.variants.zipIdx.mapM fun p => p.1.emitted? table u p.2
  return { u.emitted table with variants }

namespace Layout

def emitted? (S : Layout) (runtime : String) : Option Module := do
  let table := CodecTable.ofLayout S
  let records ← S.records.mapM (RecordLayout.emitted? table)
  let unions ← S.unions.mapM (UnionLayout.emitted? table)
  return { S.emitted runtime with records, unions }

def render? (S : Layout) (runtime : String) : Option String := (S.emitted? runtime).map Module.text

end Layout

end WireSchema
