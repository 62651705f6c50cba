import WireSchema.Emit.Module

/-!
# Codecs on demand

The same module made in one pass over the classes. The codecs are a table that grows: whoever writes or
reads a field asks for its codec, which is put at the end of the table if the field has none yet.
-/

namespace WireSchema

abbrev Demand := StateM CodecTable

namespace Demand

def codec (owner field : String) (c : Codec) : Demand String := fun table =>
  match c.primitive? with
  | some p => (p.codecName, table)
  | none =>
    let index := table.findIdx fun e => e.owner = owner ∧ e.field = field
    (CodecTable.entryName index,
      if index < table.length then table else table ++ [⟨owner, field, c⟩])

def encodeStatement (owner object : String) : Segment → Demand Statement
  | .packed fields => pure (.pack object fields)
  | .single field (.declared type) => pure (.encodeDeclared object field type)
  | .single field c => do return .encodeBy (← codec owner field c) object field

def decodeStatement (owner : String) : Segment → Demand Statement
  | .packed fields => pure (.unpack fields)
  | .single field (.declared type) => pure (.decodeDeclared type field)
  | .single field c => do return .decodeBy (← codec owner field c) field

def recordClass (r : RecordLayout) : Demand RecordClass := do
  let encode ← r.segments.mapM (encodeStatement r.name (RecordLayout.sourceObject r.attributes))
  let decode ← r.segments.mapM (decodeStatement r.name)
  return {
    name := r.name
    fields := hintsOf r.record.fields
    encode := (r.attributes.preEncode.toList.map fun h => .replaceSelf (hookExpression h)) ++ encode
      ++ (r.attributes.postEncode.toList.map fun h => .finishBuffer (hookExpression h))
    decode := (r.attributes.preDecode.toList.map fun h => .openInput (hookExpression h)) ++ decode
      ++ [.returnObject (r.fields.map fun f => (f.field.ident, RecordLayout.fieldValue f))
        (r.attributes.postDecode.map hookExpression)]
    default? :=
      if r.hasDefault then some (r.record.fields.map fun f => (f.ident, .default f.codec)) else none }

def variantClass (u : UnionLayout) (v : VariantLayout) (index : Nat) : Demand VariantClass := do
  let encode ← v.segments.mapM (encodeStatement (v.ownerName u) "self")
  let decode ← v.segments.mapM (decodeStatement (v.ownerName u))
  return {
    name := v.name
    className := VariantLayout.className u.name index
    tag := v.tag
    tagBytes := u.tagBytes v
    fields := hintsOf v.variant.fields
    encode
    decode := decode ++ [.returnObject (v.variant.fields.map fun f => (f.ident, .read)) none] }

def unionClass (u : UnionLayout) : Demand UnionClass := do
  let variants ← u.variants.zipIdx.mapM fun (v, index) => variantClass u v index
  return { name := u.name, encode := u.encodeBody, decode := u.decodeBody, variants }

def classes (S : Layout) : Demand (List RecordClass × List UnionClass) := do
  let records ← S.records.mapM recordClass
  let unions ← S.unions.mapM unionClass
  return (records, unions)

end Demand

/-- The module for a layout, made in one pass with an empty table to begin with. -/
def Layout.emittedOnDemand (S : Layout) (runtime : String) : Module :=
  let ((records, unions), table) := Demand.classes S []
  { runtime
    hookModules := S.hookModules
    records
    unions
    codecs := table.mapIdx fun i e => (CodecTable.entryName i, e.codec) }

end WireSchema
