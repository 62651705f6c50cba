import WireSchema.Emit.Statement
import WireSchema.Wire.Declared

/-!
# Emitted modules

The plan of the module that is emitted for a layout: a class for each declared type, one more for
each variant, and the codecs of the fields that need one of their own. Codecs are numbered in the
order in which the classes first use them, and writing and reading a field use the same one.
-/

namespace WireSchema

/-- A field of some owner with a codec among those of the module. -/
structure CodecEntry where
  owner : String
  field : String
  codec : Codec
deriving DecidableEq, Repr

abbrev CodecTable := List CodecEntry

/-- Whether a field needs a codec of its own. Others are packed, or use a primitive's codec or the
code of a declared type. -/
def Codec.needsEntry (c : Codec) : Bool :=
  match c with
  | declared _ => false
  | c => c.primitive?.isNone

namespace CodecTable

def ofFields (owner : String) (fields : List Field) : CodecTable :=
  (fields.filter fun f => f.codec.needsEntry).map fun f => ⟨owner, f.ident, f.codec⟩

def ofLayout (S : Layout) : CodecTable :=
  (S.records.flatMap fun r => ofFields r.name r.wireFields) ++
    S.unions.flatMap fun u => u.variants.flatMap fun v =>
      ofFields (u.name ++ "." ++ v.name) v.variant.fields

def entryName (n : Nat) : String := "_codec" ++ toString n

def nameOf (table : CodecTable) (owner field : String) (c : Codec) : String :=
  match c.primitive? with
  | some p => p.codecName
  | none => entryName (table.findIdx fun e => e.owner = owner ∧ e.field = field)

end CodecTable

namespace Segment

variable (table : CodecTable) (owner : String)

def encodeStatement (object : String) : Segment → Statement
  | packed fields => .pack object fields
  | single field (.declared type) => .encodeDeclared object field type
  | single field codec => .encodeBy (table.nameOf owner field codec) object field

def decodeStatement : Segment → Statement
  | packed fields => .unpack fields
  | single field (.declared type) => .decodeDeclared type field
  | single field codec => .decodeBy (table.nameOf owner field codec) field

end Segment

abbrev Hints := List (String × String)

def hintsOf (fields : List Field) : Hints := fields.map fun f => (f.ident, f.type.hint)

structure RecordClass where
  name : String
  fields : Hints
  encode : List Statement
  decode : List Statement
  /-- The fields of the default, if the record has one. -/
  default? : Option (List (String × FieldValue))
deriving Repr

structure VariantClass where
  name : String
  className : String
  tag : Nat
  tagBytes : List UInt8
  fields : Hints
  encode : List Statement
  decode : List Statement
deriving Repr

structure UnionClass where
  name : String
  encode : List Statement
  decode : List Statement
  variants : List VariantClass
deriving Repr

structure Module where
  runtime : String
  hookModules : List String
  records : List RecordClass
  unions : List UnionClass
  codecs : List (String × Codec)
deriving Repr

namespace RecordLayout

variable (table : CodecTable) (r : RecordLayout)

/-- The object whose fields are written: what a hook made of it, if there is one. -/
def sourceObject (a : TypeAttributes) : String :=
  if a.preEncode.isSome then "_self" else "self"

def encodeBody : List Statement :=
  (r.attributes.preEncode.toList.map fun h => .replaceSelf (hookExpression h))
    ++ r.segments.map (Segment.encodeStatement table r.name (sourceObject r.attributes))
    ++ (r.attributes.postEncode.toList.map fun h => .finishBuffer (hookExpression h))

def fieldValue (f : FieldLayout) : FieldValue :=
  if f.attributes.ignore then .default f.field.codec else .read

def decodeBody : List Statement :=
  (r.attributes.preDecode.toList.map fun h => .openInput (hookExpression h))
    ++ r.segments.map (Segment.decodeStatement table r.name)
    ++ [.returnObject (r.fields.map fun f => (f.field.ident, fieldValue f))
        (r.attributes.postDecode.map hookExpression)]

def emitted : RecordClass where
  name := r.name
  fields := hintsOf r.record.fields
  encode := r.encodeBody table
  decode := r.decodeBody table
  default? :=
    if r.hasDefault then some (r.record.fields.map fun f => (f.ident, .default f.codec)) else none

end RecordLayout

namespace VariantLayout

variable (table : CodecTable) (u : UnionLayout) (v : VariantLayout)

def ownerName : String := u.name ++ "." ++ v.name

def encodeBody : List Statement :=
  v.segments.map (Segment.encodeStatement table (ownerName u v) "self")

def decodeBody : List Statement :=
  v.segments.map (Segment.decodeStatement table (ownerName u v))
    ++ [.returnObject (v.variant.fields.map fun f => (f.ident, .read)) none]

def emitted (index : Nat) : VariantClass where
  name := v.name
  className := className u.name index
  tag := v.tag
  tagBytes := u.tagBytes v
  fields := hintsOf v.variant.fields
  encode := encodeBody table u v
  decode := decodeBody table u v

end VariantLayout

namespace UnionLayout

variable (u : UnionLayout)

def encodeBody : List Statement :=
  let object := RecordLayout.sourceObject u.attributes
  (u.attributes.preEncode.toList.map fun h => .replaceSelf (hookExpression h))
    ++ [.appendTag object, .appendFields object]
    ++ (u.attributes.postEncode.toList.map fun h => .finishBuffer (hookExpression h))

def decodeBody : List Statement :=
  (u.attributes.preDecode.toList.map fun h => .openInput (hookExpression h))
    ++ [.readTag (Primitive.int u.width.kind).codecName, .findVariant, .refuseTag u.name,
      .readFields, .returnValue (u.attributes.postDecode.map hookExpression)]

def emitted (table : CodecTable) : UnionClass where
  name := u.name
  encode := u.encodeBody
  decode := u.decodeBody
  variants := u.variants.mapIdx fun i v => VariantLayout.emitted table u v i

end UnionLayout

def Layout.emitted (S : Layout) (runtime : String) : Module :=
  let table := CodecTable.ofLayout S
  { runtime
    hookModules := S.hookModules
    records := S.records.map fun r => r.emitted table
    unions := S.unions.map fun u => u.emitted table
    codecs := table.mapIdx fun i e => (CodecTable.entryName i, e.codec) }

end WireSchema
