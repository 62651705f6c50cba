import WireSchema.Emit.Text

/-!
# Names in emitted modules

Which names an emitted module binds at its top, and which names its methods, tables and codecs
refer to or bind themselves. The names that are known everywhere are left out, and so is what stands
in annotations, which are not evaluated.
-/

namespace WireSchema

/-- The names that the expression for a default binds: an array's elements are counted. -/
def Codec.defaultLocals : Codec → List String
  | packedBools => ["_"]
  | array c _ => "_" :: c.defaultLocals
  | _ => []

namespace FieldValue

def references : FieldValue → List String
  | read => []
  | default codec => codec.defaultNames

def locals : FieldValue → List String
  | read => []
  | default codec => codec.defaultLocals

end FieldValue

namespace Statement

def references : Statement → List String
  | pass | encodeDeclared .. | appendTag _ | appendFields _ | findVariant | readFields => []
  | replaceSelf hook | finishBuffer hook => [firstPart hook]
  | pack .. => ["pack_fields"]
  | unpack _ => ["unpack_fields"]
  | encodeBy codec .. | decodeBy codec _ | readTag codec => [codec]
  | openInput hook => ["apply_pre_decode", firstPart hook]
  | decodeDeclared type _ => [type]
  | refuseTag _ => ["DecodeError"]
  | returnObject fields hook =>
    fields.flatMap (fun f => f.2.references) ++ returned hook
  | returnValue hook => returned hook
where
  returned : Option String → List String
    | some hook => ["apply_post_decode", firstPart hook]
    | none => []

def locals : Statement → List String
  | replaceSelf _ => ["_self"]
  | openInput _ => ["_data"]
  | unpack fields => fields.map (fun f => localName f.1) ++ ["_data"]
  | decodeDeclared _ field | decodeBy _ field => [localName field, "_data"]
  | readTag _ => ["_tag", "_data"]
  | findVariant => ["_variant"]
  | readFields => ["_value", "_data"]
  | returnObject fields _ => fields.flatMap fun f => f.2.locals
  | _ => []

/-! ## What a statement covers -/

/-- The fields that a statement writes or reads, and by what. -/
inductive Coverage where
  | packed (fields : List (String × Slot))
  | declared (type field : String)
  | codec (name field : String)
deriving DecidableEq, Repr

def coverage? : Statement → Option Coverage
  | pack _ fields | unpack fields => some (.packed fields)
  | encodeDeclared _ field type | decodeDeclared type field => some (.declared type field)
  | encodeBy codec _ field | decodeBy codec field => some (.codec codec field)
  | _ => none

def coverages (body : List Statement) : List Coverage := body.filterMap coverage?

end Statement

/-! Both statements of a segment cover the same. -/

theorem Segment.coverage?_encodeStatement (table : CodecTable) (owner object : String)
    (g : Segment) :
    (g.encodeStatement table owner object).coverage? = (g.decodeStatement table owner).coverage? := by
  cases g with
  | packed fields => rfl
  | single field codec => cases codec <;> rfl

structure Method where
  parameters : List String
  body : List Statement

namespace Method

def ofEncode (body : List Statement) : Method := ⟨["self", "_buf"], body⟩

def ofDecode (body : List Statement) : Method := ⟨["cls", "_data"], body⟩

def ofDefault (fields : List (String × FieldValue)) : Method :=
  ⟨["cls"], [.returnObject fields none]⟩

def references (m : Method) : List String := m.body.flatMap Statement.references

def ownNames (m : Method) : List String := m.parameters ++ m.body.flatMap Statement.locals

end Method

namespace VariantClass

def methods (v : VariantClass) : List Method := [.ofEncode v.encode, .ofDecode v.decode]

end VariantClass

namespace RecordClass

def methods (r : RecordClass) : List Method :=
  [.ofEncode r.encode, .ofDecode r.decode] ++ r.default?.toList.map .ofDefault

end RecordClass

namespace UnionClass

def methods (u : UnionClass) : List Method :=
  [.ofEncode u.encode, .ofDecode u.decode] ++ u.variants.flatMap VariantClass.methods

def classNames (u : UnionClass) : List String := u.name :: u.variants.map VariantClass.className

end UnionClass

namespace Module

variable (m : Module)

def helperNames (runtime : String) : List String :=
  if isLocal runtime then ["sys", "Path", "_runtime_path", "_added_to_path"] else []

/-- The names bound by imports of hook modules, each of which binds the first part of its path. -/
def hookNames : List String := (m.hookModules.map firstPart).eraseDups

def classNames : List String :=
  m.records.map RecordClass.name ++ m.unions.flatMap UnionClass.classNames

def fieldLists : List Hints :=
  m.records.map RecordClass.fields ++
    m.unions.flatMap fun u => u.variants.map VariantClass.fields

def bindings : List String :=
  ["dataclass"] ++ helperNames m.runtime ++ runtimeNames ++ m.classNames ++ m.codecs.map Prod.fst

def methods : List Method :=
  m.records.flatMap RecordClass.methods ++ m.unions.flatMap UnionClass.methods

/-- The names that classes, tables and codecs refer to outside of methods. -/
def outerReferences : List String :=
  ["dataclass", "Record", "Union"] ++ helperNames m.runtime ++ m.classNames ++
    m.codecs.flatMap fun c => c.2.expressionNames

def references : List String := m.outerReferences ++ m.methods.flatMap Method.references

end Module

end WireSchema
