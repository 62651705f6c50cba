import WireSchema.Wire.Declaration
import WireSchema.Wire.Kind

/-!
# Entities

What the names in an emitted module can denote: values, bytes, the classes of declared types, codecs,
hooks and spaces of the caller's, what the language has of its own, and what any of these can be asked
for.

Where a value is expected, any entity can stand. One that is no value is foreign there.
-/

namespace WireSchema

/-- The classes in an emitted module: those of declared types and variants, the two bare ones that
these are made from, and the barest, from which these two are made. -/
inductive ClassName where
  | record (name : String)
  | union (name : String)
  | variant (home name : String)
  | bareRecord
  | bareUnion
  | bare
deriving DecidableEq, Repr

namespace ClassName

def text : ClassName → String
  | record name | union name => name
  | variant home name => home ++ "." ++ name
  | bareRecord => "Record"
  | bareUnion => "Union"
  | bare => "Codable"

def ofOwner : Owner → ClassName
  | .record name => record name
  | .variant home name => variant home name

def owner? : ClassName → Option Owner
  | record name => some (.record name)
  | variant home name => some (.variant home name)
  | _ => none

def parent? : ClassName → Option ClassName
  | record _ => some bareRecord
  | union _ => some bareUnion
  | variant home _ => some (union home)
  | bareRecord | bareUnion => some bare
  | bare => none

def isRecord : ClassName → Bool
  | record _ | bareRecord => true
  | _ => false

def isUnion : ClassName → Bool
  | union _ | variant _ _ | bareUnion => true
  | _ => false

/-- Whether the class has a member of this kind. Only records have defaults, and only unions have
tags. -/
def has (c : ClassName) : Member → Bool
  | .default => c.isRecord
  | .tag | .encodeFields | .decodeFields => c.isUnion
  | _ => true

end ClassName

/-- The classes of codecs, before they are applied to anything. -/
inductive CodecFamily where
  | integer | bool | string | packedBools | optional | list | array | map | declared
  /-- What all others are made from. -/
  | bare
deriving DecidableEq, Repr

namespace CodecFamily

def imported : List CodecFamily := [optional, list, array, map, declared]

def className : CodecFamily → String
  | integer => "IntegerCodec"
  | bool => "BoolCodec"
  | string => "StringCodec"
  | packedBools => "PackedBoolsCodec"
  | optional => "OptionalCodec"
  | list => "ListCodec"
  | array => "ArrayCodec"
  | map => "MapCodec"
  | declared => "TypeCodec"
  | bare => "Codec"

/-- What a codec of a class is called if it has no name of its own. -/
def bareName : CodecFamily → String
  | bool => Codec.bool.name
  | string => Codec.string.name
  | packedBools => Codec.packedBools.name
  | _ => "codec"

def hasParts : CodecFamily → Bool
  | bool | string | packedBools | bare => false
  | _ => true

def isOfOne : CodecFamily → Bool
  | optional | list | declared => true
  | _ => false

def hasCode (f : CodecFamily) (name : String) : Bool :=
  ["encode", "decode", "__repr__"].contains name || f.hasParts && name = "__init__"

def ofCodec : Codec → CodecFamily
  | .int _ => integer
  | .bool => bool
  | .string => string
  | .packedBools => packedBools
  | .optional _ => optional
  | .list _ => list
  | .array _ _ => array
  | .map _ _ => map
  | .declared _ => declared

end CodecFamily

/-- What can be done with bytes other than the buffer that is being written. -/
inductive BytesKind where
  /-- They can be changed. -/
  | array
  /-- They can be changed, but not their number, as they are being looked at. -/
  | lent
  /-- They are seen where they are. -/
  | view (origin : Origin)
  | fixed
deriving DecidableEq, Repr

inductive Entity where
  | value (v : Value)
  /-- The buffer that is being written. -/
  | buffer
  | bytes (kind : BytesKind) (bs : List UInt8)
  | tuple (items : List Entity)
  | type (c : ClassName)
  /-- A kind of the language's own, by its name. -/
  | kind (name : String)
  | codec (c : Codec)
  | family (f : CodecFamily)
  /-- A codec made of entities that need not be codecs. -/
  | applied (f : CodecFamily) (parts : List (String × Entity))
  /-- Something of a kind of which only some parts are known. -/
  | other (kind : String) (parts : List (String × Entity))
  /-- A hook of the caller's. -/
  | function (name : String)
  /-- A function that is known everywhere. -/
  | common (name : String)
  /-- Something that can only be run with other things than a hook is offered. -/
  | helper (name : String)
  | space (members : List (String × Entity))
  /-- A space that can be imported. -/
  | module (members : List (String × Entity))
  /-- What an entity is asked for by this name. -/
  | member (owner : Entity) (name : String)
deriving Inhabited

namespace Codec

def traits (c : Codec) : List (String × Value) :=
  ("name", .text c.name) ::
    match c with
    | int k =>
      [("size", .int k.size), ("signed", .bool k.signed), ("min_value", .int k.minValue),
        ("max_value", .int k.maxValue)]
    | array _ n => [("size", .int n)]
    | _ => []

def parts : Codec → List (String × Codec)
  | optional c | list c | array c _ => [("inner", c)]
  | map k v => [("key", k), ("value", v)]
  | _ => []

end Codec

namespace Layout

variable (S : Layout)

def class? (name : String) : Option ClassName :=
  if (S.record? name).isSome then some (.record name)
  else if (S.union? name).isSome then some (.union name)
  else
    match Text.segments '.' name.toList with
    | [u, v] =>
      if (S.variant? (.ofList u) (.ofList v)).isSome then some (.variant (.ofList u) (.ofList v))
      else none
    | _ => none

end Layout

def Value.kindName : Value → String
  | object _ _ => "object"
  | v => v.kind

namespace Entity

/-- What two entities that know nothing of each other come to. -/
def undecided : Entity := other "NotImplementedType" []

def nothing : Entity := value .none

def ofText (s : String) : Entity := value (.text s)

def ofInt (n : Int) : Entity := value (.int n)

def ofBool (b : Bool) : Entity := value (.bool b)

def requestText (k name : String) : String :=
  let word := if Kind.isDunder name && !Kind.madeByName.contains name then "slot wrapper"
    else "method"
  "<" ++ word ++ " '" ++ name ++ "' of '" ++ ((Kind.home? k name).map Kind.name).getD k ++
    "' objects>"

mutual
def text : Entity → String
  | value v => v.repr
  | tuple items => Value.inParentheses (texts items)
  | type c => "<class '" ++ c.text ++ "'>"
  | kind name => "<class '" ++ name ++ "'>"
  | codec c => c.text
  | function name | helper name => "<function " ++ name ++ ">"
  | common name => "<built-in function " ++ name ++ ">"
  | applied f parts =>
    match parts.find? (·.1 = "name") with
    | some (_, value v) => "<" ++ f.className ++ " " ++ v.shown ++ ">"
    | _ => "<" ++ f.className ++ ">"
  | other k _ => "<" ++ k ++ " object>"
  | member (kind k) name => requestText k name
  | _ => "<object>"

def texts : List Entity → List String
  | [] => []
  | e :: es => text e :: texts es
end

mutual
def isShowable : Entity → Bool
  | value v => v.isShowable
  | tuple items => areShowable items
  | _ => true

def areShowable : List Entity → Bool
  | [] => true
  | e :: es => e.isShowable && areShowable es
end

def told (e : Entity) : Except Fault String := if e.isShowable then .ok e.text else .error .unfit

def depth : Entity → Nat
  | value v => v.depth
  | _ => 0

def declaredClass? : Entity → Option ClassName
  | type c => some c
  | value (.object owner _) => some (.ofOwner owner)
  | _ => none

def isClass : Entity → Bool
  | type _ | kind _ | family _ => true
  | _ => false

def fieldRequests : List String := ["__init__", "__repr__", "__eq__"]

/-- Requests that a class answers itself, not its objects. -/
def classRequests : List Member := [.decode, .decodeFromBuf, .decodeValue, .decodeFields, .default]

/-- Whether a class has code of its own for a request of its objects or of itself. -/
def hasCode (c : ClassName) (name : String) : Bool :=
  (Member.ofName? name).any (fun m => m ≠ .tag && c.has m) ||
    c.owner?.isSome && fieldRequests.contains name

def requestKind (owner : Entity) (name : String) : String :=
  match owner with
  | type c =>
    if !hasCode c name then ofClass "object"
    else if (Member.ofName? name).any classRequests.contains then "method"
    else "function"
  | family f => if f.hasCode name then "function" else ofClass "object"
  | kind k => ofClass k
  | value (.object o _) => ofCode (hasCode (.ofOwner o) name)
  | codec c => ofCode ((CodecFamily.ofCodec c).hasCode name)
  | applied f _ => ofCode (f.hasCode name)
  | _ => ofInstance
where
  ofInstance : String :=
    if Kind.isDunder name && !Kind.madeByName.contains name then "method-wrapper"
    else "builtin_function_or_method"
  ofCode (isOwn : Bool) : String := if isOwn then "method" else ofInstance
  ofClass (k : String) : String :=
    if Kind.ofTheKind.contains name then "builtin_function_or_method"
    else if (Kind.home? k name).isSome then "method_descriptor"
    else ofInstance

def kindName : Entity → String
  | value v => v.kindName
  | buffer | bytes .array _ | bytes .lent _ => "bytearray"
  | bytes (.view _) _ => "memoryview"
  | bytes .fixed _ => "bytes"
  | tuple _ => "tuple"
  | type _ | kind _ | family _ => "type"
  | codec _ | applied .. | space _ => "object"
  | other k _ => k
  | function _ | helper _ => "function"
  | common _ => "builtin_function_or_method"
  | module _ => "module"
  | member owner name => requestKind owner name

def isOf (e : Entity) (kind : String) : Bool := Kind.isA e.kindName kind

end Entity

end WireSchema
