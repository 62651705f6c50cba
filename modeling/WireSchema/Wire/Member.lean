import WireSchema.Emit.Expression
import WireSchema.Wire.Ambient.Names

/-!
# Members

What an entity has for its members: traits, which are entities that are there, and the requests that
it takes. Fields come first, then what a class has, then what the kind of the entity has. Hooks are
reported by qualified names, which say whose member a request is.
-/

namespace WireSchema

/-- What a number answers to some names without being asked for anything. -/
def Value.trait? (v : Value) (name : String) : Option Value :=
  match v, v.integer?, name with
  | _, some n, "real" | _, some n, "numerator" => some (.int n)
  | _, some _, "imag" => some (.int 0)
  | _, some _, "denominator" => some (.int 1)
  | double _, _, "real" => some v
  | double _, _, "imag" => some (.double ⟨false, 0⟩)
  | _, _, _ => Option.none

namespace Entity

variable (S : Layout)

/-! ## Names -/

/-- The class at the top of the module whose code a member of a class is. Decoding that reports
faults is the same for all classes, and the code of a variant has a class of its own. -/
def codeHome (c : ClassName) (m : Member) : String :=
  match m with
  | .encoded | .decode | .decodeFromBuf => "Codable"
  | .encodeToBuf | .decodeValue =>
    match c with
    | .record name | .union name | .variant name _ => name
    | .bareRecord | .bareUnion | .bare => "Codable"
  | .default => if ofRecord then c.text else "Record"
  | .encodeFields | .decodeFields | .tag =>
    match c with
    | .variant u v => variantHome u v
    | _ => "Union"
where
  ofRecord : Bool := ((S.record? c.text).map RecordLayout.hasDefault).getD false
  variantHome (u v : String) : String :=
    match S.union? u with
    | some layout => VariantLayout.className u (layout.variants.findIdx (·.name = v))
    | none => u

def topName (c : ClassName) : String :=
  match c with
  | .variant _ _ => codeHome S c .encodeFields
  | c => c.text

def requestHome (owner : Entity) (name : String) : String :=
  match owner, Member.ofName? name with
  | type c, some m => codeHome S c m
  | value (.object o _), some m => codeHome S (.ofOwner o) m
  | type c, none => ofClass c.text "object"
  | value (.object o _), none => ofInstance o.text
  | kind k, _ => ofClass k k
  | codec c, _ => ofInstance c.className
  | applied f _, _ => ofInstance f.className
  | family f, _ => ofClass f.className "object"
  | e, _ => ofInstance e.kindName
where
  homeOf (k : String) : String := ((Kind.home? k name).map Kind.name).getD k
  isBound : Bool := requestKind owner name ≠ "method-wrapper"
  ofInstance (own : String) : String :=
    if ["function", "method"].contains (requestKind owner name) then own
    else if isBound then own else homeOf owner.kindName
  ofClass (own k : String) : String :=
    match requestKind owner name with
    | "method_descriptor" => homeOf k
    | "method-wrapper" => "type"
    | _ => own

def name : Entity → String
  | function name | helper name | common name | kind name => name
  | type c => c.text
  | family f => f.className
  | member owner name => requestHome S owner name ++ "." ++ name
  | e => e.text

/-! ## Traits -/

def classOf : Entity → Entity
  | value (.object owner _) => type (.ofOwner owner)
  | codec c => family (.ofCodec c)
  | applied f _ => family f
  | e => kind e.kindName

def ancestors (c : ClassName) : List Entity :=
  let classes : List ClassName := match c, c.parent? with
    | .variant _ _, some u => [c, u, .bareUnion, .bare]
    | .bare, _ => [c]
    | c, some p => if p = .bare then [c, p] else [c, p, .bare]
    | c, none => [c]
  classes.map type ++ [kind "object"]

private def spelled (names : List String) : Entity := tuple (names.map ofText)

private def emptyMap : Entity := value (.map [])

def signedKinds : List String :=
  ["memoryview", "complex", "enumerate", "float", "property", "list", "object", "reversed", "tuple",
    "function", "method", "module"]

/-- Kinds that do not say what they are for. -/
def silentKinds : List String :=
  ["ExceptionGroup", "NoneType", "NotImplementedType", "ellipsis", "mappingproxy"]

/-- What a class of any sort answers to a name, given itself and its ancestors. Things of an open class
can be told to have more members. -/
def classTrait? (ancestors : List Entity) (isOpen : Bool) (plain qualified name : String) :
    Option Entity :=
  match name with
  | "__name__" => some (ofText plain)
  | "__qualname__" => some (ofText qualified)
  | "__module__" => some (ofText "builtins")
  | "__mro__" => some (tuple ancestors)
  | "__bases__" => some (tuple (ancestors.drop 1 |>.take 1))
  | "__base__" => some ((ancestors.drop 1).headD nothing)
  | "__dict__" => some (other "mappingproxy" [])
  | "__weakref__" =>
    if isOpen then some (other "getset_descriptor" [("__name__", ofText name)]) else none
  | "__text_signature__" =>
    some (if signedKinds.contains plain then ofText "(object=(), /)" else nothing)
  | "__basicsize__" | "__dictoffset__" | "__flags__" | "__itemsize__" | "__weakrefoffset__" =>
    some (ofInt 0)
  | _ => none

/-- The members of a class that are no requests. Those of a union are its variants and the table of
them, and a variant has all members of its union. -/
def classPart? (c : ClassName) (name : String) : Option Entity :=
  match c with
  | .record _ | .bareRecord | .bare => none
  | .bareUnion => if name = "_variants" then some emptyMap else none
  | .union u => ofUnion u
  | .variant u v =>
    match S.variant? u v with
    | some (layout, l) =>
      if name = "_tag" then some (ofInt l.tag)
      else if name = "_tag_bytes" then some (bytes .fixed (layout.tagBytes l))
      else ofUnion u
    | none => none
where
  ofUnion (u : String) : Option Entity :=
    if name = "_variants" then
      (S.union? u).map fun layout => value (.map (layout.variants.map fun v =>
        (.int v.tag, .foreign ⟨(type (.variant u v.name)).text, [Member.encodeToBuf.name]⟩)))
    else (S.variant? u name).map fun _ => type (.variant u name)

def fieldsTrait? (c : ClassName) (name : String) : Option Entity :=
  match c.owner?.bind S.fieldNames? with
  | none => none
  | some fields =>
    match name with
    | "__match_args__" => some (spelled fields)
    | "__dataclass_fields__" => some (value (.map (fields.map fun f => (.text f, .text f))))
    | "__dataclass_params__" =>
      some (other "object"
        ((["init", "repr", "eq"].map (·, ofBool true)) ++
          ["order", "unsafe_hash", "frozen"].map (·, ofBool false)))
    | "__hash__" => some nothing
    | _ => none

private def hints (named : List (String × String)) : Entity :=
  value (.map (named.map fun h => (.text h.1, .text h.2)))

def classHints (c : ClassName) : Entity :=
  match c with
  | .bareUnion => hints [("_variants", "dict"), ("_tag", "int"), ("_tag_bytes", "bytes")]
  | c => hints (((c.owner?.bind S.fields?).getD []).map fun f => (f.ident, f.type.hint))

def codecHints : Entity := hints [("name", "str")]

def readBy (f : Entity) : Entity := other "property" [("fget", f)]

def typeTrait? (c : ClassName) (name : String) : Option Entity :=
  match classPart? S c name with
  | some part => some part
  | none =>
    match name with
    | "tag" => if c.isUnion then some (readBy (helper "tag")) else none
    | "__doc__" => some (match c with
      | .union _ => nothing
      | c => ofText (topName S c ++ "()"))
    | "__annotations__" => some (classHints S c)
    | name =>
      match fieldsTrait? S c name with
      | some part => some part
      | none => classTrait? (ancestors c) true (topName S c) c.text name

def openKinds : List String := ["ExceptionGroup", "SerializationError", "DecodeError"]

def kindTrait? (k name : String) : Option Entity :=
  let ancestors := (Kind.lineage k).map fun k => kind k.name
  match classTrait? ancestors (openKinds.contains k) k k name, Kind.home? k name with
  | some m, _ => some m
  | none, some home =>
    if !home.traits.contains name || ["__annotations__", "__abstractmethods__"].contains name then none
    else if name = "__hash__" then some nothing
    else some (other "getset_descriptor"
      [("__name__", ofText name), ("__qualname__", ofText (home.name ++ "." ++ name)),
        ("__objclass__", kind home.name)])
  | none, none =>
    if name = "__doc__" then some (if silentKinds.contains k then nothing else ofText k) else none

def familyAncestors (f : CodecFamily) : List Entity :=
  (if f = .bare then [family f] else [family f, family .bare]) ++ [kind "object"]

def familyTrait? (f : CodecFamily) (name : String) : Option Entity :=
  match f, name with
  | f, "name" => some (ofText f.bareName)
  | .integer, "min_value" | .integer, "max_value" => some (readBy (helper name))
  | f, "__annotations__" => some (if f = .bare then codecHints else emptyMap)
  | f, name => classTrait? (familyAncestors f) true f.className f.className name

/-- What anything made of a class in the module or in the runtime answers to a name. -/
def ownedTrait? (fields : List (Value × Value)) (name : String) : Option Entity :=
  match name with
  | "__dict__" => some (value (.map fields))
  | "__module__" => some (ofText "module")
  | "__weakref__" => some nothing
  | _ => none

def objectTrait? (owner : Owner) (fields : List (String × Value)) (name : String) : Option Entity :=
  let c := ClassName.ofOwner owner
  match fields.find? (·.1 = name), name with
  | some (_, w), _ => some (value w)
  | none, "tag" => if c.isUnion then classPart? S c "_tag" else none
  | none, "__annotations__" =>
    if !fields.isEmpty then some (classHints S c)
    else if c.isUnion then some (classHints S .bareUnion)
    else none
  | none, "__doc__" => typeTrait? S c name
  | none, name =>
    match classPart? S c name, fieldsTrait? S c name with
    | some part, _ | none, some part => some part
    | none, none => ownedTrait? (fields.map fun f => (.text f.1, f.2)) name

def codecTrait? (c : Codec) (name : String) : Option Entity :=
  match c.traits.find? (·.1 = name), c.parts.find? (·.1 = name), c, name with
  | some f, _, _, _ => some (value f.2)
  | none, some p, _, _ => some (codec p.2)
  | none, none, .declared declared, "cls" => (S.class? declared).map type
  | none, none, _, "__annotations__" => some codecHints
  | none, none, _, name => ownedTrait? [] name

def viewTrait? (origin : Origin) (bs : List UInt8) (name : String) : Option Entity :=
  match name with
  | "obj" => some (bytes (if origin.isArray then .lent else .fixed) origin.bytes)
  | "format" => some (ofText "B")
  | "nbytes" => some (ofInt bs.length)
  | "itemsize" | "ndim" => some (ofInt 1)
  | "readonly" => some (ofBool !origin.isArray)
  | "shape" => some (tuple [ofInt bs.length])
  | "strides" => some (tuple [ofInt 1])
  | "suboffsets" => some (tuple [])
  | "c_contiguous" | "contiguous" | "f_contiguous" => some (ofBool true)
  | _ => none

/-- Who a request is made to in the end. Some go to the class of what is asked. -/
def addressee (owner : Entity) (name : String) : Entity :=
  let isOfClass := Kind.ofTheKind.contains name ||
    (Member.ofName? name).any fun m => classRequests.contains m && owner.declaredClass?.isSome
  if !isOfClass || (owner.isClass && name ≠ "__prepare__") then owner else owner.classOf

/-- The code that a request of an object runs. That of a class is run with a class put first. -/
def codeOf : Entity → Entity
  | member (value (.object o _)) name =>
    if (Member.ofName? name).any classRequests.contains then helper name
    else member (type (.ofOwner o)) name
  | member (codec c) name => member (family (.ofCodec c)) name
  | member (applied f _) name => member (family f) name
  | member _ name => helper name
  | e => e

/-- Code that does not say what it is for. -/
def silentHelpers : List String := ["tag", "min_value", "max_value"]

def hasNotes (e : Entity) : Bool :=
  match e with
  | function _ => false
  | helper name => !silentHelpers.contains name
  | member owner name =>
    let isCode := ["function", "method"].contains (requestKind owner name)
    let isNoted := ["encoded", "decode", "decode_from_buf"].contains name
    !isCode || isNoted && owner.declaredClass?.isSome
  | e => e.kindName ≠ "property" && !silentKinds.contains e.kindName

def callableTrait? (e : Entity) (name : String) : Option Entity :=
  if Kind.hasTrait e.kindName name then
    match name, e with
    | "__name__", member _ name => some (ofText name)
    | "__name__", e | "__qualname__", e => some (ofText (e.name S))
    | "__self__", member owner name => some (owner.addressee name)
    | "__self__", _ => some (module Ambient.members)
    | "__func__", e => some e.codeOf
    | "__objclass__", e => some (kind (requestOwner e))
    | "__module__", common _ => some (ofText "builtins")
    | "__module__", e => some (if e.kindName = "function" then ofText "module" else nothing)
    | "__text_signature__", _ => some (ofText "($self, /)")
    | "__code__", _ => some (other "code" [])
    | "__closure__", _ | "__defaults__", _ | "__kwdefaults__", _ => some nothing
    | _, _ => some emptyMap
  else none
where
  requestOwner : Entity → String
    | member owner name => requestHome S owner name
    | e => e.kindName

/-- What something of a known kind answers to a trait of the kind that is not known to be other. -/
def plainTrait? (kind name : String) : Option Entity :=
  if !Kind.hasTrait kind name then none
  else
    match name with
    | "characters_written" => none
    | "__suppress_context__" | "__isabstractmethod__" => some (ofBool false)
    | "__dict__" => some emptyMap
    | _ => some nothing

/-- The members of an entity that are no requests. -/
def ownTrait? (e : Entity) (name : String) : Option Entity :=
  match e with
  | value (.object owner fields) => objectTrait? S owner fields name
  | value v =>
    match v.trait? name with
    | some w => some (value w)
    | none => plainTrait? e.kindName name
  | bytes (.view origin) bs => viewTrait? origin bs name
  | buffer | bytes _ _ | tuple _ => plainTrait? e.kindName name
  | type c => typeTrait? S c name
  | kind k => kindTrait? k name
  | codec c => codecTrait? S c name
  | family f => familyTrait? f name
  | applied _ parts =>
    match parts.find? (·.1 = name) with
    | some (_, part) => some part
    | none => if name = "__annotations__" then some codecHints else ownedTrait? [] name
  | other k parts =>
    match parts.find? (·.1 = name) with
    | some (_, part) => some part
    | none => plainTrait? k name
  | space members | module members =>
    match members.find? (·.1 = name), name with
    | some (_, m), _ => some m
    | none, "__dict__" => some (value (.map [(.text "__name__", .text "module")]))
    | none, _ => none
  | function _ | common _ | helper _ | member .. => callableTrait? S e name

def trait? (e : Entity) (name : String) : Option Entity :=
  if name = "__class__" then some e.classOf
  else
    match e.ownTrait? S name with
    | some m => some m
    | none =>
      if name = "__doc__" then
        some (if e.hasNotes then ofText e.kindName else nothing)
      else none

/-! ## Members -/

def takes (e : Entity) (name : String) : Bool :=
  match e with
  | type c => hasCode c name || Kind.takes "type" name
  | value (.object owner _) => hasCode (.ofOwner owner) name || Kind.takes "object" name
  | kind k => Kind.takes k name || Kind.takes "type" name
  | family f => f.hasCode name || Kind.takes "type" name
  | codec c => (CodecFamily.ofCodec c).hasCode name || Kind.takes "object" name
  | applied f _ => f.hasCode name || Kind.takes "object" name
  | value (.foreign t) => t.requests.contains name || Kind.takes "object" name
  | e => Kind.takes e.kindName name

def member? (e : Entity) (name : String) : Option Entity :=
  match e.trait? S name with
  | some m => some m
  | none =>
    match e with
    | other "GenericAlias" [("__origin__", kind k)] =>
      if Kind.takes k name then some (member (kind k) name) else none
    | e => if e.takes name then some (member e name) else none

def ask (e : Entity) (name : String) : Except Fault Entity :=
  match e.member? S name with
  | some m => .ok m
  | none => .error .noSuchMember

def walk (e : Entity) : List String → Except Fault Entity
  | [] => .ok e
  | name :: names => do walk (← e.ask S name) names

/-- Whether a chain of members leads from module to module. -/
def hasModule : Entity → List String → Bool
  | module _, [] => true
  | module members, name :: names =>
    match members.find? (·.1 = name) with
    | some (_, m) => m.hasModule names
    | none => false
  | _, _ => false

/-! ## In place of values -/

mutual
/-- An entity where a value is expected. -/
def standing (e : Entity) : Value :=
  match e with
  | value v => v
  | tuple items => .tuple (standings items)
  | e =>
    .foreign ⟨e.text, [numberRequest, textRequest, Member.encodeToBuf.name].filter fun name =>
      (e.member? S name).isSome⟩

def standings : List Entity → List Value
  | [] => []
  | e :: es => standing e :: standings es
end

def field? (e : Entity) (name : String) : Option Value :=
  (e.member? S name).map (standing S)

end Entity

end WireSchema
