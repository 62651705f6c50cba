import WireSchema.Emit.Module
import WireSchema.Wire.Callback
import WireSchema.Wire.Member

/-!
# What hook paths mean

A path that names a module imports it, and every path is then looked up like any dotted name in the
emitted module: first among the parameters and the locals of the method that runs the hook, then
among the names that the module binds itself, then among the modules imported by any hook, and last
among the names known everywhere. The first part of a name decides which it is; the other parts are
members.

A local that is assigned anywhere in a method is a name of the method from its start, though nothing
is bound to it before. In the code of a class, names that start with two low lines belong to the class
and stand for names with that of the class in front.
-/

namespace WireSchema

def dottedParts (name : String) : List String :=
  (Text.segments '.' (withoutFinalNewline name.toList)).map String.ofList

/-- A path with a line feed at its end puts the call on a line of its own, so that the line before
it only mentions the hook. -/
def isMention (path : String) : Bool := path.toList.getLast? = some '\n'

/-- A name as it stands for another in the code of a class. -/
def privateName (home name : String) : String :=
  let bare := home.toList.dropWhile (· = '_')
  if name.startsWith "__" && !name.endsWith "__" && !bare.isEmpty then
    "_" ++ String.ofList bare ++ name
  else name

/-! ## Names of a method -/

/-- Where a hook runs, with what is known there. The class whose code it is belongs to that. -/
inductive Scene where
  /-- Before a value is encoded. -/
  | opening (home : String) (v : Value)
  /-- After a value or its stand-in, if there was a hook to give one, was encoded. -/
  | closing (home : String) (v : Value) (standin? : Option Entity)
  /-- Before a type is decoded. -/
  | entering (type : String)
  /-- After these fields of a value of the type were read. -/
  | leaving (type : String) (read : List (String × Value)) (v : Value)

namespace Scene

variable (S : Layout)

def home : Scene → String
  | opening home _ | closing home _ _ => home
  | entering type | leaving type _ _ => ((S.declaration? type).map Declaration.name).getD type

/-- The locals that decoding a type assigns. -/
def localsOf (type : String) : List String :=
  match S.declaration? type with
  | some (.record r) => r.wireFields.map fun f => localName f.ident
  | some (.union _) => ["_tag", "_variant", "_value"]
  | none => []

def assigned (read : List (String × Value)) (v : Value) : List (String × Entity) :=
  match v with
  | .object (.variant union name) _ =>
    [("_variant", .type (.variant union name)), ("_value", .value v)] ++
      ((Entity.classPart? S (.variant union name) "_tag").map fun e => ("_tag", e)).toList
  | _ => read.map fun f => (localName f.1, .value f.2)

/-- The parameters and the locals of the method that a hook runs in, whose buffer or input is `data`,
with what they are bound to if they are. -/
def locals (data : Entity) : Scene → List (String × Option Entity)
  | opening _ v => [("self", some (.value v)), ("_buf", some data), ("_self", none)]
  | closing _ v standin? =>
    [("self", some (.value v)), ("_buf", some data)] ++
      (standin?.map fun w => ("_self", some w)).toList
  | entering type =>
    ("_data", some data) :: ("cls", (S.class? type).map Entity.type) ::
      (localsOf S type).map fun name => (name, none)
  | leaving type read v =>
    ("_data", some data) :: ("cls", (S.class? type).map Entity.type) ::
      (assigned S read v).map fun f => (f.1, some f.2)

def names (data : Entity) (scene : Scene) : List (String × Option Entity) :=
  ("__class__", (S.class? (scene.home S)).map Entity.type) :: scene.locals S data

end Scene

/-! ## Names of a module -/

/-- The names of values. They are words of the language of the module. -/
def constant? : String → Option Value
  | "None" => some .none
  | "True" => some (.bool true)
  | "False" => some (.bool false)
  | _ => none

/-- Whether a path can be read as an expression. A keyword is no name, but the name of a value can
stand at the front of a path that names no module. No module can have the name that tells whether
emitted code is checked. -/
def isReadable (path : String) : Bool :=
  match dottedParts (hookExpression path) with
  | [] => false
  | first :: parts =>
    let isPlain := (splitHookPath path).1.isNone
    (isPlain && (constant? first).isSome || !keywords.contains first) &&
      (isPlain || first ≠ "__debug__") && parts.all (!keywords.contains ·)

/-- What the names denote that an emitted module takes from the runtime and from elsewhere. -/
def importedEntity? (name : String) : Option Entity :=
  match Primitive.all.find? (·.codecName = name), CodecFamily.imported.find? (·.className = name) with
  | some p, _ => some (.codec (.ofPrimitive p))
  | none, some f => some (.family f)
  | none, none =>
    match name with
    | "PACKED_BOOLS" => some (.codec .packedBools)
    | "Record" => some (.type .bareRecord)
    | "Union" => some (.type .bareUnion)
    | "DecodeError" => some (.kind name)
    | "annotations" =>
      some (.other "object" [("getOptionalRelease", .helper "getOptionalRelease"),
        ("getMandatoryRelease", .helper "getMandatoryRelease"), ("optional", .tuple []),
        ("mandatory", .nothing), ("compiler_flag", .ofInt 1), ("__module__", .ofText name),
        ("__weakref__", .nothing), ("__dict__", .value (.map []))])
    | name =>
      if runtimeNames.contains name || name = "dataclass" then some (.helper name) else none

namespace Layout

variable (S : Layout)

def variantClass? (name : String) : Option ClassName :=
  S.unions.findSome? fun u =>
    (u.variants.zipIdx.find? fun v => VariantLayout.className u.name v.2 = name).map fun v =>
      .variant u.name v.1.name

def entryCodec? (name : String) : Option Codec :=
  ((CodecTable.ofLayout S).zipIdx.find? fun e => CodecTable.entryName e.2 = name).map (·.1.codec)

def isReadable : Bool :=
  (S.typeAttributes.flatMap TypeAttributes.hooks).all fun path => WireSchema.isReadable path

def entity? (name : String) : Option Entity :=
  if let some v := constant? name then some (.value v)
  else if let some c := S.entryCodec? name then some (.codec c)
  else if (S.record? name).isSome then some (.type (.record name))
  else if (S.union? name).isSome then some (.type (.union name))
  else if let some c := S.variantClass? name then some (.type c)
  else importedEntity? name

end Layout

/-! ## Names around a module -/

/-- The caller's modules, the names of the caller's that are known everywhere, and the callbacks that
these denote. The language knows more names. -/
structure Surroundings where
  modules : List (String × Entity)
  names : List (String × Entity)
  callbacks : List Callback

namespace Surroundings

variable (E : Surroundings) (S : Layout)

def hasModule (name : String) : Bool :=
  match dottedParts name with
  | [] => false
  | first :: parts =>
    match E.modules.find? (·.1 = first) with
    | some (_, e) => e.hasModule parts
    | none => false

def canImport : Bool := S.hookModules.all E.hasModule

def root? (name : String) : Option Entity :=
  match S.entity? name with
  | some e => some e
  | none =>
    let imported := S.hookModules.any fun m => (dottedParts m).head? = some name
    ((if imported then E.modules else E.names ++ Ambient.entities).find? (·.1 = name)).map Prod.snd

def front (scene : Scene) (data : Entity) (name : String) : Except Fault Entity :=
  match (scene.names S data).find? (·.1 = name) with
  | some (_, some e) => .ok e
  | some (_, none) => .error .unassignedName
  | none =>
    match E.root? S name with
    | some e => .ok e
    | none => .error .unboundName

def pathNames (home path : String) : List String :=
  (dottedParts (hookExpression path)).map (privateName home)

def denotation (scene : Scene) (data : Entity) (path : String) : Except Fault Entity :=
  match pathNames (scene.home S) path with
  | [] => .error .unboundName
  | first :: names => do (← E.front S scene data first).walk S names

end Surroundings

end WireSchema
