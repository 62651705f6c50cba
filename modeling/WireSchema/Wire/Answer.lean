import WireSchema.Wire.Ambient
import WireSchema.Wire.Answer.Bytes
import WireSchema.Wire.Answer.Collection
import WireSchema.Wire.Answer.Plain
import WireSchema.Wire.Answer.Text

/-!
# What entities answer

An entity answers to a request by the kind that the request comes from. A class passes the requests of
its objects on: the first thing that it is asked with has to be of the kind that takes the request, and
answers in its place. What a class is asked for beside that, it answers itself.
-/

namespace WireSchema

variable (S : Layout) (run : Entity → List Entity → Run Entity)

def answerOfCallable (owner : Entity) (name : String) (args : List Entity) : Run Entity :=
  match name, args with
  | "__call__", args => run owner args
  | "__get__", [_] | "__get__", [_, _] =>
    if owner.kindName = "function" then return .other "method" []
    else answerOfRequest owner name args
  | _, _ => throw .wrongKind

def answerBy (kind : String) (owner : Entity) (name : String) (args : List Entity) :
    Run Entity := do
  if Kind.orderings.contains name && args.length = 1 then
    if kind = "mappingproxy" && name ≠ "__eq__" && name ≠ "__ne__" then throw .wrongKind
    return .undecided
  match kind, owner with
  | "object", _ => answerOfAny owner name args
  | "type", _ => if name = "__call__" then run owner args else answerOfClass owner name args
  | "memoryview", _ =>
    match ← owner.view? with
    | some view => answerOfView view name args
    | none => throw .wrongKind
  | "bytes", _ | "bytearray", _ => answerOfBytes owner name args
  | _, .value (.text t) => answerOfText S t name args
  | _, .value (.list items) => answerOfList S items name args
  | _, .tuple items => answerOfTuple S items name args
  | _, .value (.map entries) => answerOfMap entries name args
  | "mappingproxy", _ => answerOfMapView name args
  | "property", .other _ parts => answerOfProperty run parts name args
  | "getset_descriptor", .other _ parts => answerOfTrait S parts name args
  | kind, _ =>
    if ["int", "bool", "float", "complex"].contains kind then answerOfNumber owner name args
    else answerOfCallable run owner name args

def answerOfMember (home : Kind) (name : String) (args : List Entity) : Run Entity :=
  match args with
  | e :: rest => if e.isOf home.name then answerBy S run home.name e name rest else throw .wrongKind
  | [] => throw .wrongKind

def answerOfObjects (kind : String) (owner : Entity) (name : String) (args : List Entity) :
    Run Entity :=
  if Kind.ofTheKind.contains name then answerOfKind kind name args
  else
    match Kind.home? kind name with
    | some home => answerOfMember S run home name args
    | none => answerBy S run "type" owner name args

def answerOf (owner : Entity) (name : String) (args : List Entity) : Run Entity :=
  match owner with
  | .kind k => answerOfObjects S run k owner name args
  | .type _ | .family _ => answerOfObjects S run "object" owner name args
  | owner =>
    if Kind.ofTheKind.contains name then answerOfKind owner.kindName name args
    else
      match Kind.home? owner.kindName name with
      | some home => answerBy S run home.name owner name args
      | none => throw .noSuchMember

end WireSchema
