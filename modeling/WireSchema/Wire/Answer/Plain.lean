import WireSchema.Wire.Callback
import WireSchema.Wire.Integer
import WireSchema.Wire.Member

/-!
# What most entities answer

The requests that every entity takes, those of classes and numbers, and those of what stands for
members. Whatever is compared or combined with something that it knows nothing of leaves the answer
open.
-/

namespace WireSchema

namespace Entity

variable (S : Layout)

/-- Whether making an entity anew does nothing, whatever it is made of. -/
def isMadeOnce (e : Entity) : Bool :=
  e.kindName ≠ "object" && (Kind.home? e.kindName "__init__").any (·.name = "object")

def isInstance (e class_ : Entity) : Bool :=
  match e.declaredClass?, class_ with
  | some c, type d => (ancestors c).any fun a =>
    match a with
    | type a => a = d
    | _ => false
  | _, kind k => e.isOf k
  | _, _ => false

end Entity

/-- What any entity answers to the requests of the most general kind. -/
def answerOfAny (owner : Entity) (name : String) (args : List Entity) : Run Entity := do
  match name, args with
  | "__init__", [] => return .nothing
  | "__init__", _ => if owner.isMadeOnce then return .nothing else throw .wrongKind
  | "__subclasshook__", _ => return .undecided
  | "__dir__", [] => return .value (.list [.text "__class__"])
  | "__sizeof__", [] => return .ofInt (if owner.declaredClass?.isSome then 24 else 56)
  | "__hash__", [] => return .ofInt 1
  | "__repr__", [] | "__str__", [] => return .ofText (← Run.ofExcept owner.told)
  | "__getstate__", [] =>
    match owner with
    | .value (.object _ (f :: fields)) =>
      return .value (.map ((f :: fields).map fun f => (.text f.1, f.2)))
    | _ => return .nothing
  | "__reduce__", [] =>
    match owner with
    | .value (.object _ _) => return .tuple [owner, owner, owner]
    | _ => throw .wrongKind
  | _, _ => throw .wrongKind

def answerOfClass (owner : Entity) (name : String) (args : List Entity) : Run Entity :=
  match name, args with
  | "__instancecheck__", [e] => return .ofBool (e.isInstance owner)
  | "__or__", [_] | "__ror__", [_] => return .undecided
  | "__prepare__", _ => return .value (.map [])
  | _, _ => throw .wrongKind

/-- What a kind itself answers, for which no data of it is needed. -/
def answerOfKind (kind name : String) (args : List Entity) : Run Entity := do
  match name, args with
  | "__subclasshook__", _ => return .undecided
  | "__prepare__", _ => return .value (.map [])
  | "__class_getitem__", [_] => return .other "GenericAlias" [("__origin__", .kind kind)]
  | "fromkeys", [arg] =>
    match ← arg.bytes? with
    | some bs => return .value (.map (bs.eraseDups.map fun b => (.int b.toNat, .none)))
    | none => throw .wrongKind
  | "from_bytes", [arg] =>
    match ← arg.bytes? with
    | some bs =>
      let n := decodeInt false bs.reverse
      return if kind = "bool" then .ofBool (n ≠ 0) else .ofInt n
    | none => throw .wrongKind
  | _, _ => throw .wrongKind

/-- What a number answers to its requests. Powers can be asked for with a divisor. -/
def answerOfNumber (owner : Entity) (name : String) (args : List Entity) : Run Entity :=
  match args with
  | [_] => if Kind.operations.contains name then return .undecided else throw .wrongKind
  | [_, _] =>
    if (name = "__pow__" || name = "__rpow__") && owner.isOf "int" then return .undecided
    else throw .wrongKind
  | _ => throw .wrongKind

/-! ## Members that stand on their own -/

def answerOfTrait (S : Layout) (parts : List (String × Entity)) (name : String)
    (args : List Entity) : Run Entity := do
  match args.head?, parts.find? (·.1 = "__objclass__"), parts.find? (·.1 = "__name__") with
  | some e, some (_, .kind k), some (_, .value (.text trait)) =>
    if !e.isOf k then throw .wrongKind
    match name, args.length with
    | "__get__", 1 | "__get__", 2 => Run.ofExcept (e.ask S trait)
    | "__set__", 2 | "__delete__", 1 => throw .noSuchMember
    | _, _ => throw .wrongKind
  | _, _, _ => throw .wrongKind

def answerOfRequest (owner : Entity) (name : String) (args : List Entity) : Run Entity :=
  match owner, name, args with
  | .member (.kind k) request, "__get__", e :: rest => ofKind k request e rest
  | .member _ request, "__get__", e :: rest => ofKind "object" request e rest
  | _, _, _ => throw .wrongKind
where
  ofKind (k request : String) (e : Entity) (rest : List Entity) : Run Entity :=
    match Kind.home? k request with
    | some home =>
      if e.isOf home.name && rest.length ≤ 1 then return .member e request else throw .wrongKind
    | none => throw .wrongKind

def answerOfProperty (run : Entity → List Entity → Run Entity) (parts : List (String × Entity))
    (name : String) (args : List Entity) : Run Entity :=
  match name, args with
  | "__get__", [e] | "__get__", [e, _] =>
    match parts.find? (·.1 = "fget") with
    | some (_, f) => run f [e]
    | none => throw .noSuchMember
  | "__delete__", [_] | "__set__", [_, _] => throw .noSuchMember
  | "__set_name__", [_, _] => return .nothing
  | "getter", [_] | "setter", [_] | "deleter", [_] => return .other "property" parts
  | "__init__", args => if args.length ≤ 4 then return .nothing else throw .wrongKind
  | _, _ => throw .wrongKind

end WireSchema
