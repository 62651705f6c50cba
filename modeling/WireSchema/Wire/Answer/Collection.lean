import WireSchema.Wire.Callback
import WireSchema.Wire.Member

/-!
# What lists and maps answer

Anything can be put into a list or looked for in it, and bytes are gone through as numbers. A map is
asked by keys, and only input that cannot be changed is a key among the things that are offered; no
map has it.
-/

namespace WireSchema

def numbersOf (bs : List UInt8) : List Value := bs.map fun b => .int b.toNat

namespace Entity

def items? (e : Entity) (S : Layout) : Run (Option (List Value)) := do
  match e, ← e.bytes? with
  | _, some bs => return some (numbersOf bs)
  | tuple items, none => return some (items.map (standing S))
  | value v, none => return v.items?
  | _, none => return none

/-- The items of a list once it has been asked for a change. Nothing else is changed by its requests
unless it fails. -/
def changedItems? (S : Layout) (items : List Value) (name : String) (arg : Entity) :
    Run (Option (List Value)) := do
  match name, ← arg.items? S with
  | "append", _ => return some (items ++ [arg.standing S])
  | "extend", some more | "__iadd__", some more => return some (items ++ more)
  | "__init__", some more => return some more
  | _, _ => return none

/-- Why an entity is no key. -/
def keyFault? : Entity → Option Fault
  | bytes (.view origin) _ => if origin.isArray then some .unfit else none
  | bytes .fixed _ => none
  | _ => some .wrongKind

end Entity

def searchItems (items : List Value) (name : String) (v : Value) : Run Entity :=
  match name with
  | "__contains__" => return .ofBool (items.any v.same)
  | "count" => return .ofInt (items.countP v.same)
  | "index" => if items.any v.same then return .ofInt (items.findIdx v.same) else throw .unfit
  | _ => throw .wrongKind

def answerOfList (S : Layout) (items : List Value) (name : String) (args : List Entity) :
    Run Entity := do
  match args with
  | [arg] =>
    match name, ← Entity.changedItems? S items name arg with
    | "__iadd__", some items => return .value (.list items)
    | _, some _ => return .nothing
    | "remove", none =>
      if items.any (arg.standing S).same then return .nothing else throw .unfit
    | name, none => searchItems items name (arg.standing S)
  | _ => throw .wrongKind

def answerOfTuple (S : Layout) (items : List Entity) (name : String) (args : List Entity) :
    Run Entity :=
  match args with
  | [arg] => searchItems (items.map (Entity.standing S)) name (arg.standing S)
  | _ => throw .wrongKind

/-- What a map answers if it is asked for a key that it does not have. -/
def withoutKey? (name : String) : Option (Except Fault Entity) :=
  match name with
  | "get" | "setdefault" => some (.ok .nothing)
  | "__contains__" => some (.ok (.ofBool false))
  | "__getitem__" | "__delitem__" | "pop" => some (.error .noSuchKey)
  | _ => none

/-- What a map answers if it is asked with something that is no key of it. -/
def answerToKey (name : String) (arg : Entity) : Except Fault Entity :=
  match withoutKey? name, arg.keyFault? with
  | some answer, none => answer
  | some _, some f => .error f
  | none, _ => .error .wrongKind

/-- Requests that take entries into a map. Bytes have none, and they can only be taken in if they are
empty. -/
private def mapExtensions : List String := ["update", "__init__", "__ior__"]

/-- What a map answers to its requests. Nothing is looked up in one that is empty before something is
taken out of it. -/
def answerOfMap (entries : List (Value × Value)) (name : String) (args : List Entity) :
    Run Entity := do
  match args with
  | [arg] =>
    if name = "pop" && entries.isEmpty then throw .noSuchKey
    if name = "__or__" || name = "__ror__" then return .undecided
    match mapExtensions.contains name, name, ← arg.bytes? with
    | true, "__ior__", some [] => return .value (.map entries)
    | true, _, some [] => return .nothing
    | true, _, _ => throw .wrongKind
    | false, name, _ => Run.ofExcept (answerToKey name arg)
  | [_, other] => if name = "pop" && entries.isEmpty then return other else throw .wrongKind
  | _ => throw .wrongKind

def answerOfMapView (name : String) (args : List Entity) : Run Entity :=
  match args with
  | [arg] => Run.ofExcept (answerToKey name arg)
  | _ => throw .wrongKind

end WireSchema
