import WireSchema.Text.Numeral
import WireSchema.Wire.Callback
import WireSchema.Wire.Member

/-!
# Running names known everywhere

Of a kind something is made when it is run, and a function mostly takes only bytes. Either is offered
what a hook is offered and does not fit most of it.
-/

namespace WireSchema.Ambient

/-! ## Kinds -/

def faultParts (kind : String) (args : List Entity) : List (String × Entity) :=
  let first := args.headD .nothing
  ("args", .tuple args) ::
    if Kind.isA kind "ImportError" then
      [("msg", if args.length = 1 then first else .nothing)]
    else if Kind.isA kind "SyntaxError" then [("msg", first)]
    else if Kind.isA kind "StopIteration" then [("value", first)]
    else if Kind.isA kind "SystemExit" then
      [("code", if args.length = 1 then first else .tuple args)]
    else []

/-- Faults that are raised over certain things only. -/
def choosyFaults : List String :=
  ["BaseExceptionGroup", "ExceptionGroup", "UnicodeDecodeError", "UnicodeEncodeError",
    "UnicodeTranslateError"]

def isTrue (e : Entity) : Run Bool := do
  match e, ← e.bytes? with
  | _, some bs => return !bs.isEmpty
  | .value v, none => return v.truthy
  | .tuple items, none => return !items.isEmpty
  | _, none => return true

def makeOfBytes (kind : String) (e : Entity) (bs : List UInt8) : Run Entity := do
  match kind with
  | "bytes" => return .bytes .fixed bs
  | "bytearray" => return .bytes .array bs
  | "memoryview" =>
    match ← e.view? with
    | some view => return .ofView view
    | none => throw .wrongKind
  | "int" =>
    match Text.integer? (Text.ofBytes bs) with
    | some n => return .ofInt n
    | none => throw .unfit
  | "float" => if Text.isNumeral (Text.ofBytes bs) then return anyOf kind else throw .unfit
  | "list" => return .value (.list (bs.map fun b => .int b.toNat))
  | "tuple" => return .tuple (bs.map fun b => .ofInt b.toNat)
  | "dict" => if bs.isEmpty then return .value (.map []) else throw .wrongKind
  | "set" | "frozenset" | "enumerate" | "zip" | "reversed" => return anyOf kind
  | "mappingproxy" => if e.isOf "bytes" then throw .wrongKind else return anyOf kind
  | _ => throw .wrongKind

def makeOfOne (kind : String) (e : Entity) : Run Entity := do
  match kind, ← e.bytes? with
  | "type", _ => return e.classOf
  | "bool", _ => return .ofBool (← isTrue e)
  | "str", _ => return .ofText (← Run.ofExcept e.told)
  | "slice", _ => return .other kind [("stop", e)]
  | "classmethod", _ | "staticmethod", _ => return .other kind [("__func__", e), ("__wrapped__", e)]
  | kind, some bs => makeOfBytes kind e bs
  | _, none => throw .wrongKind

/-- What is offered first cannot be run, so that nothing comes of applying it to the bytes offered
second unless there are none. -/
def applied (data : Entity) : Run Entity := do
  throw (if (← data.bytes?) = some [] then .unfit else .wrongKind)

def make (kind : String) (args : List Entity) : Run Entity :=
  if Kind.isFault kind then
    if choosyFaults.contains kind then throw .wrongKind
    else return .other kind (faultParts kind args)
  else
    match kind, args with
    | "property", args =>
      if args.length ≤ 4 then return .other kind (["fget", "fset", "fdel", "__doc__"].zip args)
      else throw .wrongKind
    | "slice", [first, second] => return .other kind [("start", first), ("stop", second)]
    | "map", [_, data] | "filter", [_, data] => applied data
    | kind, [e] => makeOfOne kind e
    | _, _ => throw .wrongKind

/-! ## Functions -/

def onBytes (name : String) (f : List UInt8 → Except Fault Entity) : Callback :=
  .onOne name fun e => do
    match ← e.bytes? with
    | some bs => Run.ofExcept (f bs)
    | none => throw .wrongKind

def fieldsOf : Entity → Run Entity
  | .value (.object _ fields) => return .value (.map (fields.map fun f => (.text f.1, f.2)))
  | _ => throw .wrongKind

/-- What can be changed has no digest. -/
def digestOf : Entity → Run Entity
  | .buffer | .bytes .array _ | .bytes .lent _ => throw .wrongKind
  | .bytes (.view origin) _ => if origin.isArray then throw .unfit else return .ofInt 0
  | .value v => if v.isKey then return .ofInt 0 else throw .wrongKind
  | _ => return .ofInt 0

/-- Only a single byte has a code, and a view is no byte. -/
def codeOf (e : Entity) : Run Entity := do
  match e.isOf "memoryview", ← e.bytes? with
  | false, some [b] => return .ofInt b.toNat
  | _, _ => throw .wrongKind

def tolerant : List Callback :=
  ["ascii", "format", "repr"].map (.onOne · fun e => return .ofText (← Run.ofExcept e.told)) ++
    [.onOne "callable" fun _ => return .ofBool false, .onOne "id" fun _ => return .ofInt 1,
      .onOne "dir" fun _ => return .value (.list [.text "__class__"]),
      .onOne "hash" digestOf, .onOne "ord" codeOf, .onOne "vars" fieldsOf]

def gathering : List Callback :=
  [onBytes "len" fun bs => .ok (.ofInt bs.length), onBytes "sum" fun _ => .ok (.ofInt 0),
    onBytes "sorted" fun _ => .ok (.value (.list [])), onBytes "iter" fun _ => .ok (anyOf "object")] ++
    ["any", "all"].map (onBytes · fun _ => .ok (.ofBool true))

/-- Functions that choose among bytes, of which there has to be one. -/
def choosing : List Callback :=
  ["max", "min"].map (onBytes · fun bs => if bs.isEmpty then .error .unfit else .ok (.ofInt 0))

def functions : List Callback :=
  tolerant ++ gathering ++ choosing ++ [⟨"print", fun _ => return .nothing⟩]

def runFunction (name : String) (args : List Entity) : Run Entity :=
  match functions.find? (·.name = name) with
  | some f => f.run args
  | none => throw .wrongKind

end WireSchema.Ambient
