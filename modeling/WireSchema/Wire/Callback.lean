import WireSchema.Wire.Hook

/-!
# Callbacks

Hooks of the caller's. A callback can be run with anything and mostly expects one thing: an object,
the buffer, the input, or a decoded value with the input behind it. What it is run with beside that
lacks what it looks for.
-/

namespace WireSchema

namespace Entity

def bytes? : Entity → Run (Option (List UInt8))
  | buffer => return some (← get).bytes.toList
  | bytes _ bs => return some bs
  | _ => return none

def view? (e : Entity) : Run (Option View) := do
  match e, ← e.bytes? with
  | bytes (.view origin) bs, _ => return some ⟨bs, origin⟩
  | bytes .fixed bs, _ => return some (.ofOrigin { bytes := bs })
  | _, some bs => return some (.ofOrigin { bytes := bs, isArray := true })
  | _, none => return none

def ofView (view : View) : Entity := bytes (.view view.origin) view.bytes

/-- Bytes of the same kind that come from these. What is taken out of an array is another one. -/
def derived (e : Entity) (bs : List UInt8) : Entity :=
  match e with
  | bytes .fixed _ => bytes .fixed bs
  | bytes (.view origin) _ => bytes (.view origin) bs
  | _ => bytes .array bs

end Entity

structure Callback where
  name : String
  run : List Entity → Run Entity

namespace Callback

def onOne (name : String) (f : Entity → Run Entity) : Callback where
  name
  run
    | [e] => f e
    | _ => throw .wrongKind

/-- Gives back whatever it is offered on its own. -/
def identity (name : String) : Callback := onOne name pure

/-- Takes whatever it is offered on its own, and gives nothing back. -/
def refusal (name : String) : Callback := onOne name fun _ => return .nothing

/-- Made for objects. What is not an object lacks the members that it looks for. -/
def onObject (name : String) (f : Value → Except Fault Value) : Callback :=
  onOne name fun e =>
    match e with
    | .value v => do return .value (← Run.ofExcept (f v))
    | _ => throw .noSuchMember

/-- Made for the buffer, which is asked for a change. Another array can be changed as well, but
nobody sees that. -/
def onBuffer (name request : String) (f : Array UInt8 → Array UInt8) : Callback :=
  onOne name fun e =>
    match e with
    | .buffer => do
      modify fun s => { s with bytes := f s.bytes }
      return .nothing
    | .bytes .array _ => return .nothing
    | .value v => throw (if v.knows request then .wrongKind else .noSuchMember)
    | _ => throw .noSuchMember

/-- Made for the input. It can read any bytes. -/
def onInput (name : String) (f : List UInt8 → Option (List UInt8)) : Callback :=
  onOne name fun e => do
    match ← e.bytes? with
    | some bs => return (f bs).elim .nothing e.derived
    | none => throw .wrongKind

/-- Made for a decoded value and the input behind it. -/
def onDecoded (name : String) (f : Value → Entity → Except Fault (Option (Value × Entity))) :
    Callback where
  name
  run
    | [.value v, data] => do
      match ← Run.ofExcept (f v data) with
      | some (w, rest) => return .tuple [.value w, rest]
      | none => return .nothing
    | _ => throw .wrongKind

end Callback

end WireSchema
