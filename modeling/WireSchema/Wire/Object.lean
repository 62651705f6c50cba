import WireSchema.Wire.Declared
import WireSchema.Wire.Makeable

/-!
# Objects

Building values of declared types, and coding them as a caller does: an encoding is a byte string of
its own or goes behind a buffer, and a failed decoding is told apart from a caller's mistake by
whether the fault lies in the input.
-/

namespace WireSchema

namespace Layout

variable (S : Layout)

/-- The default that a dataclass takes for a field of this name, if there is one: the method of its
class that has the name. -/
def defaultOfName? (name : String) : Option Value :=
  if name = mroName then some (.foreign ⟨"<built-in method " ++ name ++ ">", []⟩) else none

/-- The object with the given fields, which must be among those declared. -/
def construct (owner : Owner) (fields : List (String × Value)) : Except Fault Value :=
  match S.fieldNames? owner with
  | none => .error .noSuchMember
  | some names =>
    match names.mapM fun n =>
      (fields.find? (·.1 = n)).or ((defaultOfName? n).map fun v => (n, v)) with
    | some all =>
      if fields.all fun f => names.contains f.1 then .ok (.object owner all)
      else .error .wrongKind
    | none => .error .wrongKind

def tag : Value → Except Fault Nat
  | .object (.variant union name) _ =>
    match S.variant? union name with
    | some (_, v) => .ok v.tag
    | none => .error .noSuchMember
  | _ => .error .noSuchMember

/-- The default that a caller asks for. Only records have any. -/
def defaultOf (name : String) : Except Fault Value :=
  match S.default? name with
  | some v => if S.fillsAt S.builtins S.records.length name then .ok v else .error .wrongKind
  | none => .error (if (S.record? name).isSome then .noDefault name else .noSuchMember)

variable (H : Hooks)

def encoded (v : Value) : Except (Fault × Sink) Sink := S.encode H v {}

def decodeFrom (name : String) (bytes : List UInt8) : Except Halt (Value × Source) :=
  S.decode H name (.ofOrigin { bytes })

def decodeArray (name : String) (bytes : List UInt8) : Except Halt (Value × Source) :=
  S.decode H name (.ofOrigin { bytes, isArray := true })

/-- What every proper part from the front of a byte string decodes to, the shortest part first. -/
def decodeTruncated (name : String) (bytes : List UInt8) : List (Except Halt (Value × Source)) :=
  (List.range bytes.length).map fun n => S.decodeFrom H name (bytes.take n)

end Layout

/-- The value that is left of one once all logged changes are made to it. A change is that of the first
part that can have been changed. -/
def Event.settle (log : List Event) (v : Value) : Value :=
  log.foldl (fun v e => match e with
    | changed old new => (Value.replaced? old new v).getD v
    | _ => v) v

/-- The messages of a decoding that failed by a fault of its input, and of decodings that failed in its
course. -/
def Halt.messages (type : String) (h : Halt) : List String :=
  (h.log ++ [Event.failed type h.fault]).filterMap Event.message?

end WireSchema
