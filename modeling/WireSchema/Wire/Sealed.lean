import WireSchema.Wire.Entity
import WireSchema.Wire.Hook

/-!
# Where nothing can be written

Input can be read, but it is no buffer, and an encoding that is to go there fails as soon as there
is something to write. What comes first decides how it fails: a number or a count is said not to
fit, and anything else lacks a place to go. Values without any bytes succeed.
-/

namespace WireSchema

namespace Codec

/-- Encodes a value where nothing can be written. -/
def encodeSealed (knows : Value → String → Bool) (declared : Value → Run Unit) :
    Codec → Value → Run Unit
  | .int kind, v => throw (.showing [v] (.notRepresentable v kind.name))
  | .bool, _ | .optional _, _ => throw .noSuchMember
  | .string, v =>
    match v with
    | .text t => count (Text.utf8 t.toList).length
    | v => throw (if knows v textRequest then .wrongKind else .noSuchMember)
  | .packedBools, v => sized packedBools.name 8 v fun _ => throw .noSuchMember
  | .array c n, v =>
    sized (array c n).name n v fun items => items.forM (c.encodeSealed knows declared)
  | .list _, v | .map _ _, v =>
    match v.items? with
    | none => throw .wrongKind
    | some items => count items.length
  | .declared _, v => declared v
where
  count (n : Nat) : Run Unit := throw (.notRepresentable (.int n) IntKind.u64.name)
  sized (name : String) (size : Nat) (v : Value) (k : List Value → Run Unit) : Run Unit :=
    match v.items? with
    | none => throw .wrongKind
    | some items =>
      if items.length = size then k items else throw (.wrongLength name size items.length)

end Codec

namespace Segment

/-- A packed segment asks for the buffer before it asks for its fields. -/
def encodeSealed (knows : Value → String → Bool) (declared : Value → Run Unit)
    (field? : String → Option Value) : Segment → Run Unit
  | packed _ => throw .noSuchMember
  | single field codec =>
    match field? field with
    | some v => codec.encodeSealed knows declared v
    | none => throw .noSuchMember

end Segment

end WireSchema
