import WireSchema.Emit.Hook
import WireSchema.Wire.Call
import WireSchema.Wire.Typed

/-!
# Hooks as functions

The hooks of a declared type are meant as functions: of the value that is encoded, of the bytes in the
buffer, of the input, and of a decoded value and what remains behind it. A path need not come to the
function that is meant by it. With a line feed at its end the path of a hook for encoding is only
mentioned, and its first part can be the name of something else.
-/

namespace WireSchema

/-- Where there is no hook, the identity is meant. -/
structure HookFunctions where
  preEncode : Value → Value
  postEncode : List UInt8 → List UInt8
  /-- Some input is refused. -/
  preDecode : List UInt8 → Option (List UInt8)
  postDecode : Value → List UInt8 → Option (Value × List UInt8)

/-- Functions that undo one another on the values of a type, as far as these are written. -/
structure HookFunctions.Inverse (F : HookFunctions) (S : Layout) (type : String) : Prop where
  typed : ∀ v, S.HasType maxEmptyItems (.declared type) v →
    S.HasType maxEmptyItems (.declared type) (F.preEncode v)
  preDecode_postEncode : ∀ bs, F.preDecode (F.postEncode bs) = some bs
  postDecode_preEncode : ∀ v, S.HasType maxEmptyItems (.declared type) v → ∀ rest,
    F.postDecode (S.reset (F.preEncode v)) rest = some (S.reset v, rest)

namespace Surroundings

variable (E : Surroundings) (S : Layout)

/-- Runs what the path of a hook denotes. -/
def call (scene : Scene) (data : Entity) (path : String) (args : List Entity) : Run Entity := do
  E.runAt S hookAllowance (← E.find S scene data path) args

/-- The hooks of a declaration come to these functions where they run. Those for encoding are run, not
mentioned, and what they are run with is a value of the type or the buffer. Each can log anything. -/
structure Realizes (d : Declaration) (F : HookFunctions) : Prop where
  preEncode : ∀ v, S.HasType maxEmptyItems (.declared d.name) v →
    match d.attributes.preEncode with
    | none => F.preEncode v = v
    | some path => isMention path = false ∧ ∀ s, ∃ t,
      E.call S (.opening d.name v) .buffer path [.value v] s = (.ok (.value (F.preEncode v)), t) ∧
        t.bytes = s.bytes
  postEncode : ∀ v, S.HasType maxEmptyItems (.declared d.name) v →
    match d.attributes.postEncode with
    | none => ∀ bs, F.postEncode bs = bs
    | some path =>
      let standin? := d.attributes.preEncode.map fun _ => Entity.value (F.preEncode v)
      isMention path = false ∧ ∀ s, ∃ result t,
        E.call S (.closing d.name v standin?) .buffer path [.buffer] s = (.ok result, t) ∧
          t.bytes.toList = F.postEncode s.bytes.toList
  preDecode : ∀ view bs, F.preDecode view.bytes = some bs →
    match d.attributes.preDecode with
    | none => bs = view.bytes
    | some path => ∀ s, ∃ kind t,
      E.call S (.entering d.name) (.ofView view) path [.ofView view] s = (.ok (.bytes kind bs), t)
  postDecode : ∀ read v w view rest, d.Decodes read v → F.postDecode v view.bytes = some (w, rest) →
    match d.attributes.postDecode with
    | none => w = v ∧ rest = view.bytes
    | some path => ∀ s, ∃ kind t,
      E.call S (.leaving d.name read v) (.ofView view) path [.value v, .ofView view] s =
        (.ok (.tuple [.value w, .bytes kind rest]), t)

end Surroundings

end WireSchema
