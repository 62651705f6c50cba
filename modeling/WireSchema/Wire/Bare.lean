import WireSchema.Wire.Fault

/-!
# Bare types

What the base of all emitted types answers, which has no code for any type of its own: every request
fails, and the fault says which member is missing.
-/

namespace WireSchema

/-- An encoding on its own goes into a buffer, and either way of decoding reads a value. -/
def Member.bareFault : Member → Fault
  | encoded | encodeToBuf => .notEmitted .encodeToBuf
  | decode | decodeFromBuf | decodeValue => .notEmitted .decodeValue
  | encodeFields => .notEmitted .encodeFields
  | decodeFields => .notEmitted .decodeFields
  | default => .noDefault "Record"
  | tag => .noSuchMember

/-- How a codec of no type in particular is shown. -/
def bareCodecText : String := "<Codec codec>"

end WireSchema
