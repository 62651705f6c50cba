import WireSchema.Emit.Expression

/-!
# Emitted statements

The bodies of emitted methods, one statement for each step, and their text. A method's parameters
and locals all start with an underscore, but for the object and the class.
-/

namespace WireSchema

/-- How the value of a field is given when an object is built: as read, or as the default of its
type. -/
inductive FieldValue where
  | read
  | default (codec : Codec)
deriving DecidableEq, Repr

inductive Statement where
  | pass
  | replaceSelf (hook : String)
  | pack (object : String) (fields : List (String × Slot))
  | encodeDeclared (object field type : String)
  | encodeBy (codec object field : String)
  | appendTag (object : String)
  | appendFields (object : String)
  | finishBuffer (hook : String)
  | openInput (hook : String)
  | unpack (fields : List (String × Slot))
  | decodeDeclared (type field : String)
  | decodeBy (codec field : String)
  | readTag (codec : String)
  | findVariant
  | refuseTag (union : String)
  | readFields
  | returnObject (fields : List (String × FieldValue)) (hook : Option String)
  | returnValue (hook : Option String)
deriving DecidableEq, Repr

def localName (field : String) : String := "_f_" ++ field

namespace FieldValue

def expression (field : String) : FieldValue → String
  | read => localName field
  | default codec => codec.defaultExpression

end FieldValue

namespace Statement

private def commas (ss : List String) : String := ", ".intercalate ss

private def targets : List String → String
  | [s] => s ++ ","
  | ss => commas ss

private def returned (value : String) : Option String → String
  | some hook => "return apply_post_decode(" ++ hook ++ ", " ++ value ++ ", _data)"
  | none => "return " ++ value ++ ", _data"

def construction (fields : List (String × FieldValue)) : String :=
  "cls(" ++ commas (fields.map fun f => f.1 ++ "=" ++ f.2.expression f.1) ++ ")"

def lines : Statement → List String
  | pass => ["pass"]
  | replaceSelf hook => ["_self = " ++ hook ++ "(self)"]
  | pack object fields =>
    ["_buf.extend(pack_fields(\"" ++ Format.text (fields.map Prod.snd) ++ "\", "
      ++ commas (fields.map fun f => object ++ "." ++ f.1) ++ "))"]
  | encodeDeclared object field _ => [object ++ "." ++ field ++ ".encode_to_buf(_buf)"]
  | encodeBy codec object field => [codec ++ ".encode(" ++ object ++ "." ++ field ++ ", _buf)"]
  | appendTag object => ["_buf.extend(" ++ object ++ "._tag_bytes)"]
  | appendFields object => [object ++ "._encode_fields(_buf)"]
  | finishBuffer hook => [hook ++ "(_buf)"]
  | openInput hook => ["_data = apply_pre_decode(" ++ hook ++ ", _data)"]
  | unpack fields =>
    ["(" ++ targets (fields.map fun f => localName f.1) ++ "), _data = unpack_fields(\""
      ++ Format.text (fields.map Prod.snd) ++ "\", "
      ++ toString (Format.size (fields.map Prod.snd)) ++ ", _data)"]
  | decodeDeclared type field => [localName field ++ ", _data = " ++ type ++ "._decode(_data)"]
  | decodeBy codec field => [localName field ++ ", _data = " ++ codec ++ ".decode(_data)"]
  | readTag codec => ["_tag, _data = " ++ codec ++ ".decode(_data)"]
  | findVariant => ["_variant = cls._variants.get(_tag)"]
  | refuseTag union =>
    ["if _variant is None:",
      "    raise DecodeError(f\"Unknown tag \x7b_tag\x7d for " ++ union ++ "\")"]
  | readFields => ["_value, _data = _variant._decode_fields(_data)"]
  | returnObject fields hook => [returned (construction fields) hook]
  | returnValue hook => [returned "_value" hook]

/-- The text of a body. A body of no statements still needs one. -/
def bodyText (body : List Statement) : String :=
  "\n".intercalate ((if body.isEmpty then [pass] else body).flatMap lines)

end Statement

end WireSchema
