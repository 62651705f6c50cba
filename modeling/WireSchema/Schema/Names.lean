import WireSchema.Schema.Primitive

/-!
# Reserved names

Emitted modules bind names of their own, and every emitted class has members of its own. A schema
may use neither, nor the keywords of the language that modules are emitted in.
-/

namespace WireSchema

def keywords : List String :=
  ["False", "None", "True", "and", "as", "assert", "async", "await", "break", "class", "continue",
    "def", "del", "elif", "else", "except", "finally", "for", "from", "global", "if", "import",
    "in", "is", "lambda", "nonlocal", "not", "or", "pass", "raise", "return", "try", "while",
    "with", "yield"]

/-- Members of every emitted class, and the names its methods give to the object and the class. -/
def memberNames : List String :=
  ["self", "cls", "tag", "default", "encoded", "encode_to_buf", "decode", "decode_from_buf"]

def moduleNames : List String :=
  ["array", "dataclass", "sys", "Path", "Record", "Union", "DecodeError", "apply_pre_decode",
    "apply_post_decode", "pack_fields", "unpack_fields", "ArrayCodec", "ListCodec", "MapCodec",
    "OptionalCodec", "TypeCodec", "BOOL", "STRING", "PACKED_BOOLS", "U8", "U16", "U32", "U64",
    "U128", "I8", "I16", "I32", "I64", "I128", "USIZE", "ISIZE"]

def runtimeNames : List String :=
  ["BOOL", "I8", "I16", "I32", "I64", "I128", "ISIZE", "PACKED_BOOLS", "STRING", "U8", "U16", "U32",
    "U64", "U128", "USIZE", "ArrayCodec", "DecodeError", "ListCodec", "MapCodec", "OptionalCodec",
    "Record", "TypeCodec", "Union", "apply_post_decode", "apply_pre_decode", "pack_fields",
    "unpack_fields"]

/-- No declaration, variant or field can have such a name. -/
def isReservedName (name : String) : Bool :=
  keywords.contains name || name.toList.head? = some '_' || memberNames.contains name

/-- No type can be declared with such a name. -/
def isReservedTypeName (name : String) : Bool :=
  moduleNames.contains name || isPrimitiveName name || (genericArity? name).isSome

end WireSchema
