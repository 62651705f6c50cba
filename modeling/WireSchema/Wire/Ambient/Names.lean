import WireSchema.Wire.Entity

/-!
# Names known everywhere

The language of emitted modules knows some names in every module, and the path of a hook can lead to
one. Such a name denotes a kind, or a function, or some constant.
-/

namespace WireSchema.Ambient

/-- Something of a kind of which no more is known. -/
def anyOf (kind : String) : Entity := .other kind []

/-- Kinds that have no names of their own. -/
def nameless : List String :=
  ["NoneType", "NotImplementedType", "ellipsis", "mappingproxy", "function", "method",
    "builtin_function_or_method", "method-wrapper", "method_descriptor", "getset_descriptor",
    "module", "SerializationError", "DecodeError"]

/-- The kinds by their names. Faults of input and output have two more. -/
def kinds : List (String × Entity) :=
  ((Kind.all.map Kind.name).filter fun name => !nameless.contains name).map
      (fun name => (name, .kind name)) ++
    ["EnvironmentError", "IOError"].map fun name => (name, .kind "OSError")

def functionNames : List String :=
  ["__build_class__", "__import__", "abs", "aiter", "all", "anext", "any", "ascii", "bin",
    "breakpoint", "callable", "chr", "compile", "delattr", "dir", "divmod", "eval", "exec",
    "format", "getattr", "globals", "hasattr", "hash", "hex", "id", "input", "isinstance",
    "issubclass", "iter", "len", "locals", "max", "min", "next", "oct", "open", "ord", "pow",
    "print", "repr", "round", "setattr", "sorted", "sum", "vars"]

/-- The language's own names, as they stand in a module of their own. -/
def members : List (String × Entity) :=
  kinds ++ functionNames.map (fun name => (name, .common name)) ++
    [("NotImplemented", .undecided), ("Ellipsis", anyOf "ellipsis"), ("__debug__", .ofBool true)]

/-- What the names denote. -/
def entities : List (String × Entity) :=
  members ++
    [("__name__", .ofText "module"), ("__doc__", .ofText "module"), ("__package__", .ofText ""),
      ("__loader__", .nothing), ("__spec__", anyOf "object"),
      ("__builtins__", .value (.map [(.text "__name__", .text "builtins")]))]

end WireSchema.Ambient
