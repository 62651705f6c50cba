/-!
# Kinds

The language of emitted modules has kinds of things of its own. A kind takes requests, and it has
traits, which are answered without anything being run. It has those of its parent as well, if it does
not answer to the same names itself. The tables here only say which names there are.

Names in double underscores stand for what is written otherwise: comparisons, sums, calls.
-/

namespace WireSchema

structure Kind where
  name : String
  /-- The kind that this one is a special case of. The most general kind has none. -/
  parent : String
  requests : List String
  traits : List String
deriving Repr, Inhabited

namespace Kind

/-! ## Requests that several kinds take -/

def orderings : List String := ["__eq__", "__ge__", "__gt__", "__le__", "__lt__", "__ne__"]

def basics : List String := ["__getattribute__", "__new__", "__repr__"]

def bitwise : List String := ["__and__", "__or__", "__rand__", "__ror__", "__rxor__", "__xor__"]

def sums : List String := ["__add__", "__mul__", "__rmul__"]

def arithmetic : List String :=
  ["__abs__", "__bool__", "__neg__", "__pos__", "__pow__", "__radd__", "__rpow__", "__rsub__",
    "__rtruediv__", "__sub__", "__truediv__"]

def divisions : List String :=
  ["__ceil__", "__divmod__", "__float__", "__floor__", "__floordiv__", "__int__", "__mod__",
    "__rdivmod__", "__rfloordiv__", "__rmod__", "__round__", "__trunc__"]

def containers : List String := ["__contains__", "__getitem__", "__iter__", "__len__"]

def changes : List String := ["__delitem__", "__setitem__"]

def sequences : List String :=
  ["append", "clear", "copy", "extend", "insert", "pop", "remove", "reverse"]

def characters : List String :=
  ["capitalize", "center", "count", "endswith", "expandtabs", "find", "index", "isalnum", "isalpha",
    "isascii", "isdigit", "islower", "isspace", "istitle", "isupper", "join", "ljust", "lower",
    "lstrip", "maketrans", "partition", "removeprefix", "removesuffix", "replace", "rfind", "rindex",
    "rjust", "rpartition", "rsplit", "rstrip", "split", "splitlines", "startswith", "strip",
    "swapcase", "title", "translate", "upper", "zfill"]

def combinations : List String :=
  ["__contains__", "__iter__", "__len__", "__rsub__", "__sub__", "copy", "difference",
    "intersection", "isdisjoint", "issubset", "issuperset", "symmetric_difference", "union"]

def iterations : List String := ["__getattribute__", "__iter__", "__new__", "__next__", "__reduce__"]

/-! ## The kinds -/

def data : List Kind :=
  [⟨"object", "", orderings ++ basics ++
      ["__delattr__", "__dir__", "__format__", "__getstate__", "__hash__", "__init__",
        "__init_subclass__", "__reduce__", "__reduce_ex__", "__setattr__", "__sizeof__", "__str__",
        "__subclasshook__"], []⟩,
    ⟨"type", "object", basics ++
      ["__call__", "__delattr__", "__dir__", "__init__", "__instancecheck__", "__or__",
        "__prepare__", "__ror__", "__setattr__", "__sizeof__", "__subclasscheck__",
        "__subclasses__", "mro"],
      ["__abstractmethods__", "__annotations__", "__base__", "__bases__", "__basicsize__",
        "__dictoffset__", "__flags__", "__itemsize__", "__mro__", "__name__", "__qualname__",
        "__text_signature__", "__weakrefoffset__"]⟩,
    ⟨"NoneType", "object", ["__bool__", "__new__", "__repr__"], []⟩,
    ⟨"NotImplementedType", "object", ["__bool__", "__new__", "__reduce__", "__repr__"], []⟩,
    ⟨"ellipsis", "object", basics ++ ["__reduce__"], []⟩,
    ⟨"int", "object", orderings ++ basics ++ bitwise ++ sums ++ arithmetic ++ divisions ++
      ["__format__", "__getnewargs__", "__hash__", "__index__", "__invert__", "__lshift__",
        "__rlshift__", "__rrshift__", "__rshift__", "__sizeof__", "as_integer_ratio", "bit_count",
        "bit_length", "conjugate", "from_bytes", "to_bytes"],
      ["denominator", "imag", "numerator", "real"]⟩,
    ⟨"bool", "int", bitwise ++ ["__new__", "__repr__"], []⟩,
    ⟨"float", "object", orderings ++ basics ++ sums ++ arithmetic ++ divisions ++
      ["__format__", "__getformat__", "__getnewargs__", "__hash__", "as_integer_ratio", "conjugate",
        "fromhex", "hex", "is_integer"],
      ["imag", "real"]⟩,
    ⟨"complex", "object", orderings ++ basics ++ sums ++ arithmetic ++
      ["__complex__", "__format__", "__getnewargs__", "__hash__", "conjugate"], ["imag", "real"]⟩,
    ⟨"str", "object", orderings ++ basics ++ sums ++ containers ++ characters ++
      ["__format__", "__getnewargs__", "__hash__", "__mod__", "__rmod__", "__sizeof__", "__str__",
        "casefold", "encode", "format", "format_map", "isdecimal", "isidentifier", "isnumeric",
        "isprintable"], []⟩,
    ⟨"bytes", "object", orderings ++ basics ++ sums ++ containers ++ characters ++
      ["__bytes__", "__getnewargs__", "__hash__", "__mod__", "__rmod__", "__str__", "decode",
        "fromhex", "hex"], []⟩,
    ⟨"bytearray", "object", orderings ++ basics ++ sums ++ containers ++ changes ++ characters ++
      sequences ++
      ["__alloc__", "__iadd__", "__imul__", "__init__", "__mod__", "__reduce__", "__reduce_ex__",
        "__rmod__", "__sizeof__", "__str__", "decode", "fromhex", "hex"], ["__hash__"]⟩,
    ⟨"memoryview", "object", orderings ++ basics ++ changes ++
      ["__enter__", "__exit__", "__getitem__", "__hash__", "__iter__", "__len__", "cast", "hex",
        "release", "tobytes", "tolist", "toreadonly"],
      ["c_contiguous", "contiguous", "f_contiguous", "format", "itemsize", "nbytes", "ndim", "obj",
        "readonly", "shape", "strides", "suboffsets"]⟩,
    ⟨"list", "object", orderings ++ basics ++ sums ++ containers ++ changes ++ sequences ++
      ["__class_getitem__", "__iadd__", "__imul__", "__init__", "__reversed__", "__sizeof__",
        "count", "index", "sort"], ["__hash__"]⟩,
    ⟨"tuple", "object", orderings ++ basics ++ sums ++ containers ++
      ["__class_getitem__", "__getnewargs__", "__hash__", "count", "index"], []⟩,
    ⟨"dict", "object", orderings ++ basics ++ containers ++ changes ++
      ["__class_getitem__", "__init__", "__ior__", "__or__", "__reversed__", "__ror__",
        "__sizeof__", "clear", "copy", "fromkeys", "get", "items", "keys", "pop", "popitem",
        "setdefault", "update", "values"], ["__hash__"]⟩,
    ⟨"mappingproxy", "object", orderings ++ basics ++ containers ++
      ["__class_getitem__", "__ior__", "__or__", "__reversed__", "__ror__", "__str__", "copy",
        "get", "items", "keys", "values"], ["__hash__"]⟩,
    ⟨"set", "object", orderings ++ basics ++ bitwise ++ combinations ++
      ["__class_getitem__", "__iand__", "__init__", "__ior__", "__isub__", "__ixor__", "__reduce__",
        "__sizeof__", "add", "clear", "difference_update", "discard", "intersection_update", "pop",
        "remove", "symmetric_difference_update", "update"], ["__hash__"]⟩,
    ⟨"frozenset", "object", orderings ++ basics ++ bitwise ++ combinations ++
      ["__class_getitem__", "__hash__", "__reduce__", "__sizeof__"], []⟩,
    ⟨"range", "object", orderings ++ basics ++ containers ++
      ["__bool__", "__hash__", "__reduce__", "__reversed__", "count", "index"],
      ["start", "step", "stop"]⟩,
    ⟨"slice", "object", orderings ++ basics ++ ["__reduce__", "indices"],
      ["__hash__", "start", "step", "stop"]⟩,
    ⟨"enumerate", "object", "__class_getitem__" :: iterations, []⟩,
    ⟨"map", "object", iterations, []⟩,
    ⟨"filter", "object", iterations, []⟩,
    ⟨"zip", "object", "__setstate__" :: iterations, []⟩,
    ⟨"reversed", "object", ["__length_hint__", "__setstate__"] ++ iterations, []⟩]

def callables : List Kind :=
  [⟨"function", "object", ["__call__", "__get__", "__new__", "__repr__"],
      ["__annotations__", "__builtins__", "__closure__", "__code__", "__defaults__", "__dict__",
        "__globals__", "__kwdefaults__", "__module__", "__name__", "__qualname__"]⟩,
    ⟨"method", "object", orderings ++ basics ++
      ["__call__", "__delattr__", "__hash__", "__reduce__", "__setattr__"],
      ["__func__", "__module__", "__name__", "__qualname__", "__self__"]⟩,
    ⟨"builtin_function_or_method", "object", orderings ++
      ["__call__", "__getattribute__", "__hash__", "__reduce__", "__repr__"],
      ["__module__", "__name__", "__qualname__", "__self__", "__text_signature__"]⟩,
    ⟨"method-wrapper", "object", orderings ++
      ["__call__", "__getattribute__", "__hash__", "__reduce__", "__repr__"],
      ["__name__", "__objclass__", "__qualname__", "__self__", "__text_signature__"]⟩,
    ⟨"method_descriptor", "object",
      ["__call__", "__get__", "__getattribute__", "__reduce__", "__repr__"],
      ["__name__", "__objclass__", "__qualname__", "__text_signature__"]⟩,
    ⟨"getset_descriptor", "object",
      ["__delete__", "__get__", "__getattribute__", "__repr__", "__set__"],
      ["__name__", "__objclass__", "__qualname__"]⟩,
    ⟨"property", "object",
      ["__delete__", "__get__", "__getattribute__", "__init__", "__new__", "__set__",
        "__set_name__", "deleter", "getter", "setter"],
      ["__isabstractmethod__", "fdel", "fget", "fset"]⟩,
    ⟨"classmethod", "object", ["__get__", "__init__", "__new__", "__repr__"],
      ["__dict__", "__func__", "__isabstractmethod__", "__wrapped__"]⟩,
    ⟨"staticmethod", "object", ["__call__", "__get__", "__init__", "__new__", "__repr__"],
      ["__dict__", "__func__", "__isabstractmethod__", "__wrapped__"]⟩,
    ⟨"super", "object", basics ++ ["__get__", "__init__"],
      ["__self__", "__self_class__", "__thisclass__"]⟩,
    ⟨"module", "object", basics ++ ["__delattr__", "__dir__", "__init__", "__setattr__"],
      ["__annotations__", "__dict__", "__name__"]⟩]

/-- Kinds of faults that have nothing to themselves. -/
def plain (parent : String) (names : List String) : List Kind :=
  names.map fun name => ⟨name, parent, [], []⟩

def faults : List Kind :=
  [⟨"BaseException", "object", basics ++
      ["__delattr__", "__init__", "__reduce__", "__setattr__", "__setstate__", "__str__",
        "add_note", "with_traceback"],
      ["__cause__", "__context__", "__dict__", "__suppress_context__", "__traceback__", "args"]⟩,
    ⟨"BaseExceptionGroup", "BaseException",
      ["__class_getitem__", "__str__", "derive", "split", "subgroup"], ["exceptions", "message"]⟩,
    ⟨"SystemExit", "BaseException", [], ["code"]⟩,
    ⟨"StopIteration", "Exception", [], ["value"]⟩,
    ⟨"AttributeError", "Exception", ["__str__"], ["name", "obj"]⟩,
    ⟨"ImportError", "Exception", ["__reduce__", "__str__"], ["msg", "name", "path"]⟩,
    ⟨"KeyError", "LookupError", ["__str__"], []⟩,
    ⟨"NameError", "Exception", ["__str__"], ["name"]⟩,
    ⟨"OSError", "Exception", ["__reduce__", "__str__"],
      ["characters_written", "errno", "filename", "filename2", "strerror"]⟩,
    ⟨"SyntaxError", "Exception", ["__str__"],
      ["end_lineno", "end_offset", "filename", "lineno", "msg", "offset", "print_file_and_line",
        "text"]⟩] ++
    (["UnicodeDecodeError", "UnicodeEncodeError", "UnicodeTranslateError"].map fun name =>
      ⟨name, "UnicodeError", ["__str__"], ["encoding", "end", "object", "reason", "start"]⟩) ++
    plain "BaseException" ["Exception", "GeneratorExit", "KeyboardInterrupt"] ++
    plain "BaseExceptionGroup" ["ExceptionGroup"] ++
    plain "Exception"
      ["ArithmeticError", "AssertionError", "BufferError", "EOFError", "LookupError",
        "MemoryError", "ReferenceError", "RuntimeError", "StopAsyncIteration", "SystemError",
        "TypeError", "ValueError", "Warning"] ++
    plain "OSError"
      ["BlockingIOError", "ChildProcessError", "ConnectionError", "FileExistsError",
        "FileNotFoundError", "InterruptedError", "IsADirectoryError", "NotADirectoryError",
        "PermissionError", "ProcessLookupError", "TimeoutError"] ++
    plain "ConnectionError"
      ["BrokenPipeError", "ConnectionAbortedError", "ConnectionRefusedError",
        "ConnectionResetError"] ++
    plain "Warning"
      ["BytesWarning", "DeprecationWarning", "EncodingWarning", "FutureWarning", "ImportWarning",
        "PendingDeprecationWarning", "ResourceWarning", "RuntimeWarning", "SyntaxWarning",
        "UnicodeWarning", "UserWarning"] ++
    plain "ArithmeticError" ["FloatingPointError", "OverflowError", "ZeroDivisionError"] ++
    plain "LookupError" ["IndexError"] ++
    plain "ImportError" ["ModuleNotFoundError"] ++
    plain "RuntimeError" ["NotImplementedError", "RecursionError", "SerializationError"] ++
    plain "SerializationError" ["DecodeError"] ++
    plain "SyntaxError" ["IndentationError"] ++
    plain "IndentationError" ["TabError"] ++
    plain "NameError" ["UnboundLocalError"] ++
    plain "ValueError" ["UnicodeError"]

def all : List Kind := data ++ callables ++ faults

def find? (name : String) : Option Kind := all.find? (·.name = name)

/-! ## Inheritance -/

/-- Less than `depth` kinds, each the parent of the one before. -/
def lineageAt : Nat → String → List Kind
  | 0, _ => []
  | depth + 1, name =>
    match find? name with
    | some k => k :: lineageAt depth k.parent
    | none => []

/-- A kind and all that it is a special case of. What is of no kind of its own is of the most general
one. -/
def lineage (name : String) : List Kind :=
  lineageAt all.length (if (find? name).isSome then name else "object")

def isA (name other : String) : Bool := (lineage name).any (·.name = other)

def isFault (name : String) : Bool := isA name "BaseException"

def home? (kind name : String) : Option Kind :=
  (lineage kind).find? fun k => k.requests.contains name || k.traits.contains name

def takes (kind name : String) : Bool :=
  (home? kind name).any (·.requests.contains name)

def hasTrait (kind name : String) : Bool :=
  (home? kind name).any (·.traits.contains name)

/-! ## Requests of a special kind -/

/-- Requests that a kind takes itself, not its data. -/
def ofTheKind : List String :=
  ["__class_getitem__", "__getformat__", "__init_subclass__", "__new__", "__prepare__",
    "__subclasshook__", "from_bytes", "fromhex", "fromkeys", "maketrans"]

/-- Requests in double underscores that are made by name only. -/
def madeByName : List String :=
  ["__alloc__", "__bytes__", "__ceil__", "__class_getitem__", "__complex__", "__dir__", "__enter__",
    "__exit__", "__floor__", "__format__", "__getformat__", "__getnewargs__", "__getstate__",
    "__init_subclass__", "__instancecheck__", "__length_hint__", "__new__", "__prepare__",
    "__reduce__", "__reduce_ex__", "__reversed__", "__round__", "__set_name__", "__setstate__",
    "__sizeof__", "__subclasscheck__", "__subclasses__", "__subclasshook__", "__trunc__"]

/-- Requests that stand for an operation between two things, which may not be known to either. -/
def operations : List String :=
  orderings ++ bitwise ++ sums ++
    ["__divmod__", "__floordiv__", "__lshift__", "__mod__", "__pow__", "__radd__", "__rdivmod__",
      "__rfloordiv__", "__rlshift__", "__rmod__", "__rpow__", "__rrshift__", "__rshift__",
      "__rsub__", "__rtruediv__", "__sub__", "__truediv__"]

def isDunder (name : String) : Bool := name.startsWith "__" && name.endsWith "__"

end Kind

end WireSchema
