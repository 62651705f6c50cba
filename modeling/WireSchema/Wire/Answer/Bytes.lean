import WireSchema.Text.Numeral
import WireSchema.Wire.Answer.Directives
import WireSchema.Wire.Callback

/-!
# What bytes answer

Bytes can be asked with other bytes, for little else. Three kinds of bytes answer differently: arrays
can be changed, if nobody is looking at them; fixed bytes cannot; and input has few requests of its
own. The buffer is an array, and only its changes can be seen afterwards.
-/

namespace WireSchema

/-- Puts other bytes in place of those of an array. The number of bytes cannot change while they are
being looked at, and nobody sees the change of an array that is not the buffer. -/
def changeBytes (target : Entity) (bs : List UInt8) : Run Unit :=
  match target with
  | .buffer => modify fun s => { s with bytes := bs.toArray }
  | .bytes .lent own => if bs.length = own.length then pure () else throw .lent
  | _ => pure ()

def occurs (part : List UInt8) : List UInt8 → Bool
  | [] => part.isEmpty
  | b :: bs => part.isPrefixOf (b :: bs) || occurs part bs

/-- What is left of bytes once others are taken off their ends. -/
def remainder? (name : String) (own bs : List UInt8) : Option (List UInt8) :=
  match name with
  | "lstrip" => some (own.dropWhile bs.contains)
  | "rstrip" => some (dropEnd own)
  | "strip" => some (dropEnd (own.dropWhile bs.contains))
  | "removeprefix" => some (if bs.isPrefixOf own then own.drop bs.length else own)
  | "removesuffix" =>
    some (if bs.isSuffixOf own then own.take (own.length - bs.length) else own)
  | _ => none
where
  dropEnd (own : List UInt8) : List UInt8 := (own.reverse.dropWhile bs.contains).reverse

namespace BytesRequest

def searches : List String :=
  ["__contains__", "count", "find", "rfind", "startswith", "endswith"]

/-- Requests that break bytes apart at others, which must not be empty. -/
def partitions : List String := ["partition", "rpartition", "split", "rsplit"]

/-- Requests that leave bytes as they are and need nothing else. -/
def harmless : List String :=
  ["__alloc__", "__bytes__", "__dir__", "__getnewargs__", "__hash__", "__iter__", "__len__",
    "__reduce__", "__reduce_ex__", "__repr__", "__sizeof__", "__str__", "capitalize", "copy",
    "expandtabs", "hex", "isalnum", "isalpha", "isascii", "isdigit", "islower", "isspace",
    "istitle", "isupper", "lower", "lstrip", "rsplit", "rstrip", "split", "splitlines", "strip",
    "swapcase", "title", "upper"]

end BytesRequest

open BytesRequest

def Filling.ofBytes (e : Entity) (bs? : Option (List UInt8)) : Filling where
  isMapping := e.isOf "memoryview"
  write isNumbered c :=
    if c = 'b' || c = 's' then bs?.elim (.error .wrongKind) fun bs => .ok (Text.ofBytes bs)
    else if c = 'a' || c = 'r' then e.told.map String.toList
    else if c = 'c' then
      match bs? with
      | some [b] => if e.isOf "memoryview" then .error .wrongKind else .ok (Text.ofBytes [b])
      | _ => .error .wrongKind
    else if "diouxXeEfFgG".toList.contains c then .error .wrongKind
    else .error (if c.toNat < 128 || isNumbered then .unfit else .outOfRange)

def fillBytes (owner : Entity) (own : List UInt8) (e : Entity) (bs? : Option (List UInt8)) :
    Run Entity := do
  let cs ← Run.ofExcept ((Filling.ofBytes e bs?).fill (Text.ofBytes own))
  return owner.derived (cs.map fun c => UInt8.ofNat c.toNat)

/-- Parts of bytes are set apart by a single character, which input is not. -/
def setApart (bs : List UInt8) : Fault := if bs.length = 1 then .wrongKind else .unfit

/-- What bytes answer if they are asked with other bytes, or with themselves. -/
def answerWithBytes (owner : Entity) (isSelf : Bool) (name : String) (own bs : List UInt8) :
    Run Entity := do
  if let some rest := remainder? name own bs then return owner.derived rest
  else if name = "__add__" then return owner.derived (own ++ bs)
  else if name = "__iadd__" then
    if isSelf && !own.isEmpty then throw .lent
    changeBytes owner (own ++ bs)
    match owner with
    | .bytes kind _ => return .bytes kind (own ++ bs)
    | owner => return owner
  else if name = "extend" then
    changeBytes owner (own ++ bs)
    return .nothing
  else if searches.contains name then return .ofInt 0
  else if name = "index" ∨ name = "rindex" then
    if occurs bs own then return .ofInt 0 else throw .unfit
  else if partitions.contains name then
    if bs.isEmpty then throw .unfit else return .tuple []
  else if name = "translate" then
    if bs.length = 256 then return owner.derived (own.map fun b => bs.getD b.toNat 0)
    else throw .unfit
  else if name = "join" then
    if bs.isEmpty then return owner.derived [] else throw .wrongKind
  else if name = "hex" then throw (setApart bs)
  else throw .wrongKind

/-- What the bytes of an array come to if they are made anew of other bytes. What they held goes
first, also if these are the other bytes. -/
def remakeBytes (owner : Entity) (arg : Entity) : Run Entity := do
  changeBytes owner []
  match ← arg.bytes? with
  | some bs =>
    changeBytes owner bs
    return .nothing
  | none => throw .wrongKind

def answerAlone (owner : Entity) (name : String) (own : List UInt8) : Run Entity := do
  match name with
  | "reverse" =>
    changeBytes owner own.reverse
    return .nothing
  | "clear" | "__init__" =>
    changeBytes owner []
    return .nothing
  | "pop" =>
    if own.isEmpty then throw .noSuchIndex
    changeBytes owner own.dropLast
    return .ofInt 0
  | "decode" =>
    match Text.decodeUtf8 own with
    | .ok cs => return .ofText (.ofList cs)
    | .error _ => throw .undecodable
  | name => if harmless.contains name then return .ofText "" else throw .wrongKind

def answerOfBytes (owner : Entity) (name : String) (args : List Entity) : Run Entity := do
  match ← owner.bytes?, args with
  | some own, [] => answerAlone owner name own
  | some own, [arg] =>
    match name, ← arg.bytes? with
    | "__mod__", bs? => fillBytes owner own arg bs?
    | "__rmod__", some bs =>
      if arg.kindName = owner.kindName then fillBytes arg bs owner (some own)
      else return .undecided
    | "__rmod__", none => return .undecided
    | "__init__", _ => remakeBytes owner arg
    | name, some bs =>
      let isSelf := match owner, arg with
        | .buffer, .buffer => true
        | _, _ => false
      answerWithBytes owner isSelf name own bs
    | _, none => throw .wrongKind
  | _, _ => throw .wrongKind

def answerOfView (view : View) (name : String) (args : List Entity) : Run Entity := do
  match name, args with
  | "__exit__", _ | "release", [] => return .nothing
  | "tobytes", [] => return .bytes .fixed view.bytes
  | "toreadonly", [] | "__enter__", [] => return .ofView view
  | "__hash__", [] => if view.origin.isArray then throw .unfit else return .ofInt 0
  | "__len__", [] => return .ofInt view.bytes.length
  | "hex", [] | "__repr__", [] => return .ofText ""
  | "tolist", [] | "__iter__", [] => return .tuple []
  | "hex", [arg] =>
    match ← arg.bytes? with
    | some bs => throw (setApart bs)
    | none => throw .wrongKind
  | _, _ => throw .wrongKind

end WireSchema
