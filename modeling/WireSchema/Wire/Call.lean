import WireSchema.Wire.Answer
import WireSchema.Wire.Bare
import WireSchema.Wire.Object
import WireSchema.Wire.Scope
import WireSchema.Wire.Sealed

/-!
# Running what names denote

Whatever a name denotes can be given as a hook, and is then run with what the place of the hook
offers: an object, the buffer, the input, or a decoded value with the input behind it. A class builds
an object of what it is offered; something that decodes reads the bytes it is offered; something
that encodes takes what it is offered second for the buffer; a codec of a generic type can be made of
anything and read by any object that has the parts for it.

Code that is run can run further code. How that is done is a parameter up to the end, where it is
tied: each entity run by another is one level deeper, and there is a limit to the depth.
-/

namespace WireSchema

/-! ## Reading from any data -/

namespace Entity

def take (data : Entity) (size : Nat) (what : String) : Run (List UInt8 × Entity) := do
  match ← data.bytes? with
  | none => throw .wrongKind
  | some bs =>
    let (front, rest) ← Run.ofExcept (takeBytes size what bs)
    return (front, data.derived rest)

def takeInt (data : Entity) (kind : IntKind) : Run (Int × Entity) := do
  let (front, rest) ← data.take kind.size kind.name
  return (kind.decode front, rest)

/-- A text of so many bytes, which only a view gives away. -/
def takeText (data : Entity) (size : Nat) (what : String) : Run (Value × Entity) := do
  let (raw, rest) ← data.take size what
  match rest with
  | bytes (.view _) _ =>
    match Text.decodeUtf8 raw with
    | .ok cs => return (.text (.ofList cs), rest)
    | .error why => throw (.invalidUtf8 why)
  | _ => throw .noSuchMember

end Entity

namespace Surroundings

variable (E : Surroundings) (S : Layout) (run : Entity → List Entity → Run Entity)

/-! ## Hooks at their places -/

def find (scene : Scene) (data : Entity) (path : String) : Run Entity :=
  .ofExcept (E.denotation S scene data path)

/-- The value whose field is asked for a change by the path of a hook, with the change, if it is one. -/
def changed? (v : Value) (home path : String) (args : List Entity) : Run (Option Value) := do
  match pathNames home path with
  | "self" :: names =>
    let fields := names.dropLast
    match v.fieldAt? fields, names.getLast?, args with
    | some (.list items), some request, [arg] =>
      let items ← Entity.changedItems? S items request arg
      return items.map fun items => v.withFieldAt fields (.list items)
    | some (.object owner old), some "__init__", args =>
      return if old.length = args.length then
        some (v.withFieldAt fields
          (.object owner ((old.map Prod.fst).zip (args.map (Entity.standing S)))))
      else none
    | _, _, _ => return none
  | _ => return none

/-- Runs what a path denotes in the code that encodes `v`, and logs how that changes `v`. A hook that
is only mentioned is not run. -/
def visit (scene : Scene) (path : String) (data : Entity) (v : Value) (args : List Entity) :
    Run Entity := do
  let e ← E.find S scene data path
  if isMention path then return e
  let w? ← changed? S v (scene.home S) path args
  let result ← run e args
  if let some w := w? then Run.log (.changed v w)
  return result

/-- What takes the place of a value that is encoded to `data`. A hook that is only mentioned takes
the place itself. -/
def openWith (path home : String) (data : Entity) (v : Value) : Run Entity :=
  E.visit S run (.opening home v) path data v [.value v]

/-- Runs what is to be run once a value has been encoded to `data`. -/
def closeWith (path home : String) (data : Entity) (v : Value) (standin? : Option Entity) :
    Run Unit :=
  discard (E.visit S run (.closing home v standin?) path data v [data])

def enterWith (path type : String) (data : Entity) : Run View := do
  let e ← E.find S (.entering type) data path
  match ← run e [data] with
  | .value .none => throw (.rejectedInput (e.name S))
  | r =>
    match ← r.view? with
    | some view => return view
    | none => throw .wrongKind

/-- The two parts of what should be a pair. -/
def unpair : Entity → Run (Entity × Entity)
  | .tuple [a, b] => return (a, b)
  | .tuple _ => throw .unfit
  | .value v =>
    match v.items? with
    | some [a, b] => return (.value a, .value b)
    | some _ => throw .unfit
    | none => throw .wrongKind
  | e => do
    match ← e.bytes? with
    | some bs => throw (if bs.length = 2 then .wrongKind else .unfit)
    | none => throw .wrongKind

/-- The value and the input that take the place of a decoded value and what remains. -/
def leaveWith (path type : String) (data : Entity) (read : List (String × Value)) (v : Value) :
    Run (Value × View) := do
  let e ← E.find S (.leaving type read v) data path
  match ← run e [.value v, data] with
  | .value .none => throw (.rejectedValue (e.name S))
  | r =>
    let (w, rest) ← unpair r
    match ← rest.view? with
    | some view => return (w.standing S, view)
    | none => throw .wrongKind

def hooksBy : Hooks where
  preEncode path home v := E.openWith S run path home .buffer v
  postEncode path home v standin? := E.closeWith S run path home .buffer v standin?
  preDecode path type view := E.enterWith S run path type (.ofView view)
  postDecode path type read v view := E.leaveWith S run path type (.ofView view) read v

/-! ## Reading -/

def ask (e : Entity) (name : String) : Run Entity := .ofExcept (e.ask S name)

def nameOf (e : Entity) : Run String := do return ((← ask S e "name").standing S).shown

def decodePart (self : Entity) (part : String) (data : Entity) : Run Entity := do
  run (← ask S (← ask S self part) "decode") [data]

def decodeTimes (self : Entity) (part : String) :
    Nat → List Value → Entity → Run (List Value × Entity)
  | 0, vs, data => return (vs.reverse, data)
  | n + 1, vs, data => do
    let (v, data) ← unpair (← decodePart S run self part data)
    decodeTimes self part n (v.standing S :: vs) data

def decodeEntries (self : Entity) :
    Nat → List (Value × Value) → Entity → Run (List (Value × Value) × Entity)
  | 0, es, data => return (es, data)
  | n + 1, es, data => do
    let (k, data) ← unpair (← decodePart S run self "key" data)
    let (v, data) ← unpair (← decodePart S run self "value" data)
    let key := k.standing S
    if key.isKey then
      decodeEntries self n (Value.insertEntry key (v.standing S) es) data
    else throw .wrongKind

/-- A count, which must not exceed what remains by more than an allowance. -/
def takeCount (self : Entity) (allowance : Nat) (data : Entity) : Run (Nat × Entity) := do
  let (n, rest) ← data.takeInt .u64
  let bs := (← rest.bytes?).getD []
  if exceeds n.toNat allowance bs then
    throw (.countTooLarge (← nameOf S self) n.toNat)
  else return (n.toNat, rest)

def decodeInteger (self data : Entity) : Run Entity := do
  match ((← ask S self "size").standing S).integer? with
  | none => throw .wrongKind
  | some size =>
    let (front, rest) ← data.take size.toNat (← nameOf S self)
    let isSigned ← Ambient.isTrue (← ask S self "signed")
    return .tuple [.ofInt (decodeInt isSigned front), rest]

/-- Decodes by the code of a family, for an entity that should be a codec of it. -/
def decodeBy (f : CodecFamily) (self data : Entity) : Run Entity :=
  match f with
  | .bare => throw .bareCodec
  | .integer => decodeInteger S self data
  | .bool => do
    let (front, rest) ← data.take 1 (← nameOf S self)
    return .tuple [.ofBool (front.any (· ≠ 0)), rest]
  | .packedBools => do
    let (front, rest) ← data.take 1 (← nameOf S self)
    return .tuple [.value (.list (front.flatMap fun b => (unpackBits b).map Value.bool)), rest]
  | .string => do
    let (n, rest) ← data.takeInt .u64
    let (v, rest) ← rest.takeText n.toNat (← nameOf S self)
    return .tuple [.value v, rest]
  | .optional => do
    let (front, rest) ← data.take 1 Codec.bool.name
    if front.any (· ≠ 0) then decodePart S run self "inner" rest
    else return .tuple [.nothing, rest]
  | .list => do
    let (n, rest) ← takeCount S self maxEmptyItems data
    let (vs, rest) ← decodeTimes S run self "inner" n [] rest
    return .tuple [.value (.list vs), rest]
  | .array => do
    match ((← ask S self "size").standing S).integer? with
    | some n =>
      let (vs, rest) ← decodeTimes S run self "inner" n.toNat [] data
      return .tuple [.value (.list vs), rest]
    | none => throw .wrongKind
  | .map => do
    let (n, rest) ← takeCount S self 0 data
    let (es, rest) ← decodeEntries S run self n [] rest
    return .tuple [.value (.map es), rest]
  | .declared => do
    run (← ask S (← ask S self "cls") Member.decodeValue.name) [data]

def decodeSegment (data : Entity) : Segment → Run (List (String × Value) × Entity)
  | .packed fields => do
    let f : Format := fields.map Prod.snd
    let (front, rest) ← data.take f.size f.text
    return ((fields.map Prod.fst).zip (f.unpackAll front), rest)
  | .single field codec => do
    let (v, rest) ← unpair (← run (.member (.codec codec) "decode") [data])
    return ([(field, v.standing S)], rest)

def decodeSegments :
    List Segment → List (String × Value) → Entity → Run (List (String × Value) × Entity)
  | [], fields, data => return (fields, data)
  | g :: gs, fields, data => do
    let (more, data) ← decodeSegment S run data g
    decodeSegments gs (fields ++ more) data

def leave (a : TypeAttributes) (type : String) (data : Entity) (read : List (String × Value))
    (v : Value) : Run Entity :=
  match a.postDecode with
  | none => return .tuple [.value v, data]
  | some path => do
    let (w, view) ← E.leaveWith S run path type data read v
    return .tuple [.value w, .ofView view]

def decodeFrom (d : Declaration) (type : String) (data : Entity) : Run Entity := do
  let data ← match d.attributes.preDecode with
    | none => pure data
    | some path => do pure (.ofView (← E.enterWith S run path type data))
  match d with
  | .record r =>
    let (read, data) ← decodeSegments S run r.segments [] data
    let fields ← Run.ofExcept (S.completeFields S.builtins read r.fields)
    E.leave S run r.attributes type data read (.object (.record r.name) fields)
  | .union u =>
    let (tag, data) ← data.takeInt u.width.kind
    match u.variantOfTag? tag with
    | none => throw (.unknownTag tag u.name)
    | some v =>
      let (fields, data) ← decodeSegments S run v.segments [] data
      E.leave S run u.attributes type data fields (.object (.variant u.name v.name) fields)

def decodeValue (c : ClassName) (data : Entity) : Run Entity :=
  match c, data with
  | .bareRecord, _ | .bareUnion, _ | .bare, _ => throw Member.decodeValue.bareFault
  | c, .bytes (.view origin) bs => do
    let (v, rest) ← Run.ofRead (S.decode (E.hooksBy S run) c.text) ⟨bs, origin⟩
    return .tuple [.value v, .ofView rest]
  | c, data =>
    match S.declaration? c.text with
    | some d => do
      if !S.builtins.calls d.name then throw .wrongKind
      E.decodeFrom S run d c.text data
    | none => throw .noSuchMember

def decodeFields (c : ClassName) (data : Entity) : Run Entity :=
  match c with
  | .variant home name =>
    match S.variant? home name with
    | some (_, l) => do
      if !S.builtins.calls home then throw .wrongKind
      let (fields, rest) ← decodeSegments S run l.segments [] data
      return .tuple [.value (.object (.variant home name) fields), rest]
    | none => throw .noSuchMember
  | _ => throw Member.decodeFields.bareFault

/-- A value of a class with what remains, or nothing if the input is at fault, which is logged. -/
def attempt (c : ClassName) (data : Entity) : Run Entity := do
  match ← data.view? with
  | none => throw .wrongKind
  | some view =>
    tryCatch
      (do
        let (v, rest) ← unpair (← E.decodeValue S run c (.ofView view))
        return .tuple [v, .bytes .fixed ((← rest.bytes?).getD [])])
      fun f => do
        if f.ofInput then
          Run.log (.failed c.text f)
          return .nothing
        else throw f

/-! ## Writing -/

/-- Writes to an entity: to the buffer, to an array that nobody sees afterwards, or where nothing can
be written. -/
def writeTo (target : Entity) (write : Write) (blocked : Run Unit) : Run Entity := do
  match target with
  | .buffer => Run.ofWrite write
  | .bytes .array bs =>
    let s ← get
    set { s with bytes := bs.toArray }
    tryCatch (Run.ofWrite write) fun f => do
      modify fun t => { t with bytes := s.bytes }
      throw f
    modify fun t => { t with bytes := s.bytes }
  | _ => blocked
  return .nothing

/-- Asks a value to encode itself where nothing can be written. -/
def encodeBlocked (target : Entity) (v : Value) : Run Unit := do
  discard (run (← ask S (.value v) Member.encodeToBuf.name) [target])

/-- Encodes an object by the code of a declaration where nothing can be written. -/
def encodeSealedBy (d : Declaration) (target : Entity) (v : Value) : Run Unit := do
  let w ← match d.attributes.preEncode with
    | none => pure (.value v)
    | some path => E.openWith S run path d.name target v
  match d with
  | .union _ => throw .noSuchMember
  | .record r =>
    r.segments.forM (Segment.encodeSealed S.knows (encodeBlocked S run target) (w.field? S))
    match r.attributes.postEncode with
    | none => pure ()
    | some path =>
      E.closeWith S run path r.name target v (r.attributes.preEncode.map fun _ => w)

def encodeTo (c : ClassName) (self target : Entity) : Run Entity :=
  match S.declaration? c.text with
  | some d =>
    let v := self.standing S
    writeTo target (S.encodeBy (E.hooksBy S run) d v) (E.encodeSealedBy S run d target v)
  | none => throw Member.encodeToBuf.bareFault

def encodeFieldsTo (c : ClassName) (self target : Entity) : Run Entity :=
  match c with
  | .variant home name =>
    match S.variant? home name with
    | some (_, l) =>
      writeTo target
        (Segment.encodeAll (S.objects (S.encode (E.hooksBy S run))) (self.field? S) l.segments)
        (l.segments.forM
          (Segment.encodeSealed S.knows (encodeBlocked S run target) (self.field? S)))
    | none => throw .noSuchMember
  | _ => throw Member.encodeFields.bareFault

def encodedAlone (self : Entity) : Run Entity := do
  match self with
  | .value v =>
    let s ← get
    set { s with bytes := #[] }
    let result ← ExceptT.lift (ExceptT.run (Run.ofWrite (S.encode (E.hooksBy S run) v)))
    let t ← get
    set { t with bytes := s.bytes }
    match result with
    | .ok () => return .bytes .fixed t.bytes.toList
    | .error f => throw f
  | _ => throw .noSuchMember

def encodeCodecTo (c : Codec) (self target : Entity) : Run Entity :=
  let v := self.standing S
  writeTo target (c.encode (S.objects (S.encode (E.hooksBy S run))) v)
    (c.encodeSealed S.knows (encodeBlocked S run target) v)

/-! ## Building -/

def build (c : ClassName) (args : List Entity) : Run Entity :=
  match c.owner? with
  | none => throw .wrongKind
  | some owner =>
    match S.fieldNames? owner with
    | some names => do
      let fields := names.zip (args.map (Entity.standing S))
      if names.length < args.length then throw .wrongKind
      return .value (← Run.ofExcept (S.construct owner fields))
    | none => throw .noSuchMember

/-- A codec of a family made of what should be codecs. It is named after the names of these. -/
def apply (f : CodecFamily) (args : List Entity) : Run Entity :=
  match f, args with
  | .optional, [inner] => generic "optional" inner
  | .list, [inner] => generic "list" inner
  | .array, [inner, size] => do
    let name ← nameOf S inner
    return made [("inner", inner), ("size", size)] (name ++ "[" ++ size.text ++ "]")
  | .map, [key, value] => do
    let k ← nameOf S key
    let v ← nameOf S value
    return made [("key", key), ("value", value)] ("map<" ++ k ++ ", " ++ v ++ ">")
  | .declared, [e] => do
    match e with
    | .value (.object _ _) => throw .noSuchMember
    | e => return made [("cls", e)] ((← ask S e "__qualname__").standing S).shown
  | _, _ => throw .wrongKind
where
  made (parts : List (String × Entity)) (name : String) : Entity :=
    .applied f (parts ++ [("name", .ofText name)])
  generic (word : String) (inner : Entity) : Run Entity := do
    let name ← nameOf S inner
    return made [("inner", inner)] (word ++ "<" ++ name ++ ">")

/-! ## Running -/

/-- What a class answers. An object that is asked comes first among what it is asked with. -/
def classAnswer (c : ClassName) (m : Member) (args : List Entity) : Run Entity :=
  match m, args with
  | .encoded, [self] => E.encodedAlone S run self
  | .encodeToBuf, [self, target] => E.encodeTo S run c self target
  | .encodeFields, [self, target] => E.encodeFieldsTo S run c self target
  | .decode, [data] => do
    match ← E.attempt S run c data with
    | .tuple (v :: _) => return v
    | e => return e
  | .decodeFromBuf, [data] => E.attempt S run c data
  | .decodeValue, [data] => E.decodeValue S run c data
  | .decodeFields, [data] => decodeFields S run c data
  | _, _ => throw .wrongKind

/-- Whether a request is made of an object, not of its class. -/
def isOfObject : Member → Bool
  | .encoded | .encodeToBuf | .encodeFields => true
  | _ => false

/-- What a class whose objects have fields answers about them, and about its objects. Setting the
fields of an object is seen elsewhere. -/
def fieldsAnswer (owner : Owner) (name : String) (args : List Entity) : Run Entity := do
  let names := (S.fieldNames? owner).getD []
  match name, args with
  | "__init__", self :: args =>
    if names.length ≠ args.length then throw .wrongKind
    match self, names with
    | .value (.object _ _), _ | _, [] => return .nothing
    | _, _ :: _ => throw .noSuchMember
  | "__repr__", [self] =>
    names.forM fun name => discard (ask S self name)
    return .ofText self.text
  | "__eq__", [self, other] =>
    match self, other with
    | .value (.object o fields), .value (.object p others) =>
      return if o = p then .ofBool ((Value.object o fields).same (.object p others))
        else .undecided
    | _, _ => return .undecided
  | _, _ => throw .wrongKind

def differ (owner : Owner) (e : Entity) (args : List Entity) : Run Entity := do
  match ← fieldsAnswer S owner "__eq__" (e :: args) with
  | .value (.bool b) => return .ofBool !b
  | answer => return answer

def codecAnswer (self : Entity) (f : CodecFamily) (name : String) (args : List Entity) :
    Run Entity := do
  match name, self, args with
  | "encode", .codec c, [v, target] => E.encodeCodecTo S run c v target
  | "decode", self, [data] => decodeBy S run f self data
  | "__repr__", self, [] => return .ofText (← nameOf S self)
  | "__init__", _, [part] =>
    if f.isOfOne then
      let _ ← nameOf S part
      return .nothing
    else throw .wrongKind
  | _, _, _ => throw .wrongKind

def answer (owner : Entity) (name : String) (args : List Entity) : Run Entity :=
  match owner, Member.ofName? name with
  | .type c, some m => E.classAnswer S run c m args
  | .value (.object o _), some m =>
    E.classAnswer S run (.ofOwner o) m (if isOfObject m then owner :: args else args)
  | .type c, none =>
    match c.owner?, Entity.fieldRequests.contains name with
    | some o, true => fieldsAnswer S o name args
    | _, _ => answerOf S run owner name args
  | .value (.object o _), none =>
    if name = "__ne__" then differ S o owner args
    else if Entity.fieldRequests.contains name then fieldsAnswer S o name (owner :: args)
    else answerOf S run owner name args
  | .codec c, _ => ofCodec (.ofCodec c)
  | .applied f _, _ => ofCodec f
  | .family f, _ =>
    match f.hasCode name, args with
    | true, self :: args => E.codecAnswer S run self f name args
    | _, _ => answerOf S run owner name args
  | owner, _ => answerOf S run owner name args
where
  ofCodec (f : CodecFamily) : Run Entity :=
    if f.hasCode name then E.codecAnswer S run owner f name args
    else answerOf S run owner name args

/-- What a helper of the runtime comes to. One of them looks at the members of a class. -/
def help (name : String) (args : List Entity) : Run Entity :=
  match name, args with
  | "dataclass", [_] => throw .noSuchMember
  | "tag", [e] => ask S e "_tag"
  | "min_value", [_] | "max_value", [_] => throw .noSuchMember
  | "pack_fields", [.bytes (.view origin) _] => throw (if origin.isArray then .unfit else .wrongKind)
  | _, _ => throw .wrongKind

def step (e : Entity) (args : List Entity) : Run Entity :=
  match e with
  | .function name => do
    Run.log (.ran name)
    match E.callbacks.find? (·.name = name) with
    | some f => f.run args
    | none => throw .unboundName
  | .common name => Ambient.runFunction name args
  | .kind k => Ambient.make k args
  | .type c => build S c args
  | .family f => apply S f args
  | .member owner name => E.answer S run owner name args
  | .helper name => help S name args
  | _ => throw .wrongKind

def runAt : Nat → Entity → List Entity → Run Entity
  | 0, _, _ => throw .endless
  | depth + 1, e, args => E.step S (runAt depth) e args

def hooks : Hooks := E.hooksBy S (E.runAt S hookAllowance)

end Surroundings

end WireSchema
