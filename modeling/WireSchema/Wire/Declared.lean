import WireSchema.Wire.Builtins
import WireSchema.Wire.Hook
import WireSchema.Wire.Member

/-!
# Coding declared types

A record is its fields in the order of the wire, a union value its tag and then its fields. Ignored
fields are not written; reading fills them with their default.

Declarations can refer to themselves and each other. Encoding follows the value, so the depth of its
objects bounds how far references are followed. Decoding follows the input: a declared type that is
reached again without any input read in between would be reached for ever, so the number of
declarations and the length of the input bound how far references are followed, and what goes beyond
never ends. Hooks can deepen a value and lengthen the input, for which there is an allowance.
-/

namespace WireSchema

/-- So many levels more than a value or an input has of its own can be opened up by hooks. -/
def hookAllowance : Nat := 1000

namespace Layout

variable (S : Layout)

/-! ## Defaults -/

/-- The default of a record that needs defaults of records nested less than `depth` deep. -/
def defaultAt (depth : Nat) (name : String) : Option Value :=
  match depth with
  | 0 => none
  | depth + 1 =>
    match S.record? name with
    | none => none
    | some r =>
      if r.hasDefault then
        (r.fields.mapM fun (f : FieldLayout) =>
          (f.field.codec.default? (defaultAt depth)).map fun v => (f.field.ident, v)).map
          (Value.object (.record name))
      else none

def default? (name : String) : Option Value := S.defaultAt S.records.length name

def fieldDefault? (f : Field) : Option Value := f.codec.default? S.default?

/-- Whether the default of a record can be evaluated, which evaluates defaults of records nested less
than `depth` deep. -/
def fillsAt (B : Builtins) : Nat → String → Bool
  | 0, _ => true
  | depth + 1, name =>
    B.calls name && (S.record? name).all fun r =>
      r.fields.all fun f => f.field.codec.fills B (fillsAt B depth)

def fills (B : Builtins) (f : Field) : Bool := f.codec.fills B (S.fillsAt B S.records.length)

/-- The value of a field that is not read. -/
def filling (B : Builtins) (f : Field) : Except Fault Value :=
  match S.fieldDefault? f with
  | some v => if S.fills B f then .ok v else .error .wrongKind
  | none => .error (.noDefault f.type.text)

/-! ## Encoding -/

/-- Whether a value can be asked for something by this name. A union value has the variants of its union
among its members. -/
def knows (v : Value) (name : String) : Bool :=
  v.knows name ||
    match v with
    | .object (.variant union _) _ => (S.variant? union name).isSome
    | _ => false

/-- What single types need to know, given how objects are written. -/
def objects (write : Value → Write) : Objects := ⟨write, S.knows⟩

variable (B : Builtins) (H : Hooks)

/-- Writes `w` by the code of the declaration `d`, in place of `v`. A union value is written as what it
is, be it of another union. The class of a variant has its tag written, and then its fields cannot
be. -/
def writeAs (nested : Value → Write) (d : Declaration) (v : Value) (w : Entity) : Write := fun s =>
  match d with
  | .record r => do
    let s ← Segment.encodeAll (S.objects nested) (w.field? S) r.segments s
    H.postEncoded r.attributes r.name v w s
  | .union u =>
    match w with
    | .value (.object (.variant union name) _) =>
      match S.variant? union name with
      | some (u', l) => do
        let s ← Segment.encodeAll (S.objects nested) (w.field? S) l.segments
          (s.append (u'.tagBytes l))
        H.postEncoded u.attributes u.name v w s
      | none => .error (.noSuchMember, s)
    | .type (.variant union name) =>
      match S.variant? union name with
      | some (u', l) => .error (.wrongKind, s.append (u'.tagBytes l))
      | none => .error (.noSuchMember, s)
    | _ => .error (.noSuchMember, s)

/-- The declaration by whose code a value is written, or the fault of there being none. -/
def codeOf (v : Value) : Except Fault Declaration :=
  match v with
  | .object owner _ =>
    match S.declarationOf? owner with
    | some d => .ok d
    | none => .error .noSuchMember
  | v => .error (if v.knows Member.encodeToBuf.name then .wrongKind else .noSuchMember)

/-- Encodes an object in which fewer than `depth` objects are nested in one another. -/
def encodeAt : Nat → Value → Write
  | 0, _, s => .error (.endless, s)
  | depth + 1, v, s =>
    match S.codeOf v with
    | .ok d => do
      let (w, s) ← H.preEncoded d.attributes d.name v s
      S.writeAs H (encodeAt depth) d v w s
    | .error f => .error (f, s)

def encodeBy (d : Declaration) (v : Value) : Write := fun s => do
  let (w, s) ← H.preEncoded d.attributes d.name v s
  S.writeAs H (S.encodeAt H (w.depth + hookAllowance)) d v w s

def encode (v : Value) : Write := fun s =>
  match S.codeOf v with
  | .ok d => S.encodeBy H d v s
  | .error f => .error (f, s)

/-! ## Decoding -/

/-- The value of each field in declaration order: what was read, or the default. -/
def completeFields (read : List (String × Value)) :
    List FieldLayout → Except Fault (List (String × Value))
  | [] => .ok []
  | f :: fs => do
    let v ←
      if f.attributes.ignore then S.filling B f.field
      else
        match read.find? (·.1 = f.field.ident) with
        | some (_, v) => pure v
        | none => throw .noSuchMember
    return (f.field.ident, v) :: (← completeFields read fs)

/-- Reads the value of a declaration, asked for as that of `type`. Its hook has run before. -/
def readAs (nested : String → Read Value) (type : String) (d : Declaration) : Read Value := fun s =>
  match d with
  | .record r => do
    let (read, s) ← Segment.decodeAll nested r.segments s
    match S.completeFields B read r.fields with
    | .ok fields => H.postDecoded r.attributes type read (.object (.record r.name) fields) s
    | .error f => .error ⟨f, s.log⟩
  | .union u => do
    let (tag, s) ← Read.lift (readInt u.width.kind) s
    match u.variantOfTag? tag with
    | none => .error ⟨.unknownTag tag u.name, s.log⟩
    | some v =>
      let (fields, s) ← Segment.decodeAll nested v.segments s
      H.postDecoded u.attributes type fields (.object (.variant u.name v.name) fields) s

def decodeAt : Nat → String → Read Value
  | 0, _, s => .error ⟨.endless, s.log⟩
  | depth + 1, name, s =>
    match S.declaration? name with
    | none => .error ⟨.noSuchMember, s.log⟩
    | some d => B.calling d.name (fun s => do
      let (_, s) ← H.preDecoded d.attributes name s
      S.readAs B H (decodeAt depth) name d s) s

/-- How deep references go before they go on without end. -/
def depthBound (bytes : List UInt8) : Nat :=
  (S.records.length + S.unions.length) * (bytes.length + 1) + hookAllowance

/-- Decodes a declared type from the front of the input, given what is left of the names of the
language. -/
def decodeIn (name : String) : Read Value := fun s =>
  match S.declaration? name with
  | none => .error ⟨.noSuchMember, s.log⟩
  | some d => B.calling d.name (fun s => do
    let (_, s) ← H.preDecoded d.attributes name s
    S.readAs B H (S.decodeAt B H (S.depthBound s.bytes)) name d s) s

def decode (name : String) : Read Value := S.decodeIn S.builtins H name

end Layout

end WireSchema
