import WireSchema.Layout.Basic
import WireSchema.Wire.Codec

/-!
# Fields on the wire

A list of fields is written and read segment by segment. A longest run of neighbours that can be
packed is one segment; every other field is a segment of its own. Beside it stands the plain way, in
which each field is written and read on its own by its own codec.
-/

namespace WireSchema

def Codec.ofGeneric (name : String) : List Codec → Codec
  | [c] =>
    if name = "optional" then optional c
    else if name = "list" then list c
    else declared name
  | [k, v] => if name = "map" then map k v else declared name
  | _ => declared name

def Codec.ofPrimitive : Primitive → Codec
  | .bool => bool
  | .int k => int k
  | .string => string

/-- A fixed array. Eight booleans are packed into one byte. -/
def Codec.ofArray (element : Codec) (size : Nat) : Codec :=
  if element = bool ∧ size = 8 then packedBools else array element size

namespace TypeExpr

mutual
/-- The codec of a type. A name that is no primitive's is that of a declaration. -/
def codec : TypeExpr → Codec
  | named name =>
    match Primitive.ofName? name with
    | some p => Codec.ofPrimitive p
    | none => .declared name
  | applied name args => Codec.ofGeneric name (codecs args)
  | array element size => Codec.ofArray (codec element) size

def codecs : List TypeExpr → List Codec
  | [] => []
  | t :: ts => codec t :: codecs ts
end

end TypeExpr

def Field.codec (f : Field) : Codec := f.type.codec

inductive Segment where
  /-- Adjacent fields that are packed together. -/
  | packed (fields : List (String × Slot))
  | single (field : String) (codec : Codec)
deriving DecidableEq, Repr

namespace Segment

def cons (field : String) (codec : Codec) (segments : List Segment) : List Segment :=
  match codec.slot? with
  | some slot =>
    match segments with
    | packed fields :: rest => packed ((field, slot) :: fields) :: rest
    | _ => packed [(field, slot)] :: segments
  | none => single field codec :: segments

def ofFields (fields : List Field) : List Segment :=
  fields.foldr (fun f segments => cons f.ident f.codec segments) []

@[simp] theorem ofFields_nil : ofFields [] = [] := rfl

@[simp] theorem ofFields_cons (f : Field) (fs : List Field) :
    ofFields (f :: fs) = cons f.ident f.codec (ofFields fs) := rfl

def idents : Segment → List String
  | packed fields => fields.map Prod.fst
  | single field _ => [field]

theorem flatMap_idents_cons (field : String) (codec : Codec) (segments : List Segment) :
    (cons field codec segments).flatMap idents = field :: segments.flatMap idents := by
  unfold cons
  split
  · split <;> simp [idents]
  · simp [idents]

/-- The segments cover the fields in order. -/
theorem flatMap_idents_ofFields (fields : List Field) :
    (ofFields fields).flatMap idents = fields.map Field.ident := by
  induction fields with
  | nil => rfl
  | cons f fs ih => rw [ofFields_cons, flatMap_idents_cons, ih, List.map_cons]

/-- Writes the fields of a segment, which must all have a value. -/
def encode (O : Objects) (field? : String → Option Value) : Segment → Write
  | packed fields, s =>
    match fields.mapM fun f => field? f.1 with
    | some vs => Write.ofExcept (Format.pack (fields.map Prod.snd) vs) s
    | none => .error (.noSuchMember, s)
  | single field codec, s =>
    match field? field with
    | some w => codec.encode O w s
    | none => .error (.noSuchMember, s)

def encodeAll (O : Objects) (field? : String → Option Value) (segments : List Segment) : Write :=
  fun s => segments.foldlM (fun s g => g.encode O field? s) s

def decode (declared : String → Read Value) : Segment → Read (List (String × Value))
  | packed fields, s => do
    let f : Format := fields.map Prod.snd
    let (vs, s) ← Read.lift (f.unpack f.size) s
    return ((fields.map Prod.fst).zip vs, s)
  | single field codec, s => do
    let (v, s) ← codec.decode declared s
    return ([(field, v)], s)

def decodeAll (declared : String → Read Value) : List Segment → Read (List (String × Value))
  | [], s => .ok ([], s)
  | g :: gs, s => do
    let (first, s) ← g.decode declared s
    let (others, s) ← decodeAll declared gs s
    return (first ++ others, s)

end Segment

/-! ## The plain way -/

namespace Field

def encode (O : Objects) (field? : String → Option Value) (f : Field) : Write :=
  fun s =>
    match field? f.ident with
    | some w => f.codec.encode O w s
    | none => .error (.noSuchMember, s)

def encodeEach (O : Objects) (field? : String → Option Value) (fields : List Field) : Write :=
  fun s => fields.foldlM (fun s f => f.encode O field? s) s

def decodeEach (declared : String → Read Value) : List Field → Read (List (String × Value))
  | [], s => .ok ([], s)
  | f :: fs, s => do
    let (v, s) ← f.codec.decode declared s
    let (others, s) ← decodeEach declared fs s
    return ((f.ident, v) :: others, s)

end Field

end WireSchema
