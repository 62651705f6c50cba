import WireSchema.Text.Utf8
import WireSchema.Wire.Value

/-!
# What can go wrong on the wire

The causes for which a value cannot be encoded, or bytes cannot be decoded, and their wording. A
fault of the input is one that decoding reports for bytes it cannot read; all other faults are those
of the caller, who offered a value, a name or a hook that does not fit.
-/

namespace WireSchema

/-- What a type can be asked to do once code for it is emitted: to encode a value on its own, behind
a buffer or without its tag; to decode a value, with what remains, in the middle of decoding, or
without its tag; to give its default, and the tag of a value. -/
inductive Member where
  | encoded | encodeToBuf | encodeFields
  | decode | decodeFromBuf | decodeValue | decodeFields
  | default | tag
deriving DecidableEq, Repr

namespace Member

def all : List Member :=
  [encoded, encodeToBuf, encodeFields, decode, decodeFromBuf, decodeValue, decodeFields, default,
    tag]

def name : Member → String
  | encoded => "encoded"
  | encodeToBuf => "encode_to_buf"
  | encodeFields => "_encode_fields"
  | decode => "decode"
  | decodeFromBuf => "decode_from_buf"
  | decodeValue => "_decode"
  | decodeFields => "_decode_fields"
  | default => "default"
  | tag => "tag"

def ofName? (s : String) : Option Member := all.find? (·.name = s)

end Member

inductive Fault where
  -- values that their type cannot represent
  | notRepresentable (value : Value) (type : String)
  | notPackable (values : List Value) (format : String)
  | wrongLength (type : String) (expected actual : Nat)
  | tooManyEmpty (type : String)
  -- input that cannot be read
  | shortInput (what : String) (needed remaining : Nat)
  | countTooLarge (type : String) (count : Nat)
  | invalidUtf8 (why : Text.Utf8Fault)
  | unknownTag (tag : Int) (union : String)
  | rejectedInput (hook : String)
  | rejectedValue (hook : String)
  -- what the caller offered does not fit
  | notEmitted (member : Member)
  | bareCodec
  | noDefault (type : String)
  | codecMissing (kind : String)
  | wrongKind
  | noSuchMember
  | unboundName
  /-- A name of a method that is not bound to anything yet. -/
  | unassignedName
  | noSuchKey
  | noSuchIndex
  /-- Something of the right kind whose contents do not do. -/
  | unfit
  /-- A number that is no character. -/
  | outOfRange
  /-- Bytes that are no text. -/
  | undecodable
  /-- A change in size of what is looked at. -/
  | lent
  /-- A text of a length that cannot be held. -/
  | noRoom
  | formatSize
  /-- Declarations are nested without end. -/
  | endless
deriving BEq, Repr

namespace Fault

def message : Fault → String
  | notRepresentable value type => value.repr ++ " is not a valid " ++ type
  | notPackable values format => "cannot pack " ++ Value.reprTuple values ++ " as " ++ format
  | wrongLength type expected actual =>
    type ++ " must have " ++ toString expected ++ " elements, got " ++ toString actual
  | tooManyEmpty type => type ++ " has too many elements that encode to no bytes"
  | shortInput what needed remaining =>
    what ++ " needs " ++ toString needed ++ " bytes, " ++ toString remaining ++ " remaining"
  | countTooLarge type count =>
    type ++ " count " ++ toString count ++ " exceeds the remaining input"
  | invalidUtf8 why => "invalid UTF-8 in string: " ++ why.reason
  | unknownTag tag union => "Unknown tag " ++ toString tag ++ " for " ++ union
  | rejectedInput hook => "pre-decode hook " ++ hook ++ " rejected the input"
  | rejectedValue hook => "post-decode hook " ++ hook ++ " rejected the value"
  | notEmitted member => member.name ++ "() must be implemented by generated code"
  | noDefault type => type ++ " has no default value"
  | codecMissing kind => "no codec given for " ++ kind ++ " value"
  | bareCodec | wrongKind | noSuchMember | unboundName | unassignedName | noSuchKey | noSuchIndex
  | unfit | outOfRange | undecodable | lent | noRoom | formatSize | endless => ""

/-- The fault whose message shows the values, unless one of them cannot be shown. -/
def showing (vs : List Value) (f : Fault) : Fault :=
  if Value.areShowable vs then f else unfit

theorem showing_of_areShowable {vs : List Value} (h : Value.areShowable vs = true) (f : Fault) :
    showing vs f = f :=
  if_pos h

theorem showing_singleton (v : Value) (f : Fault) :
    showing [v] f = if v.isShowable then f else unfit := by
  rw [showing, Value.areShowable, Value.areShowable, Bool.and_true]

end Fault

/-- What a caller can tell apart about faults without their wording. -/
inductive FaultKind where
  /-- A value that its type cannot represent. -/
  | value
  /-- Bytes that cannot be read. -/
  | input
  /-- Something that only emitted types have. -/
  | notEmitted
  | codecMissing
  | wrongKind
  | noSuchMember
  | unboundName
  | unassignedName
  | noSuchKey
  | noSuchIndex
  | unfit
  | outOfRange
  | undecodable
  | lent
  | noRoom
  | formatSize
  | endless
deriving DecidableEq, Repr

namespace Fault

def kind : Fault → FaultKind
  | notRepresentable .. | notPackable .. | wrongLength .. | tooManyEmpty .. => .value
  | shortInput .. | countTooLarge .. | invalidUtf8 .. | unknownTag .. | rejectedInput ..
  | rejectedValue .. => .input
  | notEmitted .. | bareCodec | noDefault .. => .notEmitted
  | codecMissing .. => .codecMissing
  | wrongKind => .wrongKind
  | noSuchMember => .noSuchMember
  | unboundName => .unboundName
  | unassignedName => .unassignedName
  | noSuchKey => .noSuchKey
  | noSuchIndex => .noSuchIndex
  | unfit => .unfit
  | outOfRange => .outOfRange
  | undecodable => .undecodable
  | lent => .lent
  | noRoom => .noRoom
  | formatSize => .formatSize
  | endless => .endless

/-- Whether the fault lies in the bytes to be decoded. -/
def ofInput (f : Fault) : Bool := f.kind = .input

/-- Whether the wording says anything. -/
def isWorded (f : Fault) : Bool :=
  match f.kind with
  | .value | .input | .notEmitted | .codecMissing => true
  | _ => false

end Fault

end WireSchema
