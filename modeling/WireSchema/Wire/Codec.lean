import WireSchema.Wire.Format

/-!
# Codecs

How values of one type are written and read. Integers have their width, lengths and counts take
eight bytes, and nothing says which type it is of. The same value can be written by different
codecs, and a codec is offered values of any kind.

Declared types are known by name only. What encodes or decodes them is a parameter, so that this
module stands on its own and the recursion through declarations is tied elsewhere.
-/

namespace WireSchema

inductive Codec where
  | int (kind : IntKind)
  | bool
  | string
  /-- Eight booleans in one byte. -/
  | packedBools
  | optional (inner : Codec)
  | list (inner : Codec)
  | array (inner : Codec) (size : Nat)
  | map (key value : Codec)
  | declared (name : String)
deriving DecidableEq, Repr, Inhabited

def maxLength : Nat := Nat.pow 2 64 - 1

/-- So many elements more than there are bytes a list can have. -/
def maxEmptyItems : Nat := Nat.pow 2 16

namespace Codec

def name : Codec → String
  | int k => k.name
  | bool => "bool"
  | string => "string"
  | packedBools => "bool[8]"
  | optional c => "optional<" ++ c.name ++ ">"
  | list c => "list<" ++ c.name ++ ">"
  | array c n => c.name ++ "[" ++ toString n ++ "]"
  | map k v => "map<" ++ k.name ++ ", " ++ v.name ++ ">"
  | declared name => name

def className : Codec → String
  | int _ => "IntegerCodec"
  | bool => "BoolCodec"
  | string => "StringCodec"
  | packedBools => "PackedBoolsCodec"
  | optional _ => "OptionalCodec"
  | list _ => "ListCodec"
  | array _ _ => "ArrayCodec"
  | map _ _ => "MapCodec"
  | declared _ => "TypeCodec"

def text (c : Codec) : String := "<" ++ c.className ++ " " ++ c.name ++ ">"

/-- The slot of a type that can be packed with its neighbours. -/
def slot? : Codec → Option Slot
  | bool => some .flag
  | int .u8 => some .u8
  | int .i8 => some .i8
  | int .u16 => some .u16
  | int .i16 => some .i16
  | int .u32 => some .u32
  | int .i32 => some .i32
  | int .u64 | int .usize => some .u64
  | int .i64 | int .isize => some .i64
  | _ => none

end Codec

/-! ## Writing -/

/-- What is logged while values are coded. Only a failed decoding is reported, the rest is for callers
who watch their hooks. -/
inductive Event where
  /-- A hook that ran. -/
  | ran (hook : String)
  /-- A decoding that failed by a fault of its input. -/
  | failed (type : String) (fault : Fault)
  /-- A value of the caller's that a hook has changed into another. -/
  | changed (old new : Value)
deriving Repr

namespace Event

def hook? : Event → Option String
  | ran hook => some hook
  | failed .. | changed .. => none

def message? : Event → Option String
  | ran _ | changed .. => none
  | failed type fault => some ("Failed to decode " ++ type ++ ": " ++ fault.message)

end Event

/-- What has been written: the bytes, and what was logged, in order. -/
structure Sink where
  bytes : Array UInt8 := #[]
  log : List Event := []
deriving Repr, Inhabited

def Sink.append (s : Sink) (bs : List UInt8) : Sink :=
  { s with bytes := s.bytes ++ bs }

/-- Writing goes on from what has been written. If it fails, what was written before stays. -/
abbrev Write := Sink → Except (Fault × Sink) Sink

namespace Write

def fail (f : Fault) : Write := fun s => .error (f, s)

def bytes (bs : List UInt8) : Write := fun s => .ok (s.append bs)

def ofExcept : Except Fault (List UInt8) → Write
  | .ok bs => bytes bs
  | .error f => fail f

def all (write : Value → Write) (vs : List Value) : Write :=
  fun s => vs.foldlM (fun s v => write v s) s

end Write

/-- A value that is to be written as a number is asked for its bytes by this name, and a text by the
other. An object can have a field of that name, which answers nothing. -/
def numberRequest : String := "to_bytes"

def textRequest : String := "encode"

/-- What is known of objects where a single type is coded: how they are written, and what a value can
be asked for. -/
structure Objects where
  write : Value → Write
  knows : Value → String → Bool

/-- Nothing is declared. -/
def Objects.none : Objects := ⟨fun _ => Write.fail .noSuchMember, Value.knows⟩

/-- Writes a number of the range. Anything else is refused, or asked for its bytes in vain. -/
def IntCodec.write (c : IntCodec) (v : Value) (isAsked : Bool) : Write :=
  match v.integer?.bind c.encode? with
  | some bs => .bytes bs
  | none =>
    .fail (if isAsked then .wrongKind else .showing [v] (.notRepresentable v c.name))

def writeInt (kind : IntKind) : Value → Bool → Write := kind.intCodec.write

theorem writeInt_eq (kind : IntKind) (v : Value) (isAsked : Bool) :
    writeInt kind v isAsked =
      match v.integer?.bind kind.encode? with
      | some bs => .bytes bs
      | none =>
        .fail (if isAsked then .wrongKind
          else .showing [v] (.notRepresentable v kind.name)) := rfl

/-- A length or a count. What is counted is always few enough for the count to be shown. -/
def writeCount (n : Nat) : Write :=
  match IntKind.u64.encode? n with
  | some bs => .bytes bs
  | none => .fail (.notRepresentable (.int n) IntKind.u64.name)

def writeString (v : Value) (isAsked : Bool) : Write := fun s =>
  match v with
  | .text t => do
    let raw := Text.utf8 t.toList
    let s ← writeCount raw.length s
    return s.append raw
  | _ => .error (if isAsked then .wrongKind else .noSuchMember, s)

def packBits (bits : List Bool) : Nat :=
  bits.foldl (fun n b => 2 * n + if b then 1 else 0) 0

def Codec.encode (O : Objects) : Codec → Value → Write
  | .int kind, v, s => writeInt kind v (O.knows v numberRequest) s
  | .bool, v, s => .ok (s.append [if v.truthy then 1 else 0])
  | .string, v, s => writeString v (O.knows v textRequest) s
  | .packedBools, v, s =>
    match v.items? with
    | none => .error (.wrongKind, s)
    | some items =>
      if items.length = 8 then
        .ok (s.append [UInt8.ofNat (packBits (items.map Value.truthy))])
      else .error (.wrongLength Codec.packedBools.name 8 items.length, s)
  | .optional c, v, s =>
    if v.isNone then .ok (s.append [0]) else c.encode O v (s.append [1])
  | .list c, v, s =>
    match v.items? with
    | none => .error (.wrongKind, s)
    | some items => do
      let s₁ ← writeCount items.length s
      let s₂ ← Write.all (c.encode O) items s₁
      if s₂.bytes.size + maxEmptyItems < items.length + s₁.bytes.size then
        .error (.tooManyEmpty (Codec.list c).name, s₂)
      else return s₂
  | .array c n, v, s =>
    match v.items? with
    | none => .error (.wrongKind, s)
    | some items =>
      if items.length = n then Write.all (c.encode O) items s
      else .error (.wrongLength (Codec.array c n).name n items.length, s)
  | .map k c, v, s =>
    match v with
    | .map entries => do
      let s ← writeCount entries.length s
      entries.foldlM (fun s e => do c.encode O e.2 (← k.encode O e.1 s)) s
    | v =>
      match v.items? with
      | none => .error (.wrongKind, s)
      | some items => do
        let s ← writeCount items.length s
        .error (.noSuchMember, s)
  | .declared _, v, s => O.write v s

/-! ## Reading -/

/-- What input is a part of: bytes, which can perhaps be changed while nobody looks at them. -/
structure Origin where
  bytes : List UInt8 := []
  isArray : Bool := false
deriving DecidableEq, Repr, Inhabited

/-- Input as it is looked at: what is left of it, and what it is a part of. -/
structure View where
  bytes : List UInt8
  origin : Origin := {}
deriving DecidableEq, Repr, Inhabited

def View.ofOrigin (o : Origin) : View := ⟨o.bytes, o⟩

/-- What is left to be read, and what was logged, in order. -/
structure Source extends View where
  log : List Event := []
deriving Repr, Inhabited

/-- All of some bytes, of which nothing is logged. -/
def Source.ofOrigin (o : Origin) : Source := { toView := .ofOrigin o }

/-- Why reading stopped, and what had been logged. -/
structure Halt where
  fault : Fault
  log : List Event
deriving Repr

abbrev Read (α : Type) := Source → Except Halt (α × Source)

namespace Read

def fail {α : Type} (f : Fault) : Read α := fun s => .error ⟨f, s.log⟩

/-- A reader that logs nothing. -/
def lift {α : Type} (read : List UInt8 → Except Fault (α × List UInt8)) : Read α := fun s =>
  match read s.bytes with
  | .ok (a, rest) => .ok (a, { s with bytes := rest })
  | .error f => .error ⟨f, s.log⟩

/-- The same reader `n` times over. The items read before come last first. -/
def timesOnto {α : Type} (read : Read α) : Nat → List α → Read (List α)
  | 0, as, s => .ok (as.reverse, s)
  | n + 1, as, s =>
    match read s with
    | .ok (a, s) => timesOnto read n (a :: as) s
    | .error h => .error h

def times {α : Type} (read : Read α) (n : Nat) : Read (List α) := timesOnto read n []

def iterate {α : Type} (step : α → Read α) : Nat → α → Read α
  | 0, a, s => .ok (a, s)
  | n + 1, a, s =>
    match step a s with
    | .ok (a, s) => iterate step n a s
    | .error h => .error h

end Read

def IntCodec.read (c : IntCodec) (bs : List UInt8) : Except Fault (Int × List UInt8) := do
  let (front, rest) ← takeBytes c.size c.name bs
  return (c.decode front, rest)

def readInt (kind : IntKind) : List UInt8 → Except Fault (Int × List UInt8) := kind.intCodec.read

theorem readInt_eq (kind : IntKind) (bs : List UInt8) :
    readInt kind bs = do
      let (front, rest) ← takeBytes kind.size kind.name bs
      return (kind.decode front, rest) := rfl

def readCount (bs : List UInt8) : Except Fault (Nat × List UInt8) := do
  let (n, rest) ← readInt .u64 bs
  return (n.toNat, rest)

/-- Any byte but zero is true. -/
def readBool (bs : List UInt8) : Except Fault (Bool × List UInt8) := do
  let (front, rest) ← takeBytes 1 Codec.bool.name bs
  return (front.any (· ≠ 0), rest)

def readString (bs : List UInt8) : Except Fault (String × List UInt8) := do
  let (n, rest) ← readCount bs
  let (raw, rest) ← takeBytes n Codec.string.name rest
  match Text.decodeUtf8 raw with
  | .ok cs => return (String.ofList cs, rest)
  | .error why => throw (.invalidUtf8 why)

def unpackBits (b : UInt8) : List Bool :=
  (List.range 8).map fun i => b.toNat.testBit (7 - i)

def readPackedBools (bs : List UInt8) : Except Fault (Value × List UInt8) := do
  let (front, rest) ← takeBytes 1 Codec.packedBools.name bs
  return (.list (front.flatMap fun b => (unpackBits b).map Value.bool), rest)

def exceeds (count allowance : Nat) (bs : List UInt8) : Bool :=
  allowance < count && (bs.take (count - allowance)).length < count - allowance

theorem exceeds_iff (count allowance : Nat) (bs : List UInt8) :
    exceeds count allowance bs = true ↔ bs.length + allowance < count := by
  simp only [exceeds, Bool.and_eq_true, decide_eq_true_eq, List.length_take]
  omega

def Codec.decode (declared : String → Read Value) : Codec → Read Value
  | .int kind, s => Read.lift (fun bs => do let (n, r) ← readInt kind bs; return (.int n, r)) s
  | .bool, s => Read.lift (fun bs => do let (b, r) ← readBool bs; return (.bool b, r)) s
  | .string, s => Read.lift (fun bs => do let (t, r) ← readString bs; return (.text t, r)) s
  | .packedBools, s => Read.lift readPackedBools s
  | .optional c, s => do
    let (present, s) ← Read.lift readBool s
    if present then c.decode declared s else return (.none, s)
  | .list c, s => do
    let (count, s) ← Read.lift readCount s
    if exceeds count maxEmptyItems s.bytes then
      .error ⟨.countTooLarge (Codec.list c).name count, s.log⟩
    else
      let (items, s) ← Read.times (c.decode declared) count s
      return (.list items, s)
  | .array c n, s => do
    let (items, s) ← Read.times (c.decode declared) n s
    return (.list items, s)
  | .map k c, s => do
    let (count, s) ← Read.lift readCount s
    if exceeds count 0 s.bytes then
      .error ⟨.countTooLarge (Codec.map k c).name count, s.log⟩
    else
      let (entries, s) ← Read.iterate (fun entries s => do
        let (key, s) ← k.decode declared s
        let (value, s) ← c.decode declared s
        if key.isKey then return (Value.insertEntry key value entries, s)
        else .error ⟨.wrongKind, s.log⟩) count [] s
      return (.map entries, s)
  | .declared name, s => declared name s

/-! ## Defaults -/

def Codec.default? (declared : String → Option Value) : Codec → Option Value
  | .int _ => some (.int 0)
  | .bool => some (.bool false)
  | .string => some (.text "")
  | .packedBools => some (.list (List.replicate 8 (.bool false)))
  | .optional _ => some .none
  | .list _ => some (.list [])
  | .array c n => (c.default? declared).map fun v => .list (List.replicate n v)
  | .map _ _ => some (.map [])
  | .declared name => declared name

end WireSchema
