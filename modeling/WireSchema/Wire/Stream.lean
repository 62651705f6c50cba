import WireSchema.Wire.Object

/-!
# Streams

Several values encoded one after another into one buffer, and decoded in the same order from a
cursor. Decoding moves the cursor only if it succeeds. Encoding that fails leaves what it has
written so far.

The cursor is where the rest starts that decoding leaves. Hooks can leave more than the buffer holds,
and then the cursor is negative and counts from the end of the buffer.
-/

namespace WireSchema

structure Stream where
  buffer : Array UInt8 := #[]
  cursor : Int := 0
deriving DecidableEq, Repr, Inhabited

namespace Stream

def ofBytes (bs : List UInt8) : Stream := ⟨bs.toArray, 0⟩

def reset (t : Stream) : Stream := { t with cursor := 0 }

def remaining (t : Stream) : List UInt8 :=
  t.buffer.toList.drop (if t.cursor < 0 then t.cursor + t.buffer.size else t.cursor).toNat

variable (S : Layout) (H : Hooks)

def writer (codec? : Option Codec) (v : Value) : Write :=
  match codec? with
  | some c => c.encode (S.objects (S.encode H)) v
  | none =>
    match v with
    | .object _ _ => S.encode H v
    | v => .fail (.codecMissing v.kind)

/-- The stream with one more value, or with what could be written of it and the fault. Besides,
what was logged. -/
def encode (t : Stream) (codec? : Option Codec) (v : Value) : Stream × Option Fault × List Event :=
  match writer S H codec? v { bytes := t.buffer } with
  | .ok s => ({ t with buffer := s.bytes }, none, s.log)
  | .error (f, s) => ({ t with buffer := s.bytes }, some f, s.log)

def next (t : Stream) (codec : Codec) : Stream × Except Fault Value × List Event :=
  match codec.decode (S.decode H) (.ofOrigin { bytes := t.remaining }) with
  | .ok (v, s) => ({ t with cursor := t.buffer.size - (s.bytes.length : Int) }, .ok v, s.log)
  | .error h => (t, .error h.fault, h.log)

end Stream

end WireSchema
