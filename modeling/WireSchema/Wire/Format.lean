import WireSchema.Wire.Fault
import WireSchema.Wire.Integer

/-!
# Packed formats

Adjacent fields of fixed width are written and read together. A format lists one slot for each, and
is named by one letter a slot. Packing writes all values or, if any of them does not fit its slot,
none; unpacking needs the bytes of all slots at once.
-/

namespace WireSchema

inductive Slot where
  | flag
  | u8 | i8
  | u16 | i16
  | u32 | i32
  | u64 | i64
deriving DecidableEq, Repr

namespace Slot

def all : List Slot := [flag, u8, i8, u16, i16, u32, i32, u64, i64]

def letter : Slot → Char
  | flag => '?'
  | u8 => 'B'
  | i8 => 'b'
  | u16 => 'H'
  | i16 => 'h'
  | u32 => 'I'
  | i32 => 'i'
  | u64 => 'Q'
  | i64 => 'q'

def ofLetter? (c : Char) : Option Slot := all.find? (·.letter = c)

def size : Slot → Nat
  | flag | u8 | i8 => 1
  | u16 | i16 => 2
  | u32 | i32 => 4
  | u64 | i64 => 8

def signed : Slot → Bool
  | flag | u8 | u16 | u32 | u64 => false
  | i8 | i16 | i32 | i64 => true

/-- A flag takes any value for its truth; the others take numbers in their range. -/
def pack? (v : Value) : Slot → Option (List UInt8)
  | flag => some [if v.truthy then 1 else 0]
  | s => v.integer?.bind (encodeInt? s.size s.signed)

def unpack (bs : List UInt8) : Slot → Value
  | flag => .bool (bs.any (· ≠ 0))
  | s => .int (decodeInt s.signed bs)

end Slot

abbrev Format := List Slot

namespace Format

def text (f : Format) : String := .ofList ('<' :: f.map Slot.letter)

def size (f : Format) : Nat := f.foldr (fun s n => s.size + n) 0

def packAll? : Format → List Value → Option (List UInt8)
  | [], [] => some []
  | s :: f, v :: vs =>
    match s.pack? v, packAll? f vs with
    | some bs, some rest => some (bs ++ rest)
    | _, _ => none
  | _, _ => none

def pack (f : Format) (vs : List Value) : Except Fault (List UInt8) :=
  match f.packAll? vs with
  | some bs => .ok bs
  | none => .error (.showing vs (.notPackable vs f.text))

def unpackAll : Format → List UInt8 → List Value
  | [], _ => []
  | s :: f, bs => s.unpack (bs.take s.size) :: unpackAll f (bs.drop s.size)

end Format

def takeBytes (size : Nat) (what : String) (bs : List UInt8) :
    Except Fault (List UInt8 × List UInt8) :=
  let parts := bs.splitAt size
  if parts.1.length < size then .error (.shortInput what size parts.1.length) else .ok parts

theorem takeBytes_eq (size : Nat) (what : String) (bs : List UInt8) :
    takeBytes size what bs =
      if bs.length < size then .error (.shortInput what size bs.length)
      else .ok (bs.take size, bs.drop size) := by
  simp only [takeBytes, List.splitAt_eq, List.length_take]
  by_cases h : bs.length < size
  · rw [if_pos (by omega), if_pos h, Nat.min_eq_right (by omega)]
  · rw [if_neg (by omega), if_neg h]

/-- The values of a format from the first `size` bytes, and the rest. The size has to be that of the
format. -/
def Format.unpack (f : Format) (size : Nat) (bs : List UInt8) :
    Except Fault (List Value × List UInt8) := do
  let (front, rest) ← takeBytes size f.text bs
  if size = f.size then return (f.unpackAll front, rest) else throw .formatSize

end WireSchema
