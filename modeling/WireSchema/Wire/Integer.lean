import WireSchema.Schema.Primitive

/-!
# Integers as bytes

A number of `n` bytes is written with its least significant byte first. A signed number is written
as the one of the same residue modulo `2 ^ (8 * n)` that is not negative. A number has such a form
exactly if it lies in the range of its width, and each string of `n` bytes is the form of one.
-/

namespace WireSchema

def toBytes : Nat → Nat → List UInt8
  | 0, _ => []
  | n + 1, v => UInt8.ofNat (v % 256) :: toBytes n (v / 256)

def ofBytes : List UInt8 → Nat
  | [] => 0
  | b :: bs => b.toNat + 256 * ofBytes bs

@[simp] theorem toBytes_zero (v : Nat) : toBytes 0 v = [] := rfl

@[simp] theorem ofBytes_nil : ofBytes [] = 0 := rfl

@[simp] theorem length_toBytes (n v : Nat) : (toBytes n v).length = n := by
  induction n generalizing v with
  | zero => rfl
  | succ n ih => simp [toBytes, ih]

theorem ofBytes_toBytes (n v : Nat) : ofBytes (toBytes n v) = v % Nat.pow 256 n := by
  rw [Nat.pow_eq]
  induction n generalizing v with
  | zero => simp [Nat.mod_one]
  | succ n ih =>
    have hb : (UInt8.ofNat (v % 256)).toNat = v % 256 := by simp
    rw [toBytes, ofBytes, ih, hb, Nat.pow_succ', Nat.mod_mul]

theorem ofBytes_lt (bs : List UInt8) : ofBytes bs < Nat.pow 256 bs.length := by
  rw [Nat.pow_eq]
  induction bs with
  | nil => simp
  | cons b bs ih =>
    have hb := b.toNat_lt
    rw [ofBytes, List.length_cons, Nat.pow_succ]
    omega

theorem toBytes_ofBytes (bs : List UInt8) : toBytes bs.length (ofBytes bs) = bs := by
  induction bs with
  | nil => rfl
  | cons b bs ih =>
    have hb := b.toNat_lt
    rw [List.length_cons, ofBytes, toBytes, Nat.add_mul_mod_self_left,
      Nat.add_mul_div_left _ _ (by decide), Nat.mod_eq_of_lt hb, Nat.div_eq_of_lt hb,
      Nat.zero_add, ih, UInt8.ofNat_toNat]

/-- The least number of a width. -/
def minInt (size : Nat) (signed : Bool) : Int :=
  if signed then -(Nat.pow 2 (8 * size - 1) : Nat) else 0

def maxInt (size : Nat) (signed : Bool) : Int :=
  if signed then (Nat.pow 2 (8 * size - 1) : Nat) - 1 else (Nat.pow 2 (8 * size) : Nat) - 1

def encodeInt? (size : Nat) (signed : Bool) (n : Int) : Option (List UInt8) :=
  if minInt size signed ≤ n ∧ n ≤ maxInt size signed then
    some (toBytes size (n % (Nat.pow 2 (8 * size) : Nat)).toNat)
  else none

def decodeInt (signed : Bool) (bs : List UInt8) : Int :=
  let v : Int := ofBytes bs
  if signed ∧ maxInt bs.length true < v then v - (Nat.pow 2 (8 * bs.length) : Nat) else v

theorem length_of_encodeInt? {size : Nat} {signed : Bool} {n : Int} {bs : List UInt8}
    (h : encodeInt? size signed n = some bs) : bs.length = size := by
  unfold encodeInt? at h
  split at h
  next => cases h; simp
  next => cases h

/-- How integers of one width are coded. Each kind of integer has such a codec, and other widths can
have one. -/
structure IntCodec where
  name : String
  /-- The width in bytes. -/
  size : Nat
  signed : Bool
deriving DecidableEq, Repr, Inhabited

namespace IntCodec

def minValue (c : IntCodec) : Int := minInt c.size c.signed

def maxValue (c : IntCodec) : Int := maxInt c.size c.signed

def encode? (c : IntCodec) (n : Int) : Option (List UInt8) := encodeInt? c.size c.signed n

def decode (c : IntCodec) (bs : List UInt8) : Int := decodeInt c.signed bs

end IntCodec

namespace IntKind

def intCodec (k : IntKind) : IntCodec := ⟨k.name, k.size, k.signed⟩

def minValue (k : IntKind) : Int := k.intCodec.minValue

def maxValue (k : IntKind) : Int := k.intCodec.maxValue

def encode? (k : IntKind) (n : Int) : Option (List UInt8) := k.intCodec.encode? n

def decode (k : IntKind) (bs : List UInt8) : Int := k.intCodec.decode bs

end IntKind

end WireSchema
