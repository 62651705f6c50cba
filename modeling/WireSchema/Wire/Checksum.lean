import WireSchema.Wire.Callback

/-!
# A checksum

Hooks for types that are encoded one to a buffer: encoding appends the sum of all bytes modulo 256,
and decoding refuses input that does not end in the sum of the bytes before.
-/

namespace WireSchema.Checksum

def sum (bs : List UInt8) : UInt8 := bs.foldl (· + ·) 0

def verify (bs : List UInt8) : Option (List UInt8) :=
  match bs.getLast? with
  | some last => if last = sum bs.dropLast then some bs.dropLast else none
  | none => none

theorem verify_append_sum (bs : List UInt8) : verify (bs ++ [sum bs]) = some bs := by
  simp [verify]

def appendCallback : Callback :=
  .onBuffer "append_checksum" "append" fun bs => bs.push (sum bs.toList)

def checkCallback : Callback := .onInput "check_checksum" verify

end WireSchema.Checksum
