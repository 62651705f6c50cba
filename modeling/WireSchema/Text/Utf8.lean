/-!
# UTF-8

Characters as one to four bytes, and back. Reading goes byte by byte. Between two characters any
first byte may come; inside one, a number of bytes is missing, and the next must lie in a range. The
range is narrower behind four of the first bytes, which keeps out forms longer than needed, the
surrogates, and numbers beyond the last character.
-/

namespace WireSchema.Text

def utf8 (cs : List Char) : List UInt8 :=
  cs.flatMap String.utf8EncodeChar

inductive Utf8Fault where
  | badStart
  | badContinuation
  | unfinished
deriving DecidableEq, Repr

def Utf8Fault.reason : Utf8Fault → String
  | badStart => "invalid start byte"
  | badContinuation => "invalid continuation byte"
  | unfinished => "unexpected end of data"

/-- A character of which some bytes are read: their value so far, how many are missing, and the
range of the next. -/
structure Pending where
  value : Nat
  missing : Nat
  low : Nat
  high : Nat
deriving DecidableEq, Repr

def firstByte? (b : Nat) : Option (Char ⊕ Pending) :=
  if b ≤ 0x7f then some (.inl (Char.ofNat b))
  else if b ≤ 0xc1 then none
  else if b ≤ 0xdf then some (.inr ⟨b - 0xc0, 1, 0x80, 0xbf⟩)
  else if b = 0xe0 then some (.inr ⟨0, 2, 0xa0, 0xbf⟩)
  else if b = 0xed then some (.inr ⟨0xd, 2, 0x80, 0x9f⟩)
  else if b ≤ 0xef then some (.inr ⟨b - 0xe0, 2, 0x80, 0xbf⟩)
  else if b = 0xf0 then some (.inr ⟨0, 3, 0x90, 0xbf⟩)
  else if b ≤ 0xf3 then some (.inr ⟨b - 0xf0, 3, 0x80, 0xbf⟩)
  else if b = 0xf4 then some (.inr ⟨4, 3, 0x80, 0x8f⟩)
  else none

/-- The characters read, the last one first, followed by those of the remaining bytes. -/
def decodeUtf8From : List Char → Option Pending → List UInt8 → Except Utf8Fault (List Char)
  | cs, none, [] => .ok cs.reverse
  | _, some _, [] => .error .unfinished
  | cs, none, b :: bs =>
    match firstByte? b.toNat with
    | some (.inl c) => decodeUtf8From (c :: cs) none bs
    | some (.inr p) => decodeUtf8From cs (some p) bs
    | none => .error .badStart
  | cs, some p, b :: bs =>
    if p.low ≤ b.toNat ∧ b.toNat ≤ p.high then
      let value := p.value * 64 + (b.toNat - 0x80)
      if p.missing = 1 then decodeUtf8From (Char.ofNat value :: cs) none bs
      else decodeUtf8From cs (some ⟨value, p.missing - 1, 0x80, 0xbf⟩) bs
    else .error .badContinuation

def decodeUtf8 (bs : List UInt8) : Except Utf8Fault (List Char) :=
  decodeUtf8From [] none bs

end WireSchema.Text
