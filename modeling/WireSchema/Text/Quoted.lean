import WireSchema.Text.Digits
import WireSchema.Text.Printable

/-!
# Quoted text

How a text or a byte string is shown in messages and in emitted code: between single quotes,
unless it holds a single quote and no double one. The closing mark and the backslash are escaped,
line feed, carriage return and tab have letters, and what is not printable is shown by number.
-/

namespace WireSchema.Text

private def single : Char := '\x27'
private def double : Char := '\x22'
private def backslash : Char := '\x5c'

def quoteMark (cs : List Char) : Char :=
  if cs.contains single && !cs.contains double then double else single

/-- The escapes that do not depend on what counts as printable. -/
private def lettered? (mark c : Char) : Option (List Char) :=
  if c = mark ∨ c = backslash then some [backslash, c]
  else if c = '\n' then some [backslash, 'n']
  else if c = '\r' then some [backslash, 'r']
  else if c = '\t' then some [backslash, 't']
  else none

def quoteChar (mark c : Char) : List Char :=
  match lettered? mark c with
  | some cs => cs
  | none =>
    if isPrintable c then [c]
    else if c.toNat < 0x100 then backslash :: 'x' :: hex 2 c.toNat
    else if c.toNat < 0x10000 then backslash :: 'u' :: hex 4 c.toNat
    else backslash :: 'U' :: hex 8 c.toNat

def quoted (s : String) : String :=
  let cs := s.toList
  let mark := quoteMark cs
  .ofList (mark :: cs.flatMap (quoteChar mark) ++ [mark])

private def charOfByte (b : UInt8) : Char := Char.ofNat b.toNat

def quoteByte (mark : Char) (b : UInt8) : List Char :=
  match lettered? mark (charOfByte b) with
  | some cs => cs
  | none =>
    if 0x20 ≤ b ∧ b < 0x7f then [charOfByte b] else backslash :: 'x' :: hex 2 b.toNat

def quotedBytes (bs : List UInt8) : String :=
  let mark := quoteMark (bs.map charOfByte)
  .ofList ('b' :: mark :: bs.flatMap (quoteByte mark) ++ [mark])

end WireSchema.Text
