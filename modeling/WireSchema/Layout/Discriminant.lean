import WireSchema.Layout.Fault
import WireSchema.Layout.HookPath

/-!
# Discriminants

The number behind a variant's name is a decimal literal of at most 128 bits, in which underscores
may stand anywhere but in front. It is read only if it has no more digits than a number can be read
from, leading zeros among them. Literals of other bases are recognised only to say so. As in hook
paths, a line feed at the very end is tolerated.
-/

namespace WireSchema

def maxTagValue : Nat := Nat.pow 2 128 - 1

def isDecimalLiteral : List Char → Bool
  | [] => false
  | c :: cs => c.isDigit && cs.all fun d => d.isDigit || d = '_'

def announcedBase? : List Char → Option Nat
  | '0' :: c :: _ =>
    if c = 'x' ∨ c = 'X' then some 16
    else if c = 'o' ∨ c = 'O' then some 8
    else if c = 'b' ∨ c = 'B' then some 2
    else none
  | _ => none

/-- A literal of another base: the announcement, and then digits of the base and underscores, at
least one of either. -/
def isBasedLiteral (cs : List Char) : Bool :=
  match announcedBase? cs with
  | some base =>
    !(cs.drop 2).isEmpty && (cs.drop 2).all fun c => Text.isDigitOf base c || c = '_'
  | none => false

def decimalDigits (cs : List Char) : List Char := cs.filter (· ≠ '_')

def decimalValue (cs : List Char) : Nat := Text.ofDigits 10 (decimalDigits cs)

def isTooLong (text : String) : Bool :=
  let cs := withoutFinalNewline text.toList
  isDecimalLiteral cs && Text.maxDigits < (decimalDigits cs).length

def readDiscriminant (text : String) (l : Location) : Resolved Nat :=
  let cs := withoutFinalNewline text.toList
  if isDecimalLiteral cs then
    if Text.maxDigits < (decimalDigits cs).length then unresolved .discriminantTooLong l
    else if decimalValue cs ≤ maxTagValue then pure (decimalValue cs)
    else unresolved .discriminantTooLarge l
  else if isBasedLiteral cs then unresolved .discriminantNotDecimal l
  else unresolved .discriminantNotInteger l

end WireSchema
