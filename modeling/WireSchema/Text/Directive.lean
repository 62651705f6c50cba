import WireSchema.Text.Digits

/-!
# Directives

What a percent sign begins in a text: perhaps a key in parentheses, then flags, a width, a precision, a
size and a sign that says what is to be put there. Stars stand for numbers to be given. Two percent
signs next to each other are one that is text.
-/

namespace WireSchema.Text

structure Directive where
  /-- Laid out from the left. -/
  isLeft : Bool
  /-- The least width, unless it is to be given. -/
  width : Option Nat
  /-- The precision, if there is one, unless it is to be given. -/
  precision : Option (Option Nat)
  /-- Whether the sign stands right behind a number. -/
  isNumbered : Bool
  /-- What is to be put there, if the text does not end before. -/
  sign : Option Char
deriving DecidableEq, Repr

def maxDirectiveWidth : Nat := Nat.pow 2 63 - 1

def maxDirectivePrecision : Nat := Nat.pow 2 31 - 1

def behindKey? : Nat → List Char → Option (List Char)
  | _, [] => none
  | depth, c :: cs =>
    if c = '(' then behindKey? (depth + 1) cs
    else if c = ')' then
      match depth with
      | 0 => some cs
      | depth + 1 => behindKey? depth cs
    else behindKey? depth cs

/-- The number at the front, unless there is a star, and the rest. -/
private def leadingNumber : List Char → Option Nat × List Char
  | '*' :: cs => (none, cs)
  | cs => (some (ofDigits 10 (cs.takeWhile Char.isDigit)), cs.dropWhile Char.isDigit)

/-- What stands behind the flags of a directive, with its precision apart if there is one. -/
private def behindWidth (isNumbered : Bool) : List Char → Option (Option Nat) × Bool × List Char
  | '.' :: cs => (some (leadingNumber cs).1, cs.head?.any Char.isDigit, (leadingNumber cs).2)
  | cs => (none, isNumbered, cs)

def directive (cs : List Char) : Directive × List Char :=
  let isFlag (c : Char) : Bool := "-+ #0".toList.contains c
  let flags := cs.takeWhile isFlag
  let cs := cs.dropWhile isFlag
  let (precision, isNumbered, rest) := behindWidth (cs.head?.any Char.isDigit) (leadingNumber cs).2
  let isSized := rest.head?.any fun c => c = 'h' || c = 'l' || c = 'L'
  let rest := if isSized then rest.drop 1 else rest
  (⟨flags.contains '-', (leadingNumber cs).1, precision, isNumbered && !isSized, rest.head?⟩,
    rest.drop 1)

def Directive.layOut (d : Directive) (cs : List Char) : List Char :=
  let cs := cs.take (d.precision.join.getD cs.length)
  let filling := List.replicate (d.width.getD 0 - cs.length) ' '
  if d.isLeft then cs ++ filling else filling ++ cs

end WireSchema.Text
