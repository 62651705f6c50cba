import WireSchema.Text.Directive
import WireSchema.Wire.Fault

/-!
# Putting things into directives

A text with percent signs is asked with a single thing, which is put in for the one directive that
there can be. If the thing has items that are asked for by keys, it need not be put in at all.
-/

namespace WireSchema

def maxLaidOut : Nat := Nat.pow 2 24

structure Filling where
  /-- Whether it has items that can be asked for. None of them has a text for its key. -/
  isMapping : Bool
  /-- What becomes of it under a sign, which can stand right behind a number. -/
  write (isNumbered : Bool) (sign : Char) : Except Fault (List Char)

namespace Filling

variable (f : Filling)

/-- The number of a directive has to be there, and not to be too great. -/
private def isTold (limit : Nat) : Option Nat → Except Fault Unit
  | none => throw .wrongKind
  | some n => if limit < n then throw .unfit else return ()

/-- The text behind a directive's percent sign, where `next` goes on with the rest of the text. Both
say whether the filling is used up. -/
private def putIn (next : Bool → List Char → Except Fault (List Char × Bool)) (isUsed : Bool)
    (cs : List Char) : Except Fault (List Char × Bool) := do
  match cs with
  | '%' :: cs =>
    let (others, isUsed) ← next isUsed cs
    return ('%' :: others, isUsed)
  | '(' :: cs =>
    if f.isMapping then throw (if (Text.behindKey? 0 cs).isSome then .wrongKind else .unfit)
    else throw .wrongKind
  | cs =>
    let (d, rest) := Text.directive cs
    isTold Text.maxDirectiveWidth d.width
    d.precision.forM (isTold Text.maxDirectivePrecision)
    match d.sign with
    | none => throw .unfit
    | some c =>
      if isUsed then throw .wrongKind
      let put ← f.write d.isNumbered c
      if maxLaidOut < d.width.getD 0 then throw .noRoom
      let (others, isUsed) ← next true rest
      return (d.layOut put ++ others, isUsed)

/-- The text with the filling put in, of which so many characters are looked at. -/
private def putInto : Nat → Bool → List Char → Except Fault (List Char × Bool)
  | 0, isUsed, _ | _, isUsed, [] => .ok ([], isUsed)
  | n + 1, isUsed, '%' :: cs => f.putIn (putInto n) isUsed cs
  | n + 1, isUsed, c :: cs => do
    let (others, isUsed) ← putInto n isUsed cs
    return (c :: others, isUsed)

/-- The text with the filling put in. One that is left over has to have items. -/
def fill (cs : List Char) : Except Fault (List Char) := do
  let (put, isUsed) ← f.putInto cs.length false cs
  if f.isMapping || isUsed then return put else throw .wrongKind

end Filling

end WireSchema
