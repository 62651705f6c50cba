import WireSchema.Text.Decimal

/-!
# Templates

Texts with slots in braces. A slot names what is to be put there, and may say how it is turned into a
text and how that text is laid out; the layout can have slots again. A brace that is text is written
twice. What a slot names starts with a name or a number and goes on through members and items of it.

A template is read from left to right, a slot at a time, so that a slot can be filled before the text
behind it turns out to be malformed.
-/

namespace WireSchema.Text

structure Slot where
  /-- What is to be put there. -/
  target : List Char
  conversion : Option Char
  layout : List Char
deriving DecidableEq, Repr

/-- The text up to the next slot, and what follows its opening brace, if there is a slot. -/
def literal? : List Char → Option (List Char × Option (List Char))
  | [] => some ([], none)
  | '\x7b' :: '\x7b' :: cs => (literal? cs).map fun r => ('\x7b' :: r.1, r.2)
  | ['\x7b'] => none
  | '\x7b' :: cs => some ([], some cs)
  | '\x7d' :: '\x7d' :: cs => (literal? cs).map fun r => ('\x7d' :: r.1, r.2)
  | '\x7d' :: _ => none
  | c :: cs => (literal? cs).map fun r => (c :: r.1, r.2)

/-- The target of a slot, the sign that ends it, and what follows. Signs count for nothing between
brackets. -/
def target? (isItem : Bool) : List Char → Option (List Char × Char × List Char)
  | [] => none
  | c :: cs =>
    if isItem then (target? (c ≠ ']') cs).map fun r => (c :: r.1, r.2)
    else if c = '\x7b' then none
    else if c = '\x7d' || c = ':' || c = '!' then some ([], c, cs)
    else (target? (c = '[') cs).map fun r => (c :: r.1, r.2)

def layout? : Nat → List Char → Option (List Char × List Char)
  | _, [] => none
  | depth, c :: cs =>
    match c, depth with
    | '\x7d', 0 => some ([], cs)
    | '\x7d', depth + 1 => (layout? depth cs).map fun r => (c :: r.1, r.2)
    | '\x7b', depth => (layout? (depth + 1) cs).map fun r => (c :: r.1, r.2)
    | _, depth => (layout? depth cs).map fun r => (c :: r.1, r.2)

/-- The slot behind an opening brace, and what follows it. -/
def slot? (cs : List Char) : Option (Slot × List Char) := do
  match ← target? false cs with
  | (target, '\x7d', rest) => return (⟨target, none, []⟩, rest)
  | (target, '!', c :: '\x7d' :: rest) => return (⟨target, some c, []⟩, rest)
  | (target, '!', c :: ':' :: rest) =>
    let (layout, rest) ← layout? 0 rest
    return (⟨target, some c, layout⟩, rest)
  | (_, '!', _) => none
  | (target, _, rest) =>
    let (layout, rest) ← layout? 0 rest
    return (⟨target, none, layout⟩, rest)

/-! ## Targets -/

/-- What a target starts with, and the rest. -/
def targetHead (cs : List Char) : List Char × List Char :=
  let isStep (c : Char) : Bool := c = '.' || c = '['
  (cs.takeWhile (!isStep ·), cs.dropWhile (!isStep ·))

def maxSlotNumber : Nat := Nat.pow 2 63 - 1

/-- The number that a name spells, if it does. A name that starts with too great a number cannot be
read. -/
def index? (cs : List Char) : Option (Option Nat) := do
  let (n?, rest) ← decimals? maxSlotNumber cs
  return if rest.isEmpty then n? else none

/-- One step of a target: to a member or to an item. -/
inductive TargetStep where
  | member (name : String)
  | item (key : List Char)
deriving DecidableEq, Repr

def targetStep? (cs : List Char) : Option (TargetStep × List Char) :=
  match cs with
  | '.' :: cs =>
    let (name, rest) := targetHead cs
    if name.isEmpty then none else some (.member (.ofList name), rest)
  | '[' :: cs =>
    let key := cs.takeWhile (· ≠ ']')
    match cs.dropWhile (· ≠ ']') with
    | _ :: rest => if key.isEmpty then none else some (.item key, rest)
    | [] => none
  | _ => none

end WireSchema.Text
