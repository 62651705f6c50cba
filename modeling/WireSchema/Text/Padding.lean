import WireSchema.Text.Digits
import WireSchema.Text.Template

/-!
# Padding

How a text or an integer is laid out in a slot: what it is filled up with and on which side, its
sign, its base, groups of digits, the least width and the greatest length. A layout that does not go
with what is laid out is refused.
-/

namespace WireSchema.Text

structure Padding where
  fill : Char
  align : Option Char
  sign : Option Char
  isPositiveZero : Bool
  isAlternate : Bool
  /-- Filled up with zeros for want of anything else. -/
  isZeroFilled : Bool
  width : Nat
  group : Option Char
  length : Option Nat
  type : Option Char
deriving DecidableEq, Repr

private def isAlign (c : Char) : Bool := c = '<' || c = '>' || c = '=' || c = '^'

private def takeSign (p : Char → Bool) : List Char → Option Char × List Char
  | c :: cs => if p c then (some c, cs) else (none, c :: cs)
  | [] => (none, [])

private def groups (type : Option Char) (sign : Char) : Bool :=
  match type with
  | none => true
  | some t =>
    "defgEG%F".toList.contains t || (sign = '_' && "boxX".toList.contains t)

def padding? (cs : List Char) : Option Padding := do
  let (fill, align, cs) := match cs with
    | f :: a :: rest => if isAlign a then (some f, some a, rest)
      else if isAlign f then (none, some f, a :: rest) else (none, none, f :: a :: rest)
    | [a] => if isAlign a then (none, some a, []) else (none, none, [a])
    | [] => (none, none, [])
  let (sign, cs) := takeSign (fun c => c = ' ' || c = '+' || c = '-') cs
  let (positive, cs) := takeSign (· = 'z') cs
  let (alternate, cs) := takeSign (· = '#') cs
  let (zero, cs) := if fill.isNone then takeSign (· = '0') cs else (none, cs)
  let (width, cs) ← decimals? maxSlotNumber cs
  let (comma, cs) := takeSign (· = ',') cs
  let (line, cs) := takeSign (· = '_') cs
  if line.isSome && (comma.isSome || cs.head? = some ',') then none
  let group := comma <|> line
  let (point, cs) := takeSign (· = '.') cs
  let (length, cs) ← if point.isSome then decimals? maxSlotNumber cs else some (none, cs)
  if point.isSome && length.isNone then none
  let type ← match cs with
    | [] => some none
    | [c] => some (some c)
    | _ => none
  if group.any (!groups type ·) then none
  return { fill := fill.getD (if zero.isSome then '0' else ' '), align, sign,
           isPositiveZero := positive.isSome, isAlternate := alternate.isSome,
           isZeroFilled := zero.isSome, width := width.getD 0, group, length, type }

/-- Fills a text up to its width. The front stays in front of the filling if it goes between. -/
def Padding.fillUp (p : Padding) (align : Char) (front cs : List Char) : List Char :=
  let missing := p.width - (front.length + cs.length)
  let filling (n : Nat) := List.replicate n p.fill
  match p.align.getD align with
  | '<' => front ++ cs ++ filling missing
  | '=' => front ++ filling missing ++ cs
  | '^' => filling (missing / 2) ++ front ++ cs ++ filling (missing - missing / 2)
  | _ => filling missing ++ front ++ cs

def Padding.ofText? (p : Padding) (cs : List Char) : Option (List Char) :=
  if p.sign.isSome || p.isPositiveZero || p.isAlternate || p.align = some '=' || p.group.isSome ||
      p.type.any (· ≠ 's') then none
  else some (p.fillUp '<' [] (cs.take (p.length.getD cs.length)))

def Padding.isOfCharacter (p : Padding) : Bool := p.type = some 'c'

private def grouped (size : Nat) (sign : Char) (cs : List Char) : List Char :=
  (cs.reverse.zipIdx.flatMap fun (c, i) =>
    if i ≠ 0 && i % size = 0 then [sign, c] else [c]).reverse

/-- An integer laid out, unless it is to be written as a number that need not be whole. -/
def Padding.ofInteger? (p : Padding) (n : Int) : Option (List Char) :=
  let type := p.type.getD 'd'
  let sign := if n < 0 then ['-'] else match p.sign with
    | some '+' => ['+']
    | some ' ' => [' ']
    | _ => []
  let align := if p.isZeroFilled then '=' else '>'
  let write (base : Nat) (mark : List Char) (size : Nat) : List Char :=
    let ds := Nat.toDigits base n.natAbs
    let ds := if type = 'X' then ds.map Char.toUpper else ds
    p.fillUp align (sign ++ if p.isAlternate then mark else [])
      (p.group.elim ds fun g => grouped size g ds)
  if "eEfFgG%".toList.contains type then some (p.fillUp align sign (Nat.toDigits 10 n.natAbs))
  else if p.length.isSome || p.isPositiveZero then none
  else
    match type with
    | 'd' | 'n' => if isShowable n then some (write 10 [] 3) else none
    | 'b' => some (write 2 ['0', 'b'] 4)
    | 'o' => some (write 8 ['0', 'o'] 4)
    | 'x' => some (write 16 ['0', 'x'] 4)
    | 'X' => some (write 16 ['0', 'X'] 4)
    | 'c' => if p.sign.isSome || p.isAlternate then none
      else some (p.fillUp align [] [Char.ofNat n.toNat])
    | _ => none

end WireSchema.Text
