/-!
# Numbers of double precision

No type of a schema holds a number with a fraction, but a caller can offer one, and a message then
shows it. It is shown by the fewest digits that stand for it and for no other number of double
precision, the nearest of these to it: positionally from a ten-thousandth up to ten to the power of
sixteen, and with an exponent beyond.
-/

namespace WireSchema

/-- The number `units / 2 ^ 1074`, perhaps negative. All numbers of double precision are multiples
of one unit. Zero has a sign as well. -/
structure Double where
  negative : Bool
  units : Nat
deriving DecidableEq, Repr, Inhabited

namespace Double

def one : Nat := Nat.pow 2 1074

/-- How far it is from a number of so many units to the next one away from zero. A number has 53
binary digits. -/
def gap (units : Nat) : Nat := Nat.pow 2 (units.log2 - 52)

/-- The units of the number nearest to `a / b` units. Halfway between two, the last binary digit is
zero. -/
def nearest (a b : Nat) : Nat :=
  let g := b * gap (a / b)
  let q := a / g
  let r := a % g
  (if g < 2 * r || (g = 2 * r && q % 2 = 1) then q + 1 else q) * gap (a / b)

def ofDecimal (negative : Bool) (digits : Nat) (exponent : Int) : Double :=
  ⟨negative, nearest (digits * Nat.pow 10 exponent.toNat * one) (Nat.pow 10 (-exponent).toNat)⟩

def signed (d : Double) : Int := if d.negative then -d.units else d.units

def isZero (d : Double) : Bool := d.units = 0

def addInt (d : Double) (n : Int) : Double :=
  let sum := d.signed + n * one
  ⟨sum < 0, nearest sum.natAbs 1⟩

def equalsInt (d : Double) (n : Int) : Bool := d.signed = n * one

/-- Zero is the same with either sign. -/
def equals (d e : Double) : Bool := d.signed = e.signed

/-! ## The fewest digits -/

/-- So many decimal places are enough to tell any two numbers apart. -/
private def places : Nat := 400

/-- Whether a quotient is nearer to this number than to the ones on either side. It is given in
quarters of a unit, times `10 ^ places`. A quotient halfway between is nearest to the number whose
last binary digit is zero. -/
def rounds (units quarters : Nat) : Bool :=
  let g := gap units
  let below := if 1 < g && units = Nat.pow 2 52 * g then g else 2 * g
  let low := (4 * units - below) * Nat.pow 10 places
  let high := (4 * units + 2 * g) * Nat.pow 10 places
  low < quarters && quarters < high ||
    (units / g % 2 = 0 && (quarters = low || quarters = high))

/-- How many decimal digits there are before the point; less than none, if zeros follow it. -/
def wholeDigits (units : Nat) : Int :=
  (toString (units * Nat.pow 10 places / one)).length - places

/-- The best decimal with the point moved so that it has `n` digits before it, if one of the two
next to the number stands for it. -/
def decimal? (units n : Nat) : Option Nat :=
  let g := 4 * one * Nat.pow 10 (wholeDigits units - n + places).toNat
  let exact := 4 * units * Nat.pow 10 places
  let d := exact / g
  let r := exact % g
  match rounds units (d * g), rounds units ((d + 1) * g) with
  | true, true => some (if 2 * r < g || (2 * r = g && d % 2 = 0) then d else d + 1)
  | true, false => some d
  | false, true => some (d + 1)
  | false, false => none

/-- The fewest digits, without zeros at the end, and how many of them are before the point. Seventeen
are always enough. -/
def digits (units : Nat) : List Char × Int :=
  match (List.range 17).findSome? fun i => (decimal? units (i + 1)).map fun d => (i + 1, d) with
  | some (n, d) =>
    let cs := (toString d).toList
    ((cs.reverse.dropWhile (· = '0')).reverse, wholeDigits units - n + cs.length)
  | none => ([], 0)

private def zeros (n : Int) : List Char := List.replicate n.toNat '0'

def positional (cs : List Char) (point : Int) : List Char :=
  if point ≤ 0 then "0.".toList ++ zeros (-point) ++ cs
  else
    let behind := cs.drop point.toNat
    cs.take point.toNat ++ zeros (point - cs.length) ++ '.' ::
      (if behind.isEmpty then ['0'] else behind)

/-- One digit before the point, and an exponent of at least two digits. -/
def scientific (cs : List Char) (point : Int) : List Char :=
  let power := (toString (point - 1).natAbs).toList
  cs.take 1 ++ (if cs.length ≤ 1 then [] else '.' :: cs.drop 1) ++
    ['e', if point ≤ 0 then '-' else '+'] ++ zeros (2 - power.length) ++ power

/-- What rounds to more than any number of double precision is infinite. -/
def magnitudeText (units : Nat) : List Char :=
  if units = 0 then "0.0".toList
  else if Nat.pow 2 1024 * one ≤ units then "inf".toList
  else
    let (cs, point) := digits units
    if -4 < point ∧ point ≤ 16 then positional cs point else scientific cs point

def text (d : Double) : String :=
  String.ofList (if d.negative then '-' :: magnitudeText d.units else magnitudeText d.units)

end Double

end WireSchema
