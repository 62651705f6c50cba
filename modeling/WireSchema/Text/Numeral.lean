import WireSchema.Text.Digits

/-!
# Numerals

Numbers as they are written in bytes, with blanks around them: a sign, digits that a single low line
may part, and for a number that need not be whole a point and an exponent, or a word in any case. The
blanks are those of ASCII.
-/

namespace WireSchema.Text

def isNumeralBlank (c : Char) : Bool := c = ' ' || ('\t' ≤ c && c ≤ '\r')

/-- The text without the blanks around it. -/
def trimmed (cs : List Char) : List Char :=
  ((cs.dropWhile isNumeralBlank).reverse.dropWhile isNumeralBlank).reverse

def signed : List Char → Bool × List Char
  | '-' :: cs => (true, cs)
  | '+' :: cs => (false, cs)
  | cs => (false, cs)

/-- The text without its low lines, if each of them stands between two digits. -/
def joined? : List Char → Option (List Char)
  | [] => some []
  | '_' :: _ => none
  | [c] => some [c]
  | c :: '_' :: d :: cs =>
    if c.isDigit && d.isDigit then (joined? (d :: cs)).map (c :: ·) else none
  | c :: cs => (joined? cs).map (c :: ·)

def integer? (cs : List Char) : Option Int :=
  let (negative, cs) := signed (trimmed cs)
  match joined? cs with
  | some ds =>
    if !ds.isEmpty && ds.all Char.isDigit && ds.length ≤ maxDigits then
      let n : Int := ofDigits 10 ds
      some (if negative then -n else n)
    else none
  | none => none

/-- Whether a text is an exponent or none at all. -/
def isExponent : List Char → Bool
  | [] => true
  | c :: cs =>
    let ds := (signed cs).2
    (c = 'e' || c = 'E') && !ds.isEmpty && ds.all Char.isDigit

/-- Whether a text spells a number without its sign. -/
def isMagnitude (cs : List Char) : Bool :=
  ["inf", "infinity", "nan"].contains (String.ofList (cs.map Char.toLower)) ||
    match joined? cs with
    | some cs =>
      let whole := cs.takeWhile Char.isDigit
      match cs.dropWhile Char.isDigit with
      | '.' :: rest =>
        let part := rest.takeWhile Char.isDigit
        !(whole.isEmpty && part.isEmpty) && isExponent (rest.dropWhile Char.isDigit)
      | rest => !whole.isEmpty && isExponent rest
    | none => false

def isNumeral (cs : List Char) : Bool := isMagnitude (signed (trimmed cs)).2

def ofBytes (bs : List UInt8) : List Char := bs.map fun b => Char.ofNat b.toNat

end WireSchema.Text
