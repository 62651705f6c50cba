/-!
# Digits

Reading and writing numbers in a given base, most significant digit first. Numbers of base ten are
read and shown up to a length only.
-/

namespace WireSchema.Text

/-- The value of a digit of base sixteen or below, in either case. -/
def digit? (c : Char) : Option Nat :=
  if '0' ≤ c ∧ c ≤ '9' then some (c.toNat - 48)
  else if 'a' ≤ c ∧ c ≤ 'f' then some (c.toNat - 87)
  else if 'A' ≤ c ∧ c ≤ 'F' then some (c.toNat - 55)
  else none

def isDigitOf (base : Nat) (c : Char) : Bool :=
  match digit? c with
  | some d => d < base
  | none => false

/-- The number that digits spell in a base. A character that is no digit counts as zero. -/
def ofDigits (base : Nat) (cs : List Char) : Nat :=
  cs.foldl (fun n c => n * base + (digit? c).getD 0) 0

theorem ofDigits_concat (base : Nat) (cs : List Char) (c : Char) :
    ofDigits base (cs ++ [c]) = ofDigits base cs * base + (digit? c).getD 0 := by
  simp [ofDigits]

def hex : Nat → Nat → List Char
  | 0, _ => []
  | width + 1, n => hex width (n / 16) ++ [Nat.digitChar (n % 16)]

/-- The most digits that a number of base ten can have where it is read or shown. -/
def maxDigits : Nat := 4300

@[irreducible]
def isShowable (n : Int) : Bool := n.natAbs < Nat.pow 10 maxDigits

end WireSchema.Text
