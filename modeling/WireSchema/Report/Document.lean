import WireSchema.Text.Digits

/-!
# Structured documents

A tree of named and listed parts, and its text: every part on a line of its own, two columns
further in than the whole it belongs to. The text is ASCII. Characters outside it are written as
one or two sixteen-bit units.
-/

namespace WireSchema

inductive Document where
  | null
  | bool (b : Bool)
  | number (n : Int)
  | text (s : String)
  | list (items : List Document)
  | object (members : List (String × Document))
deriving BEq, Repr, Inhabited

namespace Document

def ofOption {α : Type} (f : α → Document) : Option α → Document
  | some a => f a
  | none => null

def ofNat (n : Nat) : Document := number n

private def unit (n : Nat) : List Char := '\x5c' :: 'u' :: Text.hex 4 n

def escapeChar (c : Char) : List Char :=
  if c = '\x22' ∨ c = '\x5c' then ['\x5c', c]
  else if c = '\n' then ['\x5c', 'n']
  else if c = '\r' then ['\x5c', 'r']
  else if c = '\t' then ['\x5c', 't']
  else if c = '\x08' then ['\x5c', 'b']
  else if c = '\x0c' then ['\x5c', 'f']
  else if ' ' ≤ c ∧ c ≤ '~' then [c]
  else if c.toNat < 0x10000 then unit c.toNat
  else
    let n := c.toNat - 0x10000
    unit (0xd800 + n / 0x400) ++ unit (0xdc00 + n % 0x400)

def textLiteral (s : String) : String :=
  .ofList ('\x22' :: s.toList.flatMap escapeChar ++ ['\x22'])

private def newline (indent : Nat) : String :=
  "\n" ++ String.ofList (List.replicate indent ' ')

mutual
/-- The text of a document that starts at a column. -/
def renderAt (indent : Nat) : Document → String
  | null => "null"
  | bool b => if b then "true" else "false"
  | number n => toString n
  | text s => textLiteral s
  | list [] => "[]"
  | list (d :: ds) =>
    "[" ++ newline (indent + 2) ++ renderAt (indent + 2) d ++ renderItems (indent + 2) ds
      ++ newline indent ++ "]"
  | object [] => "\x7b\x7d"
  | object ((key, d) :: ms) =>
    "\x7b" ++ newline (indent + 2) ++ textLiteral key ++ ": " ++ renderAt (indent + 2) d
      ++ renderMembers (indent + 2) ms ++ newline indent ++ "\x7d"

def renderItems (indent : Nat) : List Document → String
  | [] => ""
  | d :: ds => "," ++ newline indent ++ renderAt indent d ++ renderItems indent ds

def renderMembers (indent : Nat) : List (String × Document) → String
  | [] => ""
  | (key, d) :: ms =>
    "," ++ newline indent ++ textLiteral key ++ ": " ++ renderAt indent d
      ++ renderMembers indent ms
end

def render (d : Document) : String := renderAt 0 d

end Document

end WireSchema
