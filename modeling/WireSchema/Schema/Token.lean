import WireSchema.Text.Blank
import WireSchema.Text.Digits
import WireSchema.Text.Location

/-!
# Tokens

The text is not cut into tokens beforehand. At each place the grammar asks for one of a few tokens,
each of which takes the longest text it matches there, once white space and comments are skipped.
So a keyword needs no blank behind it, and the same characters can be a name at one place and a
discriminant at another.

A reader moves a cursor forward, or stops at the first character that nothing allowed at its place
matches. The place that is reported can lie behind that one: the sign of a comment in a string
literal casts a shadow up to the end of its line, as if a comment began there, and in a shadow
nothing comes to notice.
-/

namespace WireSchema

abbrev Reader := StateT Cursor (Except Cursor)

/-- White space and comments from the front of `cs`, which starts at `l`, left out. A comment goes
on up to the end of its line. -/
def skipGap (inComment : Bool) (l : Location) : List Char → Cursor
  | [] => ⟨[], l⟩
  | c :: cs =>
    if Text.isLayout c then skipGap (inComment && c != '\n') (l.next c) cs
    else if inComment || c = '#' then skipGap true (l.next c) cs
    else ⟨c :: cs, l⟩

namespace Cursor

def token (s : Cursor) : Cursor := skipGap false s.location s.rest

def atEnd (s : Cursor) : Bool := s.token.rest.isEmpty

def startsWith (s : Cursor) (cs : List Char) : Bool := cs.isPrefixOf s.token.rest

end Cursor

def isNameStart (c : Char) : Bool := c.isAlpha || c = '_'

def isNameChar (c : Char) : Bool := c.isAlphanum || c = '_'

/-- The characters of a discriminant are all but blanks and the signs of the grammar. -/
def isDiscriminantChar (c : Char) : Bool :=
  !Text.isBlank c && !("\x7b\x7d()[]<>,@#=".toList.contains c)

/-- The inside of a string literal and the text behind its closing mark, given the text behind its
opening mark. A mark after a backslash does not close, and a literal stays on one line. -/
def closeString : List Char → Option (List Char × List Char)
  | [] => none
  | c :: cs =>
    if c = '\n' then none
    else if c = '\x22' then some ([], cs)
    else if c = '\x5c' then
      match cs with
      | [] => none
      | d :: ds => if d = '\n' then none else (closeString ds).map fun r => (c :: d :: r.1, r.2)
    else (closeString cs).map fun r => (c :: r.1, r.2)

theorem append_of_closeString {cs body rest : List Char} (h : closeString cs = some (body, rest)) :
    cs = body ++ '\x22' :: rest := by
  fun_induction closeString cs generalizing body rest with
  | case1 => cases h
  | case2 => cases h
  | case3 => simp_all
  | case4 => cases h
  | case5 => cases h
  | case6 _ d _ _ _ ih =>
    obtain ⟨r, hr, he⟩ := Option.map_eq_some_iff.1 h
    cases he
    simp [ih hr]
  | case7 _ _ _ _ _ ih =>
    obtain ⟨r, hr, he⟩ := Option.map_eq_some_iff.1 h
    cases he
    simp [ih hr]

namespace Reader

/-- Nothing allowed here matches. -/
def unexpected {α : Type} : Reader α := fun s => .error s.token

def sign (text : String) : Reader Unit := fun s =>
  match s.token.after? text.toList with
  | some t => .ok ((), t)
  | none => .error s.token

def nextIs (text : String) : Reader Bool := fun s => .ok (s.startsWith text.toList, s)

def atEnd : Reader Bool := fun s => .ok (s.atEnd, s)

/-- A longest stretch of characters in `p` whose first one is in `first`, with its location. -/
def stretch (first p : Char → Bool) : Reader (String × Location) := fun s =>
  match s.token.rest with
  | c :: _ =>
    if first c then
      let (taken, t) := s.token.span p
      .ok ((String.ofList taken, s.token.location), t)
    else .error s.token
  | [] => .error s.token

def name : Reader (String × Location) := stretch isNameStart isNameChar

def integer : Reader (Nat × Location) := do
  let (digits, l) ← stretch Char.isDigit Char.isDigit
  return (Text.ofDigits 10 digits.toList, l)

def discriminant : Reader String := do
  let (text, _) ← stretch isDiscriminantChar isDiscriminantChar
  return text

def string : Reader (String × Location) := fun s =>
  match s.token.rest with
  | '\x22' :: cs =>
    match closeString cs with
    | some (body, rest) =>
      .ok ((String.ofList body, s.token.location),
        ⟨rest, s.token.location.advance ('\x22' :: body ++ ['\x22'])⟩)
    | none => .error s.token
  | _ => .error s.token

/-- Items as long as there are more. Each takes up text, so the length of the text bounds their
number. -/
def manyUpTo {α : Type} (more : Cursor → Bool) (item : Reader α) : Nat → Reader (List α)
  | 0 => pure []
  | n + 1 => fun s =>
    if more s then
      match item s with
      | .error l => .error l
      | .ok (a, t) =>
        match manyUpTo more item n t with
        | .error l => .error l
        | .ok (as, u) => .ok (a :: as, u)
    else .ok ([], s)

/-- What is read starts with an item, or nothing is read as there are no more. -/
theorem of_manyUpTo_succ {α : Type} {more : Cursor → Bool} {item : Reader α} {n : Nat}
    {s t : Cursor} {as : List α} (h : manyUpTo more item (n + 1) s = .ok (as, t)) :
    (∃ a u as', item s = .ok (a, u) ∧ manyUpTo more item n u = .ok (as', t) ∧ as = a :: as') ∨
      more s = false ∧ as = [] ∧ t = s := by
  rw [manyUpTo] at h
  dsimp only at h
  split at h
  next =>
    split at h
    next => cases h
    next a u hitem =>
      split at h
      next => cases h
      next as' v hrest =>
        cases h
        exact .inl ⟨a, u, as', hitem, hrest, rfl⟩
  next hmore =>
    cases h
    exact .inr ⟨eq_false_of_ne_true hmore, rfl, rfl⟩

def many {α : Type} (more : Cursor → Bool) (item : Reader α) : Reader (List α) := fun s =>
  manyUpTo more item s.rest.length s

/-- Items with a comma between them, and perhaps one behind the last, before the sign `close`. -/
def commaSeparatedUpTo {α : Type} (close : String) (item : Reader α) : Nat → Reader (List α)
  | 0 => do
    sign close
    return []
  | n + 1 => do
    if ← nextIs close then
      sign close
      return []
    let a ← item
    if ← nextIs "," then
      sign ","
      let as ← commaSeparatedUpTo close item n
      return a :: as
    sign close
    return [a]

def commaSeparated {α : Type} (close : String) (item : Reader α) : Reader (List α) := fun s =>
  commaSeparatedUpTo close item s.rest.length s

end Reader

end WireSchema
