/-!
# Places in a text

A location is a line and a column, both counted from one. Only a line feed ends a line, so a tab
or a carriage return is one column like any other character. A cursor is a location together with
the characters from there on; reading moves it forward, and `Location.advance` says where it is
after a given stretch of text.
-/

namespace WireSchema

/-- The numbers are integers because two places lie outside the text: `Location.endOfText`, and
the column zero of an annotation whose name stands in the first column. -/
structure Location where
  line : Int
  column : Int
deriving DecidableEq, Repr, Inhabited

namespace Location

def start : Location := ⟨1, 1⟩

def endOfText : Location := ⟨-1, -1⟩

def next (l : Location) (c : Char) : Location :=
  if c = '\n' then ⟨l.line + 1, 1⟩ else ⟨l.line, l.column + 1⟩

def advance (l : Location) (cs : List Char) : Location :=
  cs.foldl next l

@[simp] theorem advance_nil (l : Location) : l.advance [] = l := rfl

@[simp] theorem advance_cons (l : Location) (c : Char) (cs : List Char) :
    l.advance (c :: cs) = (l.next c).advance cs := rfl

theorem advance_append (l : Location) (cs ds : List Char) :
    l.advance (cs ++ ds) = (l.advance cs).advance ds := by
  simp [advance]

def left (l : Location) : Location := ⟨l.line, l.column - 1⟩

def text (l : Location) : String := s!"{l.line}:{l.column}"

end Location

structure Cursor where
  rest : List Char
  location : Location
deriving Repr

namespace Cursor

def ofString (s : String) : Cursor := ⟨s.toList, .start⟩

/-- The longest stretch whose characters all satisfy `p`, and the cursor behind it. -/
def span (s : Cursor) (p : Char → Bool) : List Char × Cursor :=
  let taken := s.rest.takeWhile p
  (taken, ⟨s.rest.dropWhile p, s.location.advance taken⟩)

theorem span_append (s : Cursor) (p : Char → Bool) :
    (s.span p).1 ++ (s.span p).2.rest = s.rest :=
  List.takeWhile_append_dropWhile

def after? (s : Cursor) (cs : List Char) : Option Cursor :=
  if cs.isPrefixOf s.rest then some ⟨s.rest.drop cs.length, s.location.advance cs⟩ else none

theorem rest_of_after? {s t : Cursor} {cs : List Char} (h : s.after? cs = some t) :
    s.rest = cs ++ t.rest := by
  unfold after? at h
  split at h
  next hp =>
    obtain ⟨r, hr⟩ := List.isPrefixOf_iff_prefix.1 hp
    cases h
    simp [← hr]
  next => cases h

end Cursor

end WireSchema
