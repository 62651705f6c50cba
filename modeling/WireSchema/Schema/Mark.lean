import WireSchema.Schema.Phrase
import WireSchema.Text.Escape

/-!
# Declarations written out

The declarations of a schema as a row of marks: the words that a text of theirs has, in order, and
the place at which each of those stands that the schema has a place for. A text is marked out by
such a row if its tokens say these words, each where the schema has it.

A mark says what a token stands for and not how it is written, so leading zeros of a number make no
difference.
-/

namespace WireSchema

/-- The place behind these characters at the start of a text. Lines and columns are counted from
one, and only a line feed ends a line. -/
def Location.behind (cs : List Char) : Location :=
  ⟨1 + cs.count '\n', 1 + (cs.reverse.takeWhile (· ≠ '\n')).length⟩

def Location.right (l : Location) : Location := ⟨l.line, l.column + 1⟩

/-- What a token stands for. -/
inductive Word where
  | sign (text : String)
  | name (text : String)
  | number (n : Nat)
  | literal (points : List Nat)
  | discriminant (text : String)
deriving DecidableEq, Repr

inductive Mark where
  | word (w : Word) (place : Option Location)
  /-- A comma that can be left out. -/
  | comma
deriving DecidableEq, Repr

/-! ## Rows of marks -/

namespace Mark

def sign (text : String) : Mark := word (.sign text) none

def name (text : String) (l : Location) : Mark := word (.name text) (some l)

def listed : List (List Mark) → List Mark
  | [] => []
  | [ms] => ms ++ [comma]
  | ms :: items => ms ++ sign "," :: listed items

end Mark

open Mark (sign)

mutual
/-- The marks of a type, the first of which is at a place. -/
def TypeExpr.marks (place : Option Location) : TypeExpr → List Mark
  | .named n => [.word (.name n) place]
  | .applied n args =>
    .word (.name n) place :: sign "<" :: (typeMarks args ++ [sign ">"])
  | .array element size =>
    element.marks place ++ [sign "[", .word (.number size) none, sign "]"]

def typeMarks : List TypeExpr → List Mark
  | [] => []
  | [t] => t.marks none
  | t :: ts => t.marks none ++ sign "," :: typeMarks ts
end

def Literal.mark (l : Location) : Literal → Mark
  | string text => .word (.literal (text.toList.map Char.toNat)) (some l)
  | codePoints points => .word (.literal points) (some l)
  | integer n => .word (.number n) (some l)
  | name text => .name text l

def Argument.marks : Argument → List Mark
  | keyed key value l valueLocation => [.name key l, sign "=", value.mark valueLocation]
  | flag key l => [.name key l]
  | bare value l => [value.mark l]

/-- The name of a block stands one column to the right of the place of the block. -/
def AnnotationBlock.marks (b : AnnotationBlock) : List Mark :=
  sign "@" :: .name b.name b.location.right :: sign "(" ::
    (Mark.listed (b.arguments.map Argument.marks) ++ [sign ")"])

/-- A field without a name is where its type starts, behind its annotations. -/
def Field.marks (f : Field) : List Mark :=
  f.annotations.flatMap AnnotationBlock.marks ++
    match f.name with
    | some n => .name n f.location :: sign ":" :: f.type.marks none
    | none => f.type.marks (some f.location)

/-- The body of a unit has no signs, and if it is from a text it has no fields. -/
def bodyMarks : Shape → List Field → List Mark
  | .named, fields => sign "\x7b" :: (fields.flatMap (·.marks ++ [.comma]) ++ [sign "\x7d"])
  | .tuple, fields => sign "(" :: (Mark.listed (fields.map Field.marks) ++ [sign ")"])
  | .unit, fields => fields.flatMap Field.marks

def tagMarks : Option String → List Mark
  | some d => [sign "=", .word (.discriminant d) none]
  | none => []

def Variant.marks (v : Variant) : List Mark :=
  v.annotations.flatMap AnnotationBlock.marks ++
    .name v.name v.location :: (bodyMarks v.shape v.fields ++ tagMarks v.discriminant)

def Record.marks (r : Record) : List Mark :=
  r.annotations.flatMap AnnotationBlock.marks ++
    sign "struct" :: .name r.name r.location :: bodyMarks r.shape r.fields

def Union.marks (u : Union) : List Mark :=
  u.annotations.flatMap AnnotationBlock.marks ++
    sign "union" :: .name u.name u.location :: sign "\x7b" ::
      (u.variants.flatMap Variant.marks ++ [sign "\x7d"])

def declarationMarks : Record ⊕ Union → List Mark := Sum.elim Record.marks Union.marks

/-! ## Marked texts -/

def Token.chars : Token → List Char
  | sign text => text.toList
  | name text => text.toList
  | integer digits => digits.toList
  | discriminant text => text.toList
  | string body => '\x22' :: body.toList ++ ['\x22']

/-- What a token says. A string literal says the code points that its inside stands for. -/
inductive Token.Says [Text.CharacterNames] : Token → Word → Prop
  | sign (text : String) : Says (.sign text) (.sign text)
  | name (text : String) : Says (.name text) (.name text)
  | integer (digits : String) : Says (.integer digits) (.number (Text.ofDigits 10 digits.toList))
  | string {body : String} {points : List Nat} :
    Text.unescape? body.toList = some points → Says (.string body) (.literal points)
  | discriminant (text : String) : Says (.discriminant text) (.discriminant text)

/-- The text from one cursor to another is a row of tokens that say these words, each at the place
that its mark has, with a gap in front of each token. -/
inductive Marked [Text.CharacterNames] : Cursor → List Mark → Cursor → Prop
  | nil (s : Cursor) : Marked s [] s
  | word {s t u v : Cursor} {x : Token} {w : Word} {place : Option Location} {ms : List Mark} :
    Gap s t → x.Covers t u → x.Says w → (∀ l ∈ place, l = t.location) → Marked u ms v →
      Marked s (.word w place :: ms) v
  | comma {s t u v : Cursor} {ms : List Mark} :
    Gap s t → (Token.sign ",").Covers t u → Marked u ms v → Marked s (.comma :: ms) v
  | noComma {s t : Cursor} {ms : List Mark} : Marked s ms t → Marked s (.comma :: ms) t

/-- At this place of a text a token starts. -/
def TokenAt [Text.CharacterNames] (text : String) (w : Word) (l : Location) : Prop :=
  ∃ (before : List Char) (x : Token) (behind : List Char),
    text.toList = before ++ x.chars ++ behind ∧ x.Says w ∧ l = .behind before

/-- A text is marked out by a row of marks, with a gap behind the last. -/
def MarkedOut [Text.CharacterNames] (text : String) (ms : List Mark) : Prop :=
  ∃ t u, Marked (Cursor.ofString text) ms t ∧ Gap t u ∧ u.rest = []

end WireSchema
