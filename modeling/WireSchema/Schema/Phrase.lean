import WireSchema.Schema.Reader
import WireSchema.Schema.Spelling

/-!
# Rows of tokens

The grammar once more, without gaps and places: which rows of tokens spell what. A text is a row of
tokens with gaps around them, and the same text can be more than one row: the same characters can be
a keyword and a name, or one name, or a discriminant.

Every place in what is spelled is the start of the text.
-/

namespace WireSchema

inductive Token where
  | sign (text : String)
  | name (text : String)
  | integer (digits : String)
  | discriminant (text : String)
  | string (body : String)
deriving DecidableEq, Repr

/-- The text from one cursor to another is a token, which the characters behind do not prolong. -/
def Token.Covers : Token → Cursor → Cursor → Prop
  | sign text, s, t => text.toList ≠ [] ∧ s.Covers text.toList t
  | name text, s, t => Rule.Stretch isNameStart isNameChar s (text, s.location) t
  | integer digits, s, t => Rule.Stretch Char.isDigit Char.isDigit s (digits, s.location) t
  | discriminant text, s, t =>
    Rule.Stretch isDiscriminantChar isDiscriminantChar s (text, s.location) t
  | string body, s, t =>
    s.Covers ('\x22' :: body.toList ++ ['\x22']) t ∧ Rule.Inside body.toList

/-- The text from one cursor to another is a row of tokens, each with a gap in front of it. -/
inductive Tokens : Cursor → List Token → Cursor → Prop
  | nil (s : Cursor) : Tokens s [] s
  | cons {s t u v : Cursor} {x : Token} {xs : List Token} :
    Gap s t → x.Covers t u → Tokens u xs v → Tokens s (x :: xs) v

/-- A text is a row of tokens, with gaps before, between and behind them. -/
def Lexed (text : String) (xs : List Token) : Prop :=
  ∃ t u, Tokens (Cursor.ofString text) xs t ∧ Gap t u ∧ u.rest = []

/-- What a row of tokens spells. -/
def Phrase (α : Type) := List Token → α → Prop

namespace Phrase

instance : Monad Phrase where
  pure a := fun xs b => xs = [] ∧ b = a
  bind p k := fun xs b => ∃ ys a zs, xs = ys ++ zs ∧ p ys a ∧ k a zs b

variable {α : Type}

/-- Either of two phrases. -/
def orElse (p q : Phrase α) : Phrase α := fun xs a => p xs a ∨ q xs a

def optionally (p : Phrase Unit) : Phrase Unit := p.orElse (pure ())

/-- A phrase any number of times over. -/
inductive Many (p : Phrase α) : List Token → List α → Prop
  | nil : Many p [] []
  | cons {xs ys : List Token} {a : α} {as : List α} :
    p xs a → Many p ys as → Many p (xs ++ ys) (a :: as)

def many (p : Phrase α) : Phrase (List α) := Many p

/-! ## Tokens -/

def sign (text : String) : Phrase Unit := fun xs _ => xs = [.sign text]

def name : Phrase String := fun xs n => xs = [.name n]

def digits : Phrase String := fun xs ds => xs = [.integer ds]

def integer : Phrase Nat := do
  let ds ← digits
  return Text.ofDigits 10 ds.toList

def discriminant : Phrase String := fun xs d => xs = [.discriminant d]

def string : Phrase String := fun xs body => xs = [.string body]

/-! ## Types -/

def size : Phrase Nat := do
  sign "["
  let n ← integer
  sign "]"
  return n

def typeOf (arg : Phrase TypeExpr) : Phrase TypeExpr := do
  let head ← name
  let base ← orElse
    (do
      sign "<"
      let first ← arg
      let more ← many do
        sign ","
        arg
      sign ">"
      return .applied head (first :: more))
    (return .named head)
  let sizes ← many size
  return sizes.foldl .array base

def typeUpTo : Nat → Phrase TypeExpr
  | 0 => fun _ _ => False
  | depth + 1 => typeOf (typeUpTo depth)

def type : Phrase TypeExpr := fun xs e => ∃ depth, typeUpTo depth xs e

/-! ## Annotations -/

/-- Nothing, or items with a comma between them and perhaps one behind the last. -/
def listed (item : Phrase α) : Phrase (List α) :=
  orElse (pure []) do
    let a ← item
    let more ← many do
      sign ","
      item
    optionally (sign ",")
    return a :: more

def literalString : Phrase Literal := do
  let t ← string
  return .string t

def literalInteger : Phrase Literal := do
  let n ← integer
  return .integer n

def literalName : Phrase Literal := do
  let t ← name
  return .name t

def keyedArgument : Phrase Argument := do
  let key ← name
  sign "="
  let v ← orElse literalString (orElse literalInteger literalName)
  return .keyed key v .start .start

def flagArgument : Phrase Argument := do
  let key ← name
  return .flag key .start

def bareArgument : Phrase Argument := do
  let v ← orElse literalString literalInteger
  return .bare v .start

def argument : Phrase Argument := orElse keyedArgument (orElse flagArgument bareArgument)

def block : Phrase AnnotationBlock := do
  sign "@"
  let n ← name
  sign "("
  let arguments ← listed argument
  sign ")"
  return ⟨n, arguments, .start⟩

/-! ## Declarations -/

def namedField : Phrase Field := do
  let annotations ← many block
  let n ← name
  sign ":"
  let t ← type
  return ⟨some n, 0, t, annotations, .start⟩

def tupleField : Phrase Field := do
  let annotations ← many block
  let t ← type
  return ⟨none, 0, t, annotations, .start⟩

def namedItem : Phrase Field := do
  let f ← namedField
  optionally (sign ",")
  return f

def namedBody : Phrase (Shape × List Field) := do
  sign "\x7b"
  let fields ← many namedItem
  sign "\x7d"
  return (.named, Reader.numbered fields)

def tupleBody : Phrase (Shape × List Field) := do
  sign "("
  let fields ← listed tupleField
  sign ")"
  return (.tuple, Reader.numbered fields)

def body : Phrase (Shape × List Field) :=
  orElse namedBody (orElse tupleBody (pure (.unit, [])))

def writtenTag : Phrase (Option String) := do
  sign "="
  let d ← discriminant
  return some d

def variant : Phrase Variant := do
  let annotations ← many block
  let n ← name
  let (shape, fields) ← body
  let d ← orElse writtenTag (pure none)
  return ⟨n, shape, fields, d, annotations, .start⟩

def record : Phrase Record := do
  let annotations ← many block
  sign "struct"
  let n ← name
  let (shape, fields) ← body
  return ⟨n, shape, fields, annotations, .start⟩

def union : Phrase Union := do
  let annotations ← many block
  sign "union"
  let n ← name
  sign "\x7b"
  let variants ← many variant
  sign "\x7d"
  return ⟨n, variants, annotations, .start⟩

def declaration : Phrase (Record ⊕ Union) :=
  orElse (do return .inl (← record)) (do return .inr (← union))

def declarations : Phrase (List (Record ⊕ Union)) := many declaration

end Phrase

/-- No integer of a text has more digits than can be read. There is no such limit to reading here,
so what is said of what is read must say so. -/
def IntegersFit (text : String) : Prop :=
  ∀ xs ds, Lexed text xs → Phrase.declarations xs ds →
    ∀ digits, Token.integer digits ∈ xs → digits.toList.length ≤ Text.maxDigits

end WireSchema
