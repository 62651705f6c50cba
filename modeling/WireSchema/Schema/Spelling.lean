import WireSchema.Schema.Token

/-!
# Spellings

Which stretches of text are gaps and tokens, said of the text alone. A rule relates a cursor to what
is spelled from there on and to the cursor behind it; rules are put together in sequence, as
alternatives and by repetition, and nothing about them says how a text is read.

A gap can end anywhere, even where more blanks follow. No token starts with a blank or the sign of a
comment, though, so a token fixes the gap in front of it.
-/

namespace WireSchema

/-- The text between two cursors. -/
structure Cursor.Covers (s : Cursor) (cs : List Char) (t : Cursor) : Prop where
  text : s.rest = cs ++ t.rest
  location : t.location = s.location.advance cs

theorem Cursor.covers_nil (s : Cursor) : s.Covers [] s := ⟨rfl, rfl⟩

theorem Cursor.Covers.append {s t u : Cursor} {cs ds : List Char} (h : s.Covers cs t)
    (k : t.Covers ds u) : s.Covers (cs ++ ds) u :=
  ⟨by rw [h.text, k.text, List.append_assoc],
    by rw [k.location, h.location, Location.advance_append]⟩

/-- White space and comments. A comment goes on up to the end of its line. -/
inductive Gap : Cursor → Cursor → Prop
  | nil (s : Cursor) : Gap s s
  | blank {s t u : Cursor} {c : Char} :
    Text.isLayout c → s.Covers [c] t → Gap t u → Gap s u
  | comment {s t u : Cursor} {cs : List Char} :
    '\n' ∉ cs → s.Covers ('#' :: cs) t → (∀ c ∈ t.rest.head?, c = '\n') → Gap t u → Gap s u

theorem Gap.trans {s t u : Cursor} (h : Gap s t) (k : Gap t u) : Gap s u := by
  induction h with
  | nil => exact k
  | blank hc hs _ ih => exact .blank hc hs (ih k)
  | comment hn hs he _ ih => exact .comment hn hs he (ih k)

/-- What the text from one cursor to another spells. -/
def Rule (α : Type) := Cursor → α → Cursor → Prop

namespace Rule

instance : Monad Rule where
  pure a := fun s b t => b = a ∧ t = s
  bind p f := fun s b u => ∃ a t, p s a t ∧ f a t b u

/-- Either of two rules. -/
def orElse {α : Type} (p q : Rule α) : Rule α := fun s a t => p s a t ∨ q s a t

def optionally (p : Rule Unit) : Rule Unit := p.orElse (pure ())

/-- A rule any number of times over. -/
inductive Many {α : Type} (p : Rule α) : Cursor → List α → Cursor → Prop
  | nil (s : Cursor) : Many p s [] s
  | cons {s t u : Cursor} {a : α} {as : List α} : p s a t → Many p t as u → Many p s (a :: as) u

def many {α : Type} (p : Rule α) : Rule (List α) := Many p

/-! ## Tokens -/

def token {α : Type} (p : Rule α) : Rule α := fun s a u => ∃ t, Gap s t ∧ p t a u

/-- A keyword or a sign. What follows a keyword can go on the same word. -/
def sign (text : String) : Rule Unit := token fun s _ t => s.Covers text.toList t

/-- A longest stretch of characters in `p` whose first one is in `first`, with its location. -/
structure Stretch (first p : Char → Bool) (s : Cursor) (taken : String × Location) (t : Cursor) :
    Prop where
  covers : s.Covers taken.1.toList t
  location : taken.2 = s.location
  nonempty : taken.1.toList ≠ []
  starts : ∀ c ∈ taken.1.toList.head?, first c
  within : ∀ c ∈ taken.1.toList, p c
  longest : ∀ c ∈ t.rest.head?, ¬ p c

def name : Rule (String × Location) := token (Stretch isNameStart isNameChar)

def integer : Rule (Nat × Location) := do
  let (digits, l) ← token (Stretch Char.isDigit Char.isDigit)
  return (Text.ofDigits 10 digits.toList, l)

def discriminant : Rule String := do
  let (text, _) ← token (Stretch isDiscriminantChar isDiscriminantChar)
  return text

/-- What can stand between quotation marks: neither a mark nor a line feed, unless a mark is behind
a backslash. -/
inductive Inside : List Char → Prop
  | nil : Inside []
  | plain {c : Char} {cs : List Char} :
    c ≠ '\x22' → c ≠ '\x5c' → c ≠ '\n' → Inside cs → Inside (c :: cs)
  | escaped {c : Char} {cs : List Char} :
    c ≠ '\n' → Inside cs → Inside ('\x5c' :: c :: cs)

def string : Rule (String × Location) := token fun s taken t =>
  s.Covers ('\x22' :: taken.1.toList ++ ['\x22']) t ∧ taken.2 = s.location ∧ Inside taken.1.toList

end Rule

end WireSchema
