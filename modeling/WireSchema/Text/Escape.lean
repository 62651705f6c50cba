import WireSchema.Text.Digits

/-!
# Escapes in string literals

The text between the quotation marks of a literal, read as code points. A backslash starts an escape:
a letter for a control character, a number in base eight or sixteen, a character's name, or a line
continuation, which stands for nothing. An escape that means nothing keeps its backslash. A number
can be that of a surrogate, which is no character.

A literal is malformed when a numbered or named escape is cut short or names no code point, and
when it holds a bare carriage return, which ends the line, or a null character.
-/

namespace WireSchema.Text

def asciiNames : List String :=
  ["SPACE", "EXCLAMATION MARK", "QUOTATION MARK", "NUMBER SIGN", "DOLLAR SIGN", "PERCENT SIGN",
    "AMPERSAND", "APOSTROPHE", "LEFT PARENTHESIS", "RIGHT PARENTHESIS", "ASTERISK", "PLUS SIGN",
    "COMMA", "HYPHEN-MINUS", "FULL STOP", "SOLIDUS", "DIGIT ZERO", "DIGIT ONE", "DIGIT TWO",
    "DIGIT THREE", "DIGIT FOUR", "DIGIT FIVE", "DIGIT SIX", "DIGIT SEVEN", "DIGIT EIGHT",
    "DIGIT NINE", "COLON", "SEMICOLON", "LESS-THAN SIGN", "EQUALS SIGN", "GREATER-THAN SIGN",
    "QUESTION MARK", "COMMERCIAL AT"]
  ++ "ABCDEFGHIJKLMNOPQRSTUVWXYZ".toList.map (fun c => "LATIN CAPITAL LETTER ".push c)
  ++ ["LEFT SQUARE BRACKET", "REVERSE SOLIDUS", "RIGHT SQUARE BRACKET", "CIRCUMFLEX ACCENT",
    "LOW LINE", "GRAVE ACCENT"]
  ++ "ABCDEFGHIJKLMNOPQRSTUVWXYZ".toList.map (fun c => "LATIN SMALL LETTER ".push c)
  ++ ["LEFT CURLY BRACKET", "VERTICAL LINE", "RIGHT CURLY BRACKET", "TILDE"]

/-- Which names of characters are known. -/
class CharacterNames where
  named? (name : List Char) : Option Char

export CharacterNames (named?)

/-- The printable ASCII characters, by names in either case. -/
instance (priority := low) ascii : CharacterNames where
  named? name :=
    (asciiNames.findIdx? (· = String.ofList (name.map Char.toUpper))).map fun i =>
      Char.ofNat (32 + i)

/-- The number as a code point, unless it is too large. -/
def codePoint? (n : Nat) : Option Nat := if n < 0x110000 then some n else none

def letterEscape? (c : Char) : Option Char :=
  match c with
  | '\x5c' => some '\x5c'
  | '\x27' => some '\x27'
  | '\x22' => some '\x22'
  | 'a' => some '\x07'
  | 'b' => some '\x08'
  | 'f' => some '\x0c'
  | 'n' => some '\n'
  | 'r' => some '\r'
  | 't' => some '\t'
  | 'v' => some '\x0b'
  | _ => none

def numberWidth? (c : Char) : Option Nat :=
  match c with
  | 'x' => some 2
  | 'u' => some 4
  | 'U' => some 8
  | _ => none

/-- What an escape stands for, and the text behind it, given the text after the backslash. -/
def escape? [CharacterNames] : List Char → Option (List Nat × List Char)
  | [] => none
  | c :: cs =>
    match letterEscape? c, numberWidth? c with
    | some d, _ => some ([d.toNat], cs)
    | none, some width =>
      let digits := cs.take width
      if digits.length = width ∧ digits.all (isDigitOf 16) then
        (codePoint? (ofDigits 16 digits)).map fun d => ([d], cs.drop width)
      else none
    | none, none =>
      if c = 'N' then
        match cs with
        | '\x7b' :: r =>
          match r.dropWhile (· ≠ '\x7d') with
          | _ :: rest => (named? (r.takeWhile (· ≠ '\x7d'))).map fun d => ([d.toNat], rest)
          | [] => none
        | _ => none
      else if isDigitOf 8 c then
        let digits := (c :: cs.take 2).takeWhile (isDigitOf 8)
        (codePoint? (ofDigits 8 digits)).map fun d => ([d], (c :: cs).drop digits.length)
      else if c = '\r' then some ([], cs)
      else if c = '\x00' then none
      else some (['\x5c'.toNat, c.toNat], cs)

/-- An escape takes up at least one character. -/
theorem length_lt_of_escape? [CharacterNames] {cs rest : List Char} {ds : List Nat}
    (h : escape? cs = some (ds, rest)) :
    rest.length < cs.length := by
  cases cs with
  | nil => simp [escape?] at h
  | cons c cs =>
    simp only [escape?] at h
    split at h
    next => simp_all
    next =>
      split at h
      next hd =>
        obtain ⟨d, _, hr⟩ := Option.map_eq_some_iff.1 h
        simp only [Prod.mk.injEq] at hr
        rw [← hr.2, List.length_drop, List.length_cons]
        omega
      next => cases h
    next =>
      split at h
      next =>
        split at h
        next r =>
          split at h
          next d rest' hw =>
            obtain ⟨d, _, hr⟩ := Option.map_eq_some_iff.1 h
            have hl := (List.dropWhile_suffix (· ≠ '\x7d') (l := r)).length_le
            rw [hw] at hl
            simp only [Prod.mk.injEq] at hr
            rw [← hr.2]
            simp only [List.length_cons] at hl ⊢
            omega
          next => cases h
        next => cases h
      next =>
        split at h
        next hc =>
          obtain ⟨d, _, hr⟩ := Option.map_eq_some_iff.1 h
          simp only [Prod.mk.injEq] at hr
          rw [← hr.2, List.length_drop]
          simp only [List.takeWhile_cons, hc, if_true, List.length_cons]
          omega
        next => split at h <;> simp_all

/-- Code points as they are printed: those that are no characters by their numbers. -/
def shownPoints (points : List Nat) : String :=
  .ofList (points.flatMap fun n => if n.isValidChar then [Char.ofNat n] else '\x5c' :: 'u' :: hex 4 n)

/-- The code points that the inside of a literal stands for, unless it is malformed. -/
def unescape? [CharacterNames] (cs : List Char) : Option (List Nat) :=
  match cs with
  | [] => some []
  | c :: cs =>
    if c = '\x5c' then
      match _h : escape? cs with
      | some (ds, rest) => (unescape? rest).map (ds ++ ·)
      | none => none
    else if c = '\r' ∨ c = '\x00' then none
    else (unescape? cs).map (c.toNat :: ·)
termination_by cs.length
decreasing_by
  · have := length_lt_of_escape? _h
    simp only [List.length_cons]
    omega
  · simp

theorem unescape?_nil [CharacterNames] : unescape? [] = some [] := by
  rw [unescape?]

/-- A character that neither escapes nor breaks the literal stands for itself. -/
theorem unescape?_cons [CharacterNames] {c : Char} (cs : List Char) (hb : c ≠ '\x5c')
    (hr : c ≠ '\r') (h0 : c ≠ '\x00') :
    unescape? (c :: cs) = (unescape? cs).map (c.toNat :: ·) := by
  rw [unescape?]
  simp [hb, hr, h0]

end WireSchema.Text
