import WireSchema.Schema.Basic
import WireSchema.Schema.Token

/-!
# Reading a schema

The grammar, one reader per rule. The next character of the text always decides how a rule goes
on, so nothing is read twice, and the place where reading stops is the first one at which the text
can no longer be completed.

```
schema      = { record | union }
record      = blocks "struct" name body
union       = blocks "union" name "{" { variant } "}"
variant     = blocks name body [ "=" discriminant ]
body        = [ "{" { blocks name ":" type [ "," ] } "}" | "(" [ items of blocks type ] ")" ]
type        = name [ "<" type { "," type } ">" ] { "[" integer "]" }
blocks      = { "@" name "(" [ items of argument ] ")" }
argument    = name "=" ( string | integer | name ) | name | string | integer
```
-/

namespace WireSchema

namespace Reader

/-- A type nested at most `depth` deep. -/
def typeUpTo : Nat → Reader TypeExpr
  | 0 => unexpected
  | depth + 1 => do
    let (head, _) ← name
    let base ←
      if ← nextIs "<" then do
        sign "<"
        let first ← typeUpTo depth
        let more ← many (·.startsWith [',']) do
          sign ","
          typeUpTo depth
        sign ">"
        pure (TypeExpr.applied head (first :: more))
      else pure (TypeExpr.named head)
    let sizes ← many (·.startsWith ['[']) do
      sign "["
      let (n, _) ← integer
      sign "]"
      return n
    return sizes.foldl TypeExpr.array base

def type : Reader TypeExpr := fun s => typeUpTo (s.rest.length + 1) s

def literal : Reader (Literal × Location) := fun s =>
  match s.token.rest with
  | [] => unexpected s
  | c :: _ =>
    if c = '\x22' then (do let (t, l) ← string; return (Literal.string t, l)) s
    else if c.isDigit then (do let (n, l) ← integer; return (Literal.integer n, l)) s
    else (do let (t, l) ← name; return (Literal.name t, l)) s

def argument : Reader Argument := do
  let (value, l) ← literal
  match value with
  | .name key =>
    if ← nextIs "=" then
      sign "="
      let (v, vl) ← literal
      return .keyed key v l vl
    else return .flag key l
  | v => return .bare v l

def block : Reader AnnotationBlock := do
  sign "@"
  let (n, l) ← name
  sign "("
  let arguments ← commaSeparated ")" argument
  return ⟨n, arguments, l.left⟩

def blocks : Reader (List AnnotationBlock) := many (·.startsWith ['@']) block

def namedField : Reader Field := do
  let annotations ← blocks
  let (n, l) ← name
  sign ":"
  let t ← type
  if ← nextIs "," then sign ","
  return ⟨some n, 0, t, annotations, l⟩

/-- A field without a name is located at its type. -/
def tupleField : Reader Field := do
  let annotations ← blocks
  let l ← fun s => .ok (s.token.location, s)
  let t ← type
  return ⟨none, 0, t, annotations, l⟩

/-- Fields know their position. -/
def numbered (fields : List Field) : List Field :=
  fields.mapIdx fun i f => { f with index := i }

def body : Reader (Shape × List Field) := do
  if ← nextIs "\x7b" then
    sign "\x7b"
    let fields ← many (!·.startsWith ['\x7d']) namedField
    sign "\x7d"
    return (.named, numbered fields)
  if ← nextIs "(" then
    sign "("
    let fields ← commaSeparated ")" tupleField
    return (.tuple, numbered fields)
  return (.unit, [])

def variant : Reader Variant := do
  let annotations ← blocks
  let (n, l) ← name
  let (shape, fields) ← body
  if ← nextIs "=" then
    sign "="
    let d ← discriminant
    return ⟨n, shape, fields, some d, annotations, l⟩
  return ⟨n, shape, fields, none, annotations, l⟩

def record (annotations : List AnnotationBlock) : Reader Record := do
  sign "struct"
  let (n, l) ← name
  let (shape, fields) ← body
  return ⟨n, shape, fields, annotations, l⟩

def union (annotations : List AnnotationBlock) : Reader Union := do
  sign "union"
  let (n, l) ← name
  sign "\x7b"
  let variants ← many (!·.startsWith ['\x7d']) variant
  sign "\x7d"
  return ⟨n, variants, annotations, l⟩

def declaration : Reader (Record ⊕ Union) := do
  let annotations ← blocks
  if ← nextIs "struct" then return .inl (← record annotations)
  else return .inr (← union annotations)

def declarations : Reader (List (Record ⊕ Union)) := many (!·.atEnd) declaration

end Reader

def Schema.ofDeclarations (ds : List (Record ⊕ Union)) : Schema :=
  ⟨ds.filterMap Sum.getLeft?, ds.filterMap Sum.getRight?⟩

/-! ## Where a text is refused -/

/-- How many characters white space or a comment takes up from the front of a text. -/
def gapLength : List Char → Nat
  | [] => 0
  | c :: cs =>
    if Text.isLayout c then ((c :: cs).takeWhile Text.isLayout).length
    else if c = '#' then ((c :: cs).takeWhile (· ≠ '\n')).length
    else 0

/-- The last place in a shadow over the next `n` characters. A gap in the shadow, even one inside
another, prolongs it up to the gap's end. -/
def leaveShadow : Nat → Location → List Char → Location
  | _, l, [] => l
  | n, l, c :: cs =>
    let n := max n (gapLength (c :: cs))
    if n ≤ 1 then l else leaveShadow (n - 1) (l.next c) cs

/-- How far the shadow over a cursor in a text goes on. What stands on the same line before the
cursor was read, so if the sign of a comment is among it, then in a string literal. -/
def shadow (text : List Char) (s : Cursor) : Nat :=
  let line := (text.take (text.length - s.rest.length)).reverse.takeWhile (· ≠ '\n')
  if line.contains '#' then (s.rest.takeWhile (· ≠ '\n')).length else 0

/-- Where it is reported that a text cannot go on as it does from a cursor on. -/
def refusal (text : List Char) (s : Cursor) : Location :=
  if s.rest.isEmpty then .endOfText else leaveShadow (shadow text s) s.location s.rest

/-- The schema a text spells, the escapes of its string literals as written; or the location at
which the text is refused. -/
def Schema.read (text : String) : Except Location Schema :=
  match Reader.declarations (Cursor.ofString text) with
  | .ok (ds, _) => .ok (.ofDeclarations ds)
  | .error s => .error (refusal text.toList s)

end WireSchema
