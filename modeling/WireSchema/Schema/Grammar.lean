import WireSchema.Schema.Reader
import WireSchema.Schema.Spelling

/-!
# The grammar of schemas

One rule for each notion of the language. `Schema.Spelled` says which texts spell a schema; reading
has to find the schema in exactly these.
-/

namespace WireSchema

namespace Rule

/-! A type is located at its name. An array of some type starts with the spelling of that type. -/

mutual
inductive TypeSpelled : Cursor → TypeExpr × Location → Cursor → Prop
  | named {s t : Cursor} {n : String} {l : Location} :
    name s (n, l) t → TypeSpelled s (.named n, l) t
  | applied {s t u v w : Cursor} {n : String} {l : Location} {args : List TypeExpr} :
    name s (n, l) t → sign "<" t () u → TypesSpelled u args v → sign ">" v () w →
      TypeSpelled s (.applied n args, l) w
  | array {s t u v w : Cursor} {e : TypeExpr} {l m : Location} {size : Nat} :
    TypeSpelled s (e, l) t → sign "[" t () u → integer u (size, m) v → sign "]" v () w →
      TypeSpelled s (.array e size, l) w

/-- Types with a comma between them. -/
inductive TypesSpelled : Cursor → List TypeExpr → Cursor → Prop
  | single {s t : Cursor} {e : TypeExpr} {l : Location} :
    TypeSpelled s (e, l) t → TypesSpelled s [e] t
  | cons {s t u v : Cursor} {e : TypeExpr} {l : Location} {es : List TypeExpr} :
    TypeSpelled s (e, l) t → sign "," t () u → TypesSpelled u es v → TypesSpelled s (e :: es) v
end

def type : Rule (TypeExpr × Location) := TypeSpelled

/-- Nothing, or items with a comma between them and perhaps one behind the last. -/
def listed {α : Type} (item : Rule α) : Rule (List α) :=
  orElse (pure []) do
    let a ← item
    let more ← many do
      sign ","
      item
    optionally (sign ",")
    return a :: more

def literalString : Rule (Literal × Location) := do
  let (t, l) ← string
  return (.string t, l)

def literalInteger : Rule (Literal × Location) := do
  let (n, l) ← integer
  return (.integer n, l)

def literalName : Rule (Literal × Location) := do
  let (t, l) ← name
  return (.name t, l)

def keyedArgument : Rule Argument := do
  let (key, l) ← name
  sign "="
  let (v, vl) ← orElse literalString (orElse literalInteger literalName)
  return .keyed key v l vl

def flagArgument : Rule Argument := do
  let (key, l) ← name
  return .flag key l

def bareArgument : Rule Argument := do
  let (v, l) ← orElse literalString literalInteger
  return .bare v l

def argument : Rule Argument := orElse keyedArgument (orElse flagArgument bareArgument)

def block : Rule AnnotationBlock := do
  sign "@"
  let (n, l) ← name
  sign "("
  let arguments ← listed argument
  sign ")"
  return ⟨n, arguments, l.left⟩

def namedField : Rule Field := do
  let annotations ← many block
  let (n, l) ← name
  sign ":"
  let (t, _) ← type
  return ⟨some n, 0, t, annotations, l⟩

def tupleField : Rule Field := do
  let annotations ← many block
  let (t, l) ← type
  return ⟨none, 0, t, annotations, l⟩

def namedBody : Rule (Shape × List Field) := do
  sign "\x7b"
  let fields ← many do
    let f ← namedField
    optionally (sign ",")
    return f
  sign "\x7d"
  return (.named, Reader.numbered fields)

def tupleBody : Rule (Shape × List Field) := do
  sign "("
  let fields ← listed tupleField
  sign ")"
  return (.tuple, Reader.numbered fields)

def body : Rule (Shape × List Field) :=
  orElse namedBody (orElse tupleBody (pure (.unit, [])))

def writtenTag : Rule (Option String) := do
  sign "="
  let d ← discriminant
  return some d

def variant : Rule Variant := do
  let annotations ← many block
  let (n, l) ← name
  let (shape, fields) ← body
  let d ← orElse writtenTag (pure none)
  return ⟨n, shape, fields, d, annotations, l⟩

def record : Rule Record := do
  let annotations ← many block
  sign "struct"
  let (n, l) ← name
  let (shape, fields) ← body
  return ⟨n, shape, fields, annotations, l⟩

def union : Rule Union := do
  let annotations ← many block
  sign "union"
  let (n, l) ← name
  sign "\x7b"
  let variants ← many variant
  sign "\x7d"
  return ⟨n, variants, annotations, l⟩

def declaration : Rule (Record ⊕ Union) :=
  orElse (do return .inl (← record)) (do return .inr (← union))

end Rule

/-- A text is the spelling of these declarations, with a gap behind them. -/
def Spells (text : String) (ds : List (Record ⊕ Union)) : Prop :=
  ∃ t u, Rule.many Rule.declaration (Cursor.ofString text) ds t ∧ Gap t u ∧ u.rest = []

/-- A text spells a schema if it is the spelling of its declarations, and a gap behind them. -/
def Schema.Spelled (text : String) (s : Schema) : Prop :=
  ∃ ds t u, Rule.many Rule.declaration (Cursor.ofString text) ds t ∧ Gap t u ∧ u.rest = [] ∧
    s = .ofDeclarations ds

end WireSchema
