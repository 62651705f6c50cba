import WireSchema.Schema.Primitive

/-!
# Which types have a default value

Primitive and generic types have one. An array has one if its element has, and a record if each of
its fields has; a union never does. A record that could only be built from a value of itself has
none, so the records with a default are the least set closed under this rule. It is reached by
adding records as long as any can be added, which happens at most once for each record.
-/

namespace WireSchema

/-- Whether a type has a default value, if the records named in `known` have one. -/
def TypeExpr.hasDefault (known : List String) : TypeExpr → Bool
  | .named name => isPrimitiveName name || (genericArity? name).isSome || known.contains name
  | .applied name _ => (genericArity? name).isSome || known.contains name
  | .array element _ => element.hasDefault known

def addDefaultable (records : List Record) (known : List String) : List String :=
  records.foldl
    (fun known r =>
      if known.contains r.name then known
      else if r.fields.all fun f => f.type.hasDefault known then r.name :: known
      else known)
    known

/-- Rounds of adding, until one adds nothing or the rounds run out. -/
def growDefaultable (records : List Record) : Nat → List String → List String
  | 0, known => known
  | n + 1, known =>
    let more := addDefaultable records known
    if more.length = known.length then known else growDefaultable records n more

def defaultable (records : List Record) : List String :=
  growDefaultable records (records.length + 1) []

end WireSchema
