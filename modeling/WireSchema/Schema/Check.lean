import WireSchema.Schema.Fault
import WireSchema.Schema.Names
import WireSchema.Schema.Reader
import WireSchema.Text.Escape

/-!
# Checking a schema

Names and type references are checked in source order: first the names of all records and then of
all unions, next the fields of each record, and last the variants of each union with their fields.
The first fault found is the one reported. `Schema.parse` reads a text, replaces the escapes in its
string literals, and checks the outcome.
-/

namespace WireSchema

abbrev Checked := Except SchemaRejection

def refuse {α : Type} (fault : SchemaFault) (l : Location) : Checked α :=
  .error (.invalid fault l)

def checkName (name what : String) (l : Location) : Checked Unit :=
  if isReservedName name then refuse (.reservedName name what) l else pure ()

mutual
/-- A generic type is applied to its number of types, map keys are primitive, and a name on its own
is that of a primitive or a declared type. -/
def checkType (declared : List String) (l : Location) : TypeExpr → Checked Unit
  | .named name =>
    match genericArity? name with
    | some arity => refuse (.wrongArity name arity 0) l
    | none =>
      if isPrimitiveName name || declared.contains name then pure ()
      else refuse (.unknownType name) l
  | .applied name args =>
    match genericArity? name with
    | some arity =>
      if args.length ≠ arity then refuse (.wrongArity name arity args.length) l
      else if name = "map" then
        match args with
        | [] => checkTypes declared l args
        | key :: _ =>
          if key.primitive?.isSome then checkTypes declared l args
          else
            match key.text? with
            | some t => refuse (.wrongKey t) l
            | none => .error .keyWithoutText
      else checkTypes declared l args
    | none => refuse (.notGeneric name) l
  | .array element _ => checkType declared l element

def checkTypes (declared : List String) (l : Location) : List TypeExpr → Checked Unit
  | [] => pure ()
  | t :: ts => do
    checkType declared l t
    checkTypes declared l ts
end

def checkFields (declared : List String) (owner : String) :
    List String → List Field → Checked Unit
  | _, [] => pure ()
  | seen, f :: fs => do
    match f.name with
    | none =>
      checkType declared f.location f.type
      checkFields declared owner seen fs
    | some name =>
      checkName name "field" f.location
      if declared.contains name || moduleNames.contains name then
        refuse (.shadowingField name owner) f.location
      if seen.contains name then
        refuse (.duplicateField name owner) f.location
      checkType declared f.location f.type
      checkFields declared owner (name :: seen) fs

/-- The names declared, each of which must be free. -/
def checkDeclared : List String → List (String × Location) → Checked (List String)
  | declared, [] => pure declared
  | declared, (name, l) :: rest => do
    checkName name "type" l
    if isReservedTypeName name then
      refuse (.reservedName name "type") l
    if declared.contains name then
      refuse (.declaredTwice name) l
    checkDeclared (name :: declared) rest

def checkRecords (declared : List String) : List Record → Checked Unit
  | [] => pure ()
  | r :: rs => do
    checkFields declared r.name [] r.fields
    checkRecords declared rs

def checkVariants (declared : List String) (union : String) :
    List String → List Variant → Checked Unit
  | _, [] => pure ()
  | seen, v :: vs => do
    checkName v.name "variant" v.location
    if seen.contains v.name then
      refuse (.duplicateVariant v.name union) v.location
    checkFields declared (union ++ "." ++ v.name) [] v.fields
    checkVariants declared union (v.name :: seen) vs

def checkUnions (declared : List String) : List Union → Checked Unit
  | [] => pure ()
  | u :: us => do
    checkVariants declared u.name [] u.variants
    checkUnions declared us

namespace Schema

def declaredNames (s : Schema) : List (String × Location) :=
  s.records.map (fun r => (r.name, r.location)) ++ s.unions.map (fun u => (u.name, u.location))

def check (s : Schema) : Checked Unit := do
  let declared ← checkDeclared [] s.declaredNames
  checkRecords declared s.records
  checkUnions declared s.unions

end Schema

/-! ## Escapes in a schema -/

def Literal.ofCodePoints (points : List Nat) : Literal :=
  if points.all (·.isValidChar) then .string (.ofList (points.map Char.ofNat))
  else .codePoints points

def Literal.unescape? [Text.CharacterNames] : Literal → Option Literal
  | .string t => (Text.unescape? t.toList).map .ofCodePoints
  | v => some v

def Argument.unescape? [Text.CharacterNames] : Argument → Option Argument
  | .keyed key v l vl => v.unescape?.map fun v => .keyed key v l vl
  | .flag key l => some (.flag key l)
  | .bare v l => v.unescape?.map fun v => .bare v l

def unescapeBlocks? [Text.CharacterNames] (blocks : List AnnotationBlock) : Option
    (List AnnotationBlock) :=
  blocks.mapM fun b => do
    let arguments ← b.arguments.mapM Argument.unescape?
    return { b with arguments }

def unescapeFields? [Text.CharacterNames] (fields : List Field) : Option (List Field) :=
  fields.mapM fun f => do
    let annotations ← unescapeBlocks? f.annotations
    return { f with annotations }

def Record.unescape? [Text.CharacterNames] (r : Record) : Option Record := do
  let annotations ← unescapeBlocks? r.annotations
  let fields ← unescapeFields? r.fields
  return { r with annotations, fields }

def Variant.unescape? [Text.CharacterNames] (v : Variant) : Option Variant := do
  let annotations ← unescapeBlocks? v.annotations
  let fields ← unescapeFields? v.fields
  return { v with annotations, fields }

def Union.unescape? [Text.CharacterNames] (u : Union) : Option Union := do
  let annotations ← unescapeBlocks? u.annotations
  let variants ← u.variants.mapM Variant.unescape?
  return { u with annotations, variants }

namespace Schema

/-- The schema with the escapes in its string literals replaced, if all are well formed. -/
def unescape? [Text.CharacterNames] (s : Schema) : Option Schema := do
  let records ← s.records.mapM Record.unescape?
  let unions ← s.unions.mapM Union.unescape?
  return ⟨records, unions⟩

/-- The schema that a text defines. Malformed escapes are found once the whole text is read. -/
def parse [Text.CharacterNames] (text : String) : Checked Schema :=
  match read text with
  | .error l => refuse .unexpectedInput l
  | .ok s =>
    match s.unescape? with
    | none => .error .malformedString
    | some s => do
      s.check
      return s

end Schema

end WireSchema
