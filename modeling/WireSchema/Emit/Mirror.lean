import WireSchema.Emit.Hook

/-!
# Bodies that mirror each other

What the statements for the fields of a class cover, against the fields themselves, and which codecs
the methods of a module use.
-/

namespace WireSchema

def Statement.codec? : Statement → Option String
  | encodeBy codec .. | decodeBy codec _ | readTag codec => some codec
  | _ => none

/-- The codec that a statement uses, if it is not one of the runtime. -/
def Statement.ownCodec? (s : Statement) : Option String := s.codec?.filter (· ∉ runtimeNames)

/-- The codecs that a method uses and that are not of the runtime, use by use. -/
def Method.codecUses (f : Method) : List String := f.body.filterMap Statement.ownCodec?

namespace Statement.Coverage

def idents : Coverage → List String
  | .packed batch => batch.map Prod.fst
  | .declared _ field | .codec _ field => [field]

/-- Whether what is covered are fields of these, each by what its type asks for: its slot in a batch,
the code of its declared type, the codec of its primitive, or else a codec that the module defines to
be that of the field. -/
def Fits (m : Module) (fields : List Field) : Coverage → Prop
  | .packed batch => ∀ x ∈ batch, ∃ f ∈ fields, f.ident = x.1 ∧ f.codec.slot? = some x.2
  | .declared type field => ∃ f ∈ fields, f.ident = field ∧ f.codec = .declared type
  | .codec name field => ∃ f ∈ fields, f.ident = field ∧
    ((∃ p, f.codec.primitive? = some p ∧ name = p.codecName) ∨
      f.codec.needsEntry = true ∧ (name, f.codec) ∈ m.codecs)

end Statement.Coverage

/-- All owners of fields, each with its fields in the order in which they are written. -/
def Layout.owners (S : Layout) : List (String × List Field) :=
  S.records.map (fun r => (r.name, r.wireFields)) ++
    S.unions.flatMap fun u => u.variants.map fun v => (v.ownerName u, v.variant.fields)

/-- The code for the fields of an owner: what writes them, and what reads them. -/
structure OwnerBodies where
  owner : String
  encode : List Statement
  decode : List Statement

namespace Module

def bodies (m : Module) : List OwnerBodies :=
  m.records.map (fun c => ⟨c.name, c.encode, c.decode⟩) ++
    m.unions.flatMap fun u => u.variants.map fun v => ⟨u.name ++ "." ++ v.name, v.encode, v.decode⟩

/-- Both bodies for an owner go through its fields, one as the other. -/
structure Mirrors (m : Module) (o : String × List Field) (b : OwnerBodies) : Prop where
  owner : b.owner = o.1
  same : Statement.coverages b.encode = Statement.coverages b.decode
  all : (Statement.coverages b.encode).flatMap Statement.Coverage.idents = o.2.map Field.ident
  fits : ∀ c ∈ Statement.coverages b.encode, c.Fits m o.2

/-- The codecs that a module uses and that are not of the runtime, use by use. -/
def codecUses (m : Module) : List String := m.methods.flatMap Method.codecUses

end Module

end WireSchema
