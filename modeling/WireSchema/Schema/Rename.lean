import WireSchema.Schema.Primitive

/-!
# Renaming

A schema with other names for its types, variants and fields. Fields without a name of their own
keep the one their position gives them, and types that are not declared keep theirs.
-/

namespace WireSchema

/-- New names for types, for the variants of a union, and for the fields of an owner. -/
structure Renaming where
  type : String → String
  variant (union name : String) : String
  field (owner name : String) : String

namespace Renaming

variable (ρ : Renaming)

mutual
def typeExpr : TypeExpr → TypeExpr
  | .named name => .named (if isPrimitiveName name then name else ρ.type name)
  | .applied name args => .applied name (typeExprs args)
  | .array element size => .array (typeExpr element) size

def typeExprs : List TypeExpr → List TypeExpr
  | [] => []
  | t :: ts => typeExpr t :: typeExprs ts
end

def fieldOf (owner : String) (f : Field) : Field :=
  { f with name := f.name.map (ρ.field owner), type := ρ.typeExpr f.type }

def recordOf (r : Record) : Record :=
  { r with name := ρ.type r.name, fields := r.fields.map (ρ.fieldOf r.name) }

def variantOf (union : String) (v : Variant) : Variant :=
  { v with
    name := ρ.variant union v.name
    fields := v.fields.map (ρ.fieldOf (union ++ "." ++ v.name)) }

def unionOf (u : Union) : Union :=
  { u with name := ρ.type u.name, variants := u.variants.map (ρ.variantOf u.name) }

def schema (s : Schema) : Schema := ⟨s.records.map ρ.recordOf, s.unions.map ρ.unionOf⟩

/-- The names that positions give to an owner's fields stay as they are. -/
def KeepsPositions (owner : String) (fields : List Field) : Prop :=
  ∀ f ∈ fields, f.name = none → ρ.field owner f.ident = f.ident

end Renaming

end WireSchema
