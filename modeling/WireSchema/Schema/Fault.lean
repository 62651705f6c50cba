import WireSchema.Schema.Basic

/-!
# What can be wrong with a schema

The causes for which a text is refused before anything is resolved, and their wording.
-/

namespace WireSchema

inductive SchemaFault where
  | unexpectedInput
  /-- A keyword, a name with a leading underscore, or the name of a member of every type. -/
  | reservedName (name what : String)
  | declaredTwice (name : String)
  | shadowingField (field owner : String)
  | duplicateField (field owner : String)
  | duplicateVariant (variant union : String)
  | wrongArity (name : String) (expected actual : Nat)
  | wrongKey (type : String)
  | notGeneric (name : String)
  | unknownType (name : String)
deriving DecidableEq, Repr

def SchemaFault.message : SchemaFault → String
  | unexpectedInput => "Unexpected input"
  | reservedName name what => "'" ++ name ++ "' cannot be used as a " ++ what ++ " name"
  | declaredTwice name => name ++ " is declared more than once"
  | shadowingField field owner =>
    "Field " ++ field ++ " in " ++ owner ++ " shadows a module-level name"
  | duplicateField field owner => "Duplicate field " ++ field ++ " in " ++ owner
  | duplicateVariant variant union => "Duplicate variant " ++ variant ++ " in " ++ union
  | wrongArity name expected actual =>
    name ++ " takes " ++ toString expected ++ " type argument" ++ (if expected = 1 then "" else "s")
      ++ ", got " ++ toString actual
  | wrongKey type => "Map keys must be integer, bool or string types, not " ++ type
  | notGeneric name => name ++ " does not take type arguments"
  | unknownType name => "Unknown type " ++ name

/-- Why a text is no schema. Only the first case is a diagnostic with a location. -/
inductive SchemaRejection where
  | invalid (fault : SchemaFault) (location : Location)
  /-- The escapes of a string literal are malformed. -/
  | malformedString
  /-- The type of a map key is at fault and has no text to report it by. -/
  | keyWithoutText
deriving DecidableEq, Repr

end WireSchema
