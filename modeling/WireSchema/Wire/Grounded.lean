import WireSchema.Wire.Declared

/-!
# Records inside records

A value of a record holds the values of its fields, and those of arrays in it, without any bytes of
its own around them. A record that holds itself in this way has no values, and to read one never
ends.
-/

namespace WireSchema

/-- The declared type whose values a value of this type is made of. -/
inductive Codec.Holds : Codec → String → Prop
  | declared (name : String) : Holds (.declared name) name
  | array {c : Codec} {name : String} (size : Nat) : Holds c name → Holds (.array c size) name

namespace Layout

variable (S : Layout)

/-- A record of the first name has a field made of records of the second. -/
def Contains (a b : String) : Prop :=
  ∃ r, S.record? a = some r ∧ (S.record? b).isSome ∧ ∃ f ∈ r.wireFields, f.codec.Holds b

/-- No record holds itself. -/
def Grounded : Prop := ∀ name, ¬ Relation.TransGen S.Contains name name

end Layout

end WireSchema
