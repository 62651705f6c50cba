import WireSchema.Schema.Basic

/-!
# Growing unions

A schema with more variants behind those that its unions have.
-/

namespace WireSchema

def Union.grow (more : List Variant) (u : Union) : Union :=
  { u with variants := u.variants ++ more }

/-- More variants for each union, given by the union's name. -/
def Schema.grow (more : String → List Variant) (s : Schema) : Schema :=
  { s with unions := s.unions.map fun u => u.grow (more u.name) }

theorem Union.grow_nil (u : Union) : u.grow [] = u := by
  simp [grow]

theorem Schema.grow_nil (s : Schema) : s.grow (fun _ => []) = s := by
  simp [grow, Union.grow_nil]

end WireSchema
