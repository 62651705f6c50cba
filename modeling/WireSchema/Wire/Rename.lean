import WireSchema.Schema.Rename
import WireSchema.Wire.Value

/-!
# Renaming in values

The value of a renamed type that has the same contents.
-/

namespace WireSchema

namespace Renaming

variable (ρ : Renaming)

def ownerOf : Owner → Owner
  | .record name => .record (ρ.type name)
  | .variant union name => .variant (ρ.type union) (ρ.variant union name)

mutual
def value : Value → Value
  | .list vs => .list (values vs)
  | .tuple vs => .tuple (values vs)
  | .map es => .map (entries es)
  | .object owner fields => .object (ρ.ownerOf owner) (members owner fields)
  | v => v

def values : List Value → List Value
  | [] => []
  | v :: vs => value v :: values vs

def entries : List (Value × Value) → List (Value × Value)
  | [] => []
  | (k, v) :: es => (value k, value v) :: entries es

def members (owner : Owner) : List (String × Value) → List (String × Value)
  | [] => []
  | (name, v) :: fields => (ρ.field owner.text name, value v) :: members owner fields
end

end Renaming

end WireSchema
