import WireSchema.Emit.Binding

/-!
# What emitted defaults evaluate to

The default of a type is written into a module as an expression, which evaluates as it is taken
apart: an array is built from its elements, each of which is evaluated anew, and the default of a
record is what its class builds from the defaults of its fields. Nothing bounds how deep this goes,
and if a class is asked for a default that it does not have, or needs its own in turn, there is no
value. Nor is there one where the module has taken a name that is needed for other things.
-/

namespace WireSchema

namespace FieldValue

def default? : FieldValue → Option Codec
  | read => none
  | default codec => some codec

end FieldValue

def Statement.defaults : Statement → List Codec
  | returnObject fields _ => fields.filterMap fun f => f.2.default?
  | _ => []

namespace Module

variable (m : Module)

def defaults : List Codec := m.methods.flatMap fun f => f.body.flatMap Statement.defaults

def record? (name : String) : Option RecordClass := m.records.find? (·.name = name)

/-- What is left of the names of the language by the classes and the modules of hooks. -/
def builtins : Builtins :=
  .ofNames (m.records.map RecordClass.name ++ m.unions.map UnionClass.name)
    (m.hookModules.map firstPart)

/-- The default of a type evaluates to a value. -/
inductive Evaluates : Codec → Value → Prop
  | int (k : IntKind) : Evaluates (.int k) (.int 0)
  | bool : Evaluates .bool (.bool false)
  | string : Evaluates .string (.text "")
  | packedBools :
    m.builtins.ranges = true → Evaluates .packedBools (.list (List.replicate 8 (.bool false)))
  | optional (c : Codec) : Evaluates (.optional c) .none
  | list (c : Codec) : Evaluates (.list c) (.list [])
  | array {c : Codec} {n : Nat} {vs : List Value} :
    m.builtins.ranges = true → vs.length = n → (∀ v ∈ vs, Evaluates c v) →
      Evaluates (.array c n) (.list vs)
  | map (k c : Codec) : Evaluates (.map k c) (.map [])
  | declared {name : String} {r : RecordClass} {fields : List (String × Codec)}
      {g : String × Codec → Value} :
    m.builtins.calls name = true → m.record? name = some r →
      r.default? = some (fields.map fun f => (f.1, .default f.2)) →
      (∀ f ∈ fields, Evaluates f.2 (g f)) →
      Evaluates (.declared name) (.object (.record r.name) (fields.map fun f => (f.1, g f)))

end Module

end WireSchema
