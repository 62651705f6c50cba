import WireSchema.Layout.Default

/-!
# Derivations of defaults

The rule by which types have defaults, once for given names of records that have one, and once as
derivations. Every derivation is finite, so a record whose default would hold another of the same kind
has none. A type that is no array is known by its name alone.
-/

namespace WireSchema

/-- Types with a default, if of the declared types those named in `S` have one. -/
inductive TypeExpr.DefaultsBy (S : String → Prop) : TypeExpr → Prop
  | primitive (p : Primitive) : DefaultsBy S (.named p.name)
  | generic {t : TypeExpr} : (genericArity? t.head).isSome → DefaultsBy S t
  | array {element : TypeExpr} (size : Nat) :
    DefaultsBy S element → DefaultsBy S (.array element size)
  | declared {t : TypeExpr} : t.size? = none → S t.head → DefaultsBy S t

inductive Defaultable (records : List Record) : TypeExpr → Prop
  | primitive (p : Primitive) : Defaultable records (.named p.name)
  | generic {t : TypeExpr} : (genericArity? t.head).isSome → Defaultable records t
  | array {element : TypeExpr} (size : Nat) :
    Defaultable records element → Defaultable records (.array element size)
  | record {r : Record} {t : TypeExpr} :
    r ∈ records → (∀ f ∈ r.fields, Defaultable records f.type) → t.size? = none →
      t.head = r.name → Defaultable records t

/-- Names are added in rounds as long as a round adds any. -/
inductive Settles (records : List Record) : List String → List String → Prop
  | done {known : List String} :
    addDefaultable records known = known → Settles records known known
  | more {known result : List String} :
    addDefaultable records known ≠ known → Settles records (addDefaultable records known) result →
      Settles records known result

end WireSchema
