import WireSchema.Layout.Basic
import WireSchema.Schema.WellFormed

/-!
# Classes that can be made

A layout is emitted as classes, and whether these can be made is up to names. `dataclass` takes an
attribute of a class by the name of a field for the default of the field, and every class has the
method `type.mro`; a field with a default cannot stand in front of one without. Class methods are made
by what goes by the name `classmethod`, which can be a class in front.
-/

namespace WireSchema

/-- The one method of `type` by whose name a field can be called. -/
def mroName : String := "mro"

/-- No field but the last is named `mro`. -/
def MroLast (fields : List Field) : Prop :=
  ∀ name ∈ (fields.map Field.ident).dropLast, name ≠ mroName

instance (fields : List Field) : Decidable (MroLast fields) :=
  inferInstanceAs (Decidable (∀ name ∈ (fields.map Field.ident).dropLast, name ≠ mroName))

/-- Whether fields of these names take one value by position, for those that have no default. -/
def takesOne (names : List String) : Bool :=
  !names.isEmpty && (names.filter (· ≠ mroName)).length ≤ 1

namespace Schema

/-- The classes of all declarations can be made, one behind the other. A class with the name
`classmethod` is the last one or can stand in for it: that of a record is called with a method, and that
of a union cannot be called. -/
structure Makeable (s : Schema) : Prop where
  records : ∀ r ∈ s.records, MroLast r.fields
  variants : ∀ u ∈ s.unions, ∀ v ∈ u.variants, MroLast v.fields
  recordStandsIn : ∀ r ∈ s.records, r.name = "classmethod" →
    takesOne (r.fields.map Field.ident) = true ∨ s.names.getLast? = some r.name
  unionStandsIn : ∀ u ∈ s.unions, u.name = "classmethod" →
    u.variants.length = 0 ∧ s.names.getLast? = some u.name

theorem makeable_iff {s : Schema} :
    s.Makeable ↔
      (∀ r ∈ s.records, MroLast r.fields ∧ (r.name = "classmethod" →
        takesOne (r.fields.map Field.ident) = true ∨ s.names.getLast? = some r.name)) ∧
      ∀ u ∈ s.unions, (∀ v ∈ u.variants, MroLast v.fields) ∧ (u.name = "classmethod" →
        u.variants.length = 0 ∧ s.names.getLast? = some u.name) := by
  constructor
  · exact fun h => ⟨fun r hr => ⟨h.records r hr, h.recordStandsIn r hr⟩,
      fun u hu => ⟨h.variants u hu, h.unionStandsIn u hu⟩⟩
  · exact fun h => ⟨fun r hr => (h.1 r hr).1, fun u hu => (h.2 u hu).1,
      fun r hr => (h.1 r hr).2, fun u hu => (h.2 u hu).2⟩

instance (s : Schema) : Decidable s.Makeable := decidable_of_iff _ makeable_iff.symm

end Schema

namespace Layout

variable (S : Layout)

def schema : Schema := ⟨S.records.map RecordLayout.record, S.unions.map UnionLayout.union⟩

/-- Whether no module of a hook is bound to a name by which classes are made. -/
def keepsDecorators : Bool :=
  !S.hookNames.contains "classmethod" &&
    (!S.hookNames.contains "dataclass" || S.records.isEmpty && S.unions.all (·.variants.isEmpty))

def isMakeable : Bool := S.schema.Makeable && S.keepsDecorators

end Layout

end WireSchema
