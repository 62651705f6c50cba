import WireSchema.Wire.Declared

/-!
# Typed values

Which values belong to which type, independently of how they are written or read. The elements of a
list need not take up any bytes, and then there is a limit to their number; types whose values never
take up any are singled out by their structure alone. The limit is a parameter, as what can be read
is not held to the one that holds for what can be written.

Ignored fields can hold anything, since they are not written. `Layout.reset` puts the default of its
type into every ignored field, at every depth, and two values say the same on the wire if they are
equal after it.
-/

namespace WireSchema

namespace Layout

variable (S : Layout)

/-- No declaration has a hook. -/
def HookFree : Prop := ∀ a ∈ S.typeAttributes, a.hooks = []

/-- Types whose values are written without any bytes. -/
inductive ZeroWidth : Codec → Prop
  | empty (c : Codec) : ZeroWidth (.array c 0)
  | array {c : Codec} (size : Nat) : ZeroWidth c → ZeroWidth (.array c size)
  | record {r : RecordLayout} :
    S.record? r.name = some r → (∀ f ∈ r.wireFields, ZeroWidth f.codec) →
      ZeroWidth (.declared r.name)

/-- Values of a type, in which no list has more than `most` elements without any bytes. Nothing is
longer than a length on the wire can say. The fields of an object are those declared, in declaration
order. -/
inductive HasType (most : Nat) : Codec → Value → Prop
  | int {k : IntKind} {n : Int} :
    k.minValue ≤ n → n ≤ k.maxValue → HasType most (.int k) (.int n)
  | bool (b : Bool) : HasType most .bool (.bool b)
  | text {s : String} : s.utf8ByteSize ≤ maxLength → HasType most .string (.text s)
  | packedBools {bs : List Bool} :
    bs.length = 8 → HasType most .packedBools (.list (bs.map .bool))
  | absent (c : Codec) : HasType most (.optional c) .none
  | present {c : Codec} {v : Value} : HasType most c v → HasType most (.optional c) v
  | list {c : Codec} {vs : List Value} :
    vs.length ≤ maxLength → (ZeroWidth S c → vs.length ≤ most) → (∀ v ∈ vs, HasType most c v) →
      HasType most (.list c) (.list vs)
  | array {c : Codec} {vs : List Value} :
    (∀ v ∈ vs, HasType most c v) → HasType most (.array c vs.length) (.list vs)
  | map {k c : Codec} {es : List (Value × Value)} :
    es.length ≤ maxLength → (es.map Prod.fst).Nodup → (∀ e ∈ es, HasType most k e.1) →
      (∀ e ∈ es, HasType most c e.2) → HasType most (.map k c) (.map es)
  | record {r : RecordLayout} {fields : List (String × Value)} :
    S.record? r.name = some r → fields.map Prod.fst = r.fields.map (·.field.ident) →
      (∀ f ∈ r.wireFields, ∀ e ∈ fields, e.1 = f.ident → HasType most f.codec e.2) →
      HasType most (.declared r.name) (.object (.record r.name) fields)
  | variant {u : UnionLayout} {v : VariantLayout} {fields : List (String × Value)} :
    S.variant? u.name v.name = some (u, v) →
      fields.map Prod.fst = v.variant.fields.map Field.ident →
      (∀ f ∈ v.variant.fields, ∀ e ∈ fields, e.1 = f.ident → HasType most f.codec e.2) →
      HasType most (.declared u.name) (.object (.variant u.name v.name) fields)

/-! ## Ignored fields -/

/-- The default that an owner's field is filled with when it is read, if it is ignored. -/
def ignoredDefault? (owner : Owner) (field : String) : Option Value :=
  match owner with
  | .record name => do
    let r ← S.record? name
    let f ← r.fields.find? fun f => f.field.ident = field ∧ f.attributes.ignore
    S.fieldDefault? f.field
  | .variant _ _ => none

mutual
/-- The value with every ignored field, at every depth, set to its default. -/
def reset : Value → Value
  | .list vs => .list (resetItems vs)
  | .tuple vs => .tuple (resetItems vs)
  | .map es => .map (resetEntries es)
  | .object owner fields => .object owner (resetFields owner fields)
  | v => v

def resetItems : List Value → List Value
  | [] => []
  | v :: vs => reset v :: resetItems vs

def resetEntries : List (Value × Value) → List (Value × Value)
  | [] => []
  | (k, v) :: es => (reset k, reset v) :: resetEntries es

def resetFields (owner : Owner) : List (String × Value) → List (String × Value)
  | [] => []
  | (name, v) :: fields =>
    (name, (S.ignoredDefault? owner name).getD (reset v)) :: resetFields owner fields
end

@[simp] theorem reset_none : S.reset .none = .none := by
  simp [reset]

@[simp] theorem reset_bool (b : Bool) : S.reset (.bool b) = .bool b := by
  simp [reset]

@[simp] theorem reset_int (n : Int) : S.reset (.int n) = .int n := by
  simp [reset]

@[simp] theorem reset_text (t : String) : S.reset (.text t) = .text t := by
  simp [reset]

theorem resetItems_eq_map (vs : List Value) : S.resetItems vs = vs.map S.reset := by
  induction vs with
  | nil => simp [resetItems]
  | cons v vs ih => simp [resetItems, ih]

theorem reset_list_eq_self {vs : List Value} (h : ∀ v ∈ vs, S.reset v = v) :
    S.reset (.list vs) = .list vs := by
  rw [reset, resetItems_eq_map, List.map_congr_left h, List.map_id']

theorem resetEntries_eq_map (es : List (Value × Value)) :
    S.resetEntries es = es.map fun e => (S.reset e.1, S.reset e.2) := by
  induction es with
  | nil => simp [resetEntries]
  | cons e es ih => simp [resetEntries, ih]

theorem resetFields_eq_map (owner : Owner) (fields : List (String × Value)) :
    S.resetFields owner fields =
      fields.map fun e => (e.1, (S.ignoredDefault? owner e.1).getD (S.reset e.2)) := by
  induction fields with
  | nil => simp [resetFields]
  | cons e fields ih => simp [resetFields, ih]

end Layout

end WireSchema
