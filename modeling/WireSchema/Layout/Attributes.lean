import WireSchema.Layout.HookPath
import WireSchema.Layout.TagWidth

/-!
# Attributes

What annotation blocks say about a declaration, a field or a variant. Blocks are merged from left
to right: a value given later takes the place of an earlier one, and a flag is set once any block
sets it. Each kind of attributes has an empty value that merging leaves out of account.
-/

namespace WireSchema

def later {α : Type} : Option α → Option α → Option α
  | _, some b => some b
  | a, none => a

@[simp] theorem later_none {α : Type} (a : Option α) : later a none = a := by
  cases a <;> rfl

@[simp] theorem later_some {α : Type} (a : Option α) (b : α) : later a (some b) = some b := by
  cases a <;> rfl

@[simp] theorem none_later {α : Type} (b : Option α) : later none b = b := by
  cases b <;> rfl

theorem later_assoc {α : Type} (a b c : Option α) :
    later (later a b) c = later a (later b c) := by
  cases c <;> simp

structure FieldAttributes where
  orderNo : Option Int := none
  ignore : Bool := false
deriving DecidableEq, Repr, Inhabited

namespace FieldAttributes

def empty : FieldAttributes := {}

def merge (a b : FieldAttributes) : FieldAttributes :=
  ⟨later a.orderNo b.orderNo, a.ignore || b.ignore⟩

end FieldAttributes

structure VariantAttributes where
  value : Option Int := none
deriving DecidableEq, Repr, Inhabited

namespace VariantAttributes

def empty : VariantAttributes := {}

def merge (a b : VariantAttributes) : VariantAttributes :=
  ⟨later a.value b.value⟩

end VariantAttributes

/-- The options that only a union has. -/
structure UnionOptions where
  width? : Option TagWidth := none
  inferred : Bool := false
deriving DecidableEq, Repr, Inhabited

namespace UnionOptions

def empty : UnionOptions := {}

def merge (a b : UnionOptions) : UnionOptions :=
  ⟨later a.width? b.width?, a.inferred || b.inferred⟩

def width (o : UnionOptions) : TagWidth :=
  match o.width? with
  | some w => w
  | none => default

/-- Options that may be absent on either side. -/
def mergeOptional : Option UnionOptions → Option UnionOptions → Option UnionOptions
  | none, b => b
  | a, none => a
  | some a, some b => some (a.merge b)

end UnionOptions

/-- Attributes of a record or a union. The location is that of the first block with an option that
only a union has, so that such a block on a record can be reported. -/
structure TypeAttributes where
  preEncode : Option String := none
  postEncode : Option String := none
  preDecode : Option String := none
  postDecode : Option String := none
  unionOptions : Option UnionOptions := none
  unionLocation : Option Location := none
deriving DecidableEq, Repr, Inhabited

namespace TypeAttributes

def empty : TypeAttributes := {}

def merge (a b : TypeAttributes) : TypeAttributes where
  preEncode := later a.preEncode b.preEncode
  postEncode := later a.postEncode b.postEncode
  preDecode := later a.preDecode b.preDecode
  postDecode := later a.postDecode b.postDecode
  unionOptions := UnionOptions.mergeOptional a.unionOptions b.unionOptions
  unionLocation := a.unionLocation.or b.unionLocation

def hooks (a : TypeAttributes) : List String :=
  [a.preEncode, a.postEncode, a.preDecode, a.postDecode].filterMap id

end TypeAttributes

end WireSchema
