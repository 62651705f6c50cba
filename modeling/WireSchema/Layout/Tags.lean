import WireSchema.Layout.Attributes
import WireSchema.Layout.Discriminant

/-!
# Tags

Every variant of a union has a tag. It is the value its annotation gives, or else its discriminant,
or else, where tags are inferred, the number after the tag before it. The tags of a union differ,
and none is larger than its width allows. No schema gives a variant a negative value, but a value
from elsewhere may be negative.
-/

namespace WireSchema

/-- The tag inferred after another; after the largest number of 128 bits comes zero. -/
def nextTag : Option Int → Int
  | none => 0
  | some last => (last + 1) % (maxTagValue + 1)

/-- The tag of a variant, given the tag before it. -/
def ownTag (options : UnionOptions) (last : Option Int) (v : Variant) (a : VariantAttributes) :
    Resolved Int :=
  match a.value, v.discriminant with
  | some value, _ => pure value
  | none, some text => do return (← readDiscriminant text v.location : Nat)
  | none, none =>
    if options.inferred then pure (nextTag last) else unresolved .noTag v.location

/-- The tags of the variants behind those whose tags are `used`, the latest of which comes first. -/
def assignFrom (options : UnionOptions) :
    List Int → List (Variant × VariantAttributes) → Resolved (List Int)
  | _, [] => pure []
  | used, (v, a) :: rest => do
    let tag ← ownTag options used.head? v a
    if used.contains tag then unresolved (.sharedTag tag) v.location
    else if options.width.maxValue < tag then
      unresolved (.tagTooLarge tag options.width) v.location
    else return tag :: (← assignFrom options (tag :: used) rest)

/-- The tags of a union's variants, in declaration order. -/
def assignTags (options : UnionOptions) (variants : List (Variant × VariantAttributes)) :
    Resolved (List Int) :=
  assignFrom options [] variants

end WireSchema
