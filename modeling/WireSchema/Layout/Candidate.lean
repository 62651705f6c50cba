import WireSchema.Layout.Tags

/-!
# Candidate tags

The rule for tags, said of one variant at a time and without assigning any: which tag a variant
would have by itself, and which variant of a union is the first that cannot have it.
-/

namespace WireSchema

/-- The tag of the variant at a position. A stated tag comes from an annotation, a written one from
a discriminant; any other is inferred, and the number after the largest of 128 bits is zero. -/
inductive Candidate (options : UnionOptions) (variants : List (Variant × VariantAttributes)) :
    Nat → Int → Prop
  | stated {i : Nat} {v : Variant} {a : VariantAttributes} {tag : Int} :
    variants[i]? = some (v, a) → a.value = some tag → Candidate options variants i tag
  | written {i : Nat} {v : Variant} {a : VariantAttributes} {text : String} {tag : Nat} :
    variants[i]? = some (v, a) → a.value = none → v.discriminant = some text →
      readDiscriminant text v.location = .ok tag → Candidate options variants i tag
  | first {v : Variant} {a : VariantAttributes} :
    variants[0]? = some (v, a) → a.value = none → v.discriminant = none →
      options.inferred = true → Candidate options variants 0 0
  | next {i : Nat} {v : Variant} {a : VariantAttributes} {tag : Int} :
    variants[i + 1]? = some (v, a) → a.value = none → v.discriminant = none →
      options.inferred = true → Candidate options variants i tag →
      Candidate options variants (i + 1) ((tag + 1) % (maxTagValue + 1))

namespace Candidate

variable {options : UnionOptions} {variants : List (Variant × VariantAttributes)}

/-- A variant has at most one candidate. -/
theorem unique {i : Nat} {s t : Int} (hs : Candidate options variants i s)
    (ht : Candidate options variants i t) : s = t := by
  induction hs generalizing t with
  | stated => cases ht <;> simp_all
  | written => cases ht <;> simp_all
  | first => cases ht <;> simp_all
  | next _ _ _ _ _ ih =>
    cases ht with
    | next _ _ _ _ h => rw [ih h]
    | stated => simp_all
    | written => simp_all

end Candidate

/-- A variant that says itself what its tag is, whatever variants are before it. -/
def StatesTag (x : Variant × VariantAttributes) : Prop := x.2.value.isSome ∨ x.1.discriminant.isSome

/-- Variants of which those at the chosen positions have the tags given here for stated ones. -/
def pinTags (chosen : Nat → Bool) (variants : List (Variant × VariantAttributes)) (tags : List Int) :
    List (Variant × VariantAttributes) :=
  (variants.zip tags).mapIdx fun i x =>
    if chosen i then (x.1.1, { x.1.2 with value := some x.2 }) else x.1

/-- Whether the variant at a position has a candidate that no variant before it has and that fits
the width. -/
def HasOwnTag (options : UnionOptions) (variants : List (Variant × VariantAttributes)) (i : Nat) :
    Prop :=
  ∃ tag, Candidate options variants i tag ∧ tag ≤ options.width.maxValue ∧
    ∀ j < i, ¬ Candidate options variants j tag

/-- What is wrong with the tag of the variant at a position: nothing says what it is, a variant
before it has it, or it does not fit. The first of these is the one that counts. -/
inductive TagFault (options : UnionOptions) (variants : List (Variant × VariantAttributes)) (i : Nat) :
    LayoutError → Prop
  | missing {v : Variant} {a : VariantAttributes} :
    variants[i]? = some (v, a) → a.value = none → v.discriminant = none →
      options.inferred = false → TagFault options variants i ⟨.noTag, v.location⟩
  | written {v : Variant} {a : VariantAttributes} {text : String} {e : LayoutError} :
    variants[i]? = some (v, a) → a.value = none → v.discriminant = some text →
      readDiscriminant text v.location = .error e → TagFault options variants i e
  | shared {v : Variant} {a : VariantAttributes} {tag : Int} {j : Nat} :
    variants[i]? = some (v, a) → Candidate options variants i tag → j < i →
      Candidate options variants j tag → TagFault options variants i ⟨.sharedTag tag, v.location⟩
  | tooLarge {v : Variant} {a : VariantAttributes} {tag : Int} :
    variants[i]? = some (v, a) → Candidate options variants i tag →
      (∀ j < i, ¬ Candidate options variants j tag) → options.width.maxValue < tag →
      TagFault options variants i ⟨.tagTooLarge tag options.width, v.location⟩

end WireSchema
