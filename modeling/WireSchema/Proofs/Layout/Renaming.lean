import WireSchema.Proofs.Layout.Parsed
import WireSchema.Proofs.Wire.Mirrored

/-!
# Types under other names

Where declared types have other names, all distinct from those of the types that are not declared,
the codec of a type is the codec under the new names, and the same records have a default.
-/

namespace WireSchema

namespace Renaming

variable {ρ : Renaming}

theorem typeExprs_eq_map (ρ : Renaming) (ts : List TypeExpr) :
    ρ.typeExprs ts = ts.map ρ.typeExpr := by
  induction ts with
  | nil => simp [typeExprs]
  | cons t ts ih => simp [typeExprs, ih]

mutual
/-- With all names kept, a type stays as it is. -/
theorem typeExpr_keep : ∀ t, keep.typeExpr t = t
  | .named name => by simp [typeExpr, keep]
  | .applied name args => by rw [typeExpr, typeExprs_keep args]
  | .array element size => by rw [typeExpr, typeExpr_keep element]

theorem typeExprs_keep : ∀ ts, keep.typeExprs ts = ts
  | [] => by simp only [typeExprs]
  | t :: ts => by rw [typeExprs, typeExpr_keep t, typeExprs_keep ts]
end

/-- With all names kept, a codec stays as it is. -/
theorem codec_keep (c : Codec) : keep.codec c = c := by
  induction c with
  | int | bool | string | packedBools | declared => rfl
  | optional c ih | list c ih | array c n ih => rw [codec, ih]
  | map k c ihk ihc => rw [codec, ihk, ihc]

theorem typeExpr_primitive (p : Primitive) : ρ.typeExpr (.named p.name) = .named p.name := by
  simp [typeExpr, isPrimitiveName, Primitive.ofName?_name]

theorem typeExpr_declared {name : String} (h : FreeTypeName name) :
    ρ.typeExpr (.named name) = .named (ρ.type name) := by
  simp [typeExpr, isPrimitiveName, h.ofName?_eq_none]

theorem codec_ofPrimitive (p : Primitive) : ρ.codec (Codec.ofPrimitive p) = Codec.ofPrimitive p := by
  cases p <;> rfl

theorem codec_ofArray (c : Codec) (n : Nat) :
    ρ.codec (Codec.ofArray c n) = Codec.ofArray (ρ.codec c) n := by
  have hbool : ρ.codec c = .bool ↔ c = .bool := by
    cases c <;> simp [codec]
  simp only [Codec.ofArray, hbool]
  split <;> rfl

section

variable {declared : List String} (hfree : ∀ name ∈ declared, FreeTypeName name)
  {t : TypeExpr} (ht : t.WellFormed declared)
include hfree ht

/-- A type under new names has the codec under new names. -/
theorem codec_typeExpr (hfree' : ∀ name ∈ declared, FreeTypeName (ρ.type name)) :
    (ρ.typeExpr t).codec = ρ.codec t.codec := by
  induction ht with
  | primitive p => rw [typeExpr_primitive, TypeExpr.codec_primitive, codec_ofPrimitive]
  | declared hname =>
    rw [typeExpr_declared (hfree _ hname), (hfree _ hname).codec_named, (hfree' _ hname).codec_named]
    rfl
  | optional _ ih | list _ ih =>
    rw [typeExpr, typeExprs_eq_map]
    exact congrArg _ ih
  | map key _ ih =>
    rw [typeExpr, typeExprs_eq_map, List.map_cons, List.map_cons, List.map_nil, typeExpr_primitive]
    simp only [TypeExpr.codec, TypeExpr.codecs, ih, Primitive.ofName?_name]
    exact congrArg (Codec.map · _) (codec_ofPrimitive key).symm
  | array size _ ih => rw [typeExpr, TypeExpr.codec, TypeExpr.codec, ih, codec_ofArray]

/-- A type under new names has a default if the type does. -/
theorem hasDefault_typeExpr (hfree' : ∀ name ∈ declared, FreeTypeName (ρ.type name))
    {known known' : List String}
    (hknown : ∀ name ∈ declared, known'.contains (ρ.type name) = known.contains name) :
    (ρ.typeExpr t).hasDefault known' = t.hasDefault known := by
  induction ht with
  | primitive p =>
    rw [typeExpr_primitive]
    simp [TypeExpr.hasDefault, isPrimitiveName, Primitive.ofName?_name]
  | declared hname =>
    rw [typeExpr_declared (hfree _ hname), (hfree _ hname).hasDefault_named,
      (hfree' _ hname).hasDefault_named, hknown _ hname]
  | optional | list | map => rfl
  | array size _ ih => rw [typeExpr, TypeExpr.hasDefault, TypeExpr.hasDefault, ih]

end

end Renaming

end WireSchema
