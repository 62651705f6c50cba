import WireSchema.Proofs.Layout.WellFormed
import WireSchema.Wire.Typed

/-!
# What is left of the names of the language

A value can be read back if the class methods of all types in it can be called and the defaults of
their ignored fields can be evaluated. If all names of the language are left, this holds of every
typed value.
-/

namespace WireSchema

namespace Builtins

/-- Other names leave the class methods of a type as they are, if they neither take the name
`classmethod` from a type nor give it to one. -/
theorem calls_ofNames_map {f : String → String} {types : List String} (others : List String)
    {type : String} (hone : ∀ t ∈ types, f t = f type → t = type)
    (hf : ∀ t ∈ types, f t = "classmethod" ↔ t = "classmethod") :
    (ofNames (types.map f) others).calls (f type) = (ofNames types others).calls type := by
  refine congrArg not ?_
  induction types with
  | nil => rfl
  | cons t types ih =>
    have hrest := ih (fun t ht => hone t (.tail _ ht)) fun t ht => hf t (.tail _ ht)
    by_cases ht : t = type
    · simp [ht]
    · have hft : f t ≠ f type := fun heq => ht (hone t (.head _) heq)
      have hsame : ("classmethod" == f t) = ("classmethod" == t) := by
        rw [Bool.eq_iff_iff, beq_iff_eq, beq_iff_eq, eq_comm, hf t (.head _), eq_comm]
      simp only [List.map_cons, List.takeWhile_cons, decide_eq_true hft, decide_eq_true ht, if_true,
        List.contains_cons, hsame, hrest]

theorem ranges_ofNames_map {f : String → String} {types : List String} (others : List String)
    (hf : ∀ t ∈ types, f t = "range" ↔ t = "range") :
    (ofNames (types.map f) others).ranges = (ofNames types others).ranges := by
  have hmem : "range" ∈ types.map f ↔ "range" ∈ types := by
    rw [List.mem_map]
    constructor
    · rintro ⟨t, ht, heq⟩
      exact (hf t ht).1 heq ▸ ht
    · exact fun ht => ⟨_, ht, (hf _ ht).2 rfl⟩
  simp only [ofNames, List.contains_eq_mem, List.mem_append, hmem]

end Builtins

theorem Codec.fills_all {declared : String → Bool} (h : ∀ name, declared name = true) (c : Codec) :
    c.fills .all declared = true := by
  induction c with
  | array c n ih => rw [fills, ih, Bool.or_true, Bool.and_true, Builtins.all]
  | declared name => exact h name
  | _ => rfl

namespace Layout

variable {S : Layout} {B : Builtins}

theorem HookFree.hookModules_eq_nil (h : S.HookFree) : S.hookModules = [] := by
  have hnone : S.typeAttributes.flatMap TypeAttributes.hooks = [] :=
    List.flatMap_eq_nil_iff.2 h
  rw [hookModules, hnone]
  rfl

theorem HookFree.hookNames_eq_nil (h : S.HookFree) : S.hookNames = [] := by
  rw [hookNames, h.hookModules_eq_nil, List.map_nil]

theorem fillsAt_all (depth : Nat) (name : String) : S.fillsAt .all depth name = true := by
  induction depth generalizing name with
  | zero => rfl
  | succ depth ih =>
    rw [fillsAt, Builtins.all, Bool.true_and, Option.all_eq_true]
    exact fun r _ => List.all_eq_true.2 fun f _ => Codec.fills_all ih f.field.codec

/-- Whether the defaults of all ignored fields can be evaluated. -/
def fillsIgnored (S : Layout) (B : Builtins) (fields : List FieldLayout) : Bool :=
  fields.all fun l => !l.attributes.ignore || S.fills B l.field

theorem fillsIgnored_all (fields : List FieldLayout) : S.fillsIgnored .all fields = true := by
  have hfills : ∀ f, S.fills .all f = true := fun f => Codec.fills_all (S.fillsAt_all _) f.codec
  simp [fillsIgnored, hfills]

/-- Whether nothing keeps values of a declaration from being completed. -/
def fillsOf (S : Layout) (B : Builtins) : Declaration → Bool
  | .record r => S.fillsIgnored B r.fields
  | .union _ => true

/-- Values with nothing in them, outside of ignored fields, that cannot be called or evaluated. -/
inductive Callable (S : Layout) (B : Builtins) : Codec → Value → Prop
  | int (k : IntKind) (v : Value) : Callable S B (.int k) v
  | bool (v : Value) : Callable S B .bool v
  | string (v : Value) : Callable S B .string v
  | packedBools (v : Value) : Callable S B .packedBools v
  | absent (c : Codec) : Callable S B (.optional c) .none
  | present {c : Codec} {v : Value} : Callable S B c v → Callable S B (.optional c) v
  | list {c : Codec} {vs : List Value} :
    (∀ v ∈ vs, Callable S B c v) → Callable S B (.list c) (.list vs)
  | array {c : Codec} {vs : List Value} (n : Nat) :
    (∀ v ∈ vs, Callable S B c v) → Callable S B (.array c n) (.list vs)
  | map {k c : Codec} {es : List (Value × Value)} :
    (∀ e ∈ es, Callable S B k e.1) → (∀ e ∈ es, Callable S B c e.2) →
      Callable S B (.map k c) (.map es)
  | record {r : RecordLayout} {fields : List (String × Value)} :
    S.record? r.name = some r → B.calls r.name = true → S.fillsIgnored B r.fields = true →
      (∀ f ∈ r.wireFields, ∀ e ∈ fields, e.1 = f.ident → Callable S B f.codec e.2) →
      Callable S B (.declared r.name) (.object (.record r.name) fields)
  | variant {u : UnionLayout} {v : VariantLayout} {fields : List (String × Value)} :
    S.variant? u.name v.name = some (u, v) → B.calls u.name = true →
      (∀ f ∈ v.variant.fields, ∀ e ∈ fields, e.1 = f.ident → Callable S B f.codec e.2) →
      Callable S B (.declared u.name) (.object (.variant u.name v.name) fields)

theorem callable_all {most : Nat} {c : Codec} {v : Value} (h : S.HasType most c v) :
    S.Callable .all c v := by
  induction h with
  | int => exact .int _ _
  | bool => exact .bool _
  | text => exact .string _
  | packedBools => exact .packedBools _
  | absent c => exact .absent c
  | present _ ih => exact .present ih
  | list _ _ _ ih => exact .list ih
  | array _ ih => exact .array _ ih
  | map _ _ _ _ ihk ihc => exact .map ihk ihc
  | record hr _ _ ih => exact .record hr rfl (fillsIgnored_all _) ih
  | variant hv _ _ ih => exact .variant hv rfl ih

theorem Callable.of_record {r : RecordLayout} (hr : S.record? r.name = some r)
    {fields : List (String × Value)}
    (h : S.Callable B (.declared r.name) (.object (.record r.name) fields)) :
    B.calls r.name = true ∧ S.fillsIgnored B r.fields = true ∧
      ∀ f ∈ r.wireFields, ∀ e ∈ fields, e.1 = f.ident → S.Callable B f.codec e.2 := by
  generalize hc : Codec.declared r.name = c at h
  generalize hv : Value.object (.record r.name) fields = v at h
  cases h with
  | record hr' hcalls hfills hfields =>
    obtain ⟨howner, rfl⟩ := Value.object.inj hv
    rw [← Owner.record.inj howner, hr] at hr'
    cases hr'
    exact ⟨hcalls, hfills, hfields⟩
  | int | bool | string | packedBools | present => cases hc
  | _ => cases hv

theorem Callable.of_variant {u : UnionLayout} {v : VariantLayout}
    (huv : S.variant? u.name v.name = some (u, v)) {fields : List (String × Value)}
    (h : S.Callable B (.declared u.name) (.object (.variant u.name v.name) fields)) :
    B.calls u.name = true ∧
      ∀ f ∈ v.variant.fields, ∀ e ∈ fields, e.1 = f.ident → S.Callable B f.codec e.2 := by
  generalize hc : Codec.declared u.name = c at h
  generalize hw : Value.object (.variant u.name v.name) fields = w at h
  cases h with
  | variant huv' hcalls hfields =>
    obtain ⟨howner, rfl⟩ := Value.object.inj hw
    obtain ⟨hunion, hvariant⟩ := Owner.variant.inj howner
    rw [← hunion, ← hvariant, huv] at huv'
    cases huv'
    exact ⟨hcalls, hfields⟩
  | int | bool | string | packedBools | present => cases hc
  | _ => cases hw

end Layout

end WireSchema
