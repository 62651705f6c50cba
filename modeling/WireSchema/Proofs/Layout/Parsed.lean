import Mathlib.Data.List.Nodup
import WireSchema.Proofs.Schema.Passing

/-!
# Layouts of texts

The layout of the schema that a text defines is well formed. Its codecs refer to nothing but its
declarations, because the types of the schema do, and fields without a name are told apart by their
positions.
-/

namespace WireSchema

/-! ## Codecs of types -/

namespace Layout

variable {S : Layout}

theorem admits_ofPrimitive (p : Primitive) : S.Admits (Codec.ofPrimitive p) :=
  .of_isKey (Codec.isKey_ofPrimitive p)

theorem Admits.ofArray {c : Codec} (h : S.Admits c) (n : Nat) : S.Admits (Codec.ofArray c n) := by
  unfold Codec.ofArray
  split
  · exact .packedBools
  · exact .array n h

theorem admits_codec {declared : List String} (hfree : ∀ name ∈ declared, FreeTypeName name)
    (hnames : ∀ name ∈ declared, name ∈ S.names) {t : TypeExpr} (ht : t.WellFormed declared) :
    S.Admits t.codec := by
  induction ht with
  | primitive p =>
    rw [TypeExpr.codec_primitive]
    exact admits_ofPrimitive p
  | declared hname =>
    rw [(hfree _ hname).codec_named]
    exact .declared (hnames _ hname)
  | optional _ ih => exact .optional ih
  | list _ ih => exact .list ih
  | map key _ ih =>
    simp only [TypeExpr.codec, TypeExpr.codecs, Primitive.ofName?_name]
    exact .map (Codec.isKey_ofPrimitive key) ih
  | array n _ ih => exact ih.ofArray n

end Layout

/-! ## Names of fields -/

theorem Field.ident_of_name {f : Field} {name : String} (h : f.name = some name) :
    f.ident = name := by
  rw [ident, h]

theorem Field.ident_of_unnamed {f : Field} (h : f.name = none) :
    f.ident = "f" ++ toString f.index := by
  rw [ident, h]

/-- Fields that all have a name go by these names. -/
theorem map_ident_of_named {fields : List Field} (h : ∀ f ∈ fields, f.name.isSome) :
    fields.map Field.ident = fields.filterMap Field.name := by
  induction fields with
  | nil => rfl
  | cons f fs ih =>
    obtain ⟨name, hname⟩ := Option.isSome_iff_exists.1 (h f (.head _))
    rw [List.map_cons, List.filterMap_cons, hname, Field.ident_of_name hname,
      ih fun f hf => h f (.tail _ hf)]

/-- Fields without a name go by their positions. -/
theorem map_ident_of_unnamed {fields : List Field} (h : ∀ f ∈ fields, f.name = none) :
    fields.map Field.ident = (fields.map Field.index).map fun n => "f" ++ toString n := by
  rw [List.map_map]
  exact List.map_congr_left fun f hf => Field.ident_of_unnamed (h f hf)

theorem eq_of_toString_eq {m n : Nat} (h : toString m = toString n) : m = n := by
  have hdigits := congrArg String.toList h
  rw [Nat.toString_eq_repr, Nat.toString_eq_repr, Nat.toList_repr, Nat.toList_repr] at hdigits
  rw [← Nat.ofDigitChars_toDigits (n := m) (by decide : 1 < 10) (by decide), hdigits,
    Nat.ofDigitChars_toDigits (by decide) (by decide)]

theorem eq_of_position_eq {m n : Nat} (h : "f" ++ toString m = "f" ++ toString n) : m = n :=
  eq_of_toString_eq ((String.append_right_inj _).1 h)

theorem UniformFields.nodup_map_ident {fields : List Field} (h : UniformFields fields)
    (hdistinct : (fields.filterMap Field.name).Nodup) : (fields.map Field.ident).Nodup := by
  rcases h with hnamed | ⟨hunnamed, hindex⟩
  · rwa [map_ident_of_named hnamed]
  · rw [map_ident_of_unnamed hunnamed, hindex]
    exact List.nodup_range.map fun _ _ => eq_of_position_eq

theorem FreeName.ne_class {name : String} (h : FreeName name) : name ≠ "__class__" := by
  rintro rfl
  exact h.2.1 rfl

theorem Field.ident_ne_class {declared : List String} {fields : List Field}
    (h : WellFormedFields declared fields) {f : Field} (hf : f ∈ fields) :
    f.ident ≠ "__class__" := by
  cases hname : f.name with
  | some name =>
    rw [ident_of_name hname]
    exact (h.free f hf name hname).1.ne_class
  | none =>
    rw [ident_of_unnamed hname]
    intro heq
    have hhead := congrArg (fun s => s.toList.head?) heq
    simp [String.toList_append] at hhead

/-! ## Layouts -/

namespace Layout

variable {S : Layout} {s : Schema}

theorem fieldsWellFormed_of_wellFormedFields (hs : s.WellFormed) (hnames : S.names = s.names)
    {fields : List Field} (hfields : WellFormedFields s.names fields)
    (huniform : UniformFields fields) : S.FieldsWellFormed fields where
  distinct := huniform.nodup_map_ident hfields.distinct
  free _ hf := Field.ident_ne_class hfields hf
  admits f hf := admits_codec hs.free (fun _ hname => hnames ▸ hname) (hfields.types f hf)

namespace Resolves

variable (h : S.Resolves s) (hs : s.WellFormed) (huniform : s.Uniform)
include h hs huniform

theorem wellFormed_record {r : RecordLayout} (hr : r ∈ S.records) : r.WellFormed S := by
  have hmem : r.record ∈ s.records := h.records ▸ List.mem_map_of_mem hr
  have hresolves := h.recordsResolve r hr
  have hfields := hs.records r.record hmem
  refine ⟨hresolves.order, ?_, fun f hf hignore => ?_⟩
  · rw [hresolves.fields]
    exact fieldsWellFormed_of_wellFormedFields hs h.names_eq hfields (huniform.records _ hmem)
  · have hf' : f.field ∈ r.record.fields := hresolves.fields ▸ List.mem_map_of_mem hf
    exact h.isSome_fieldDefault? hs (hfields.types f.field hf') (hresolves.ignored f hf hignore)

theorem wellFormed_union {u : UnionLayout} (hu : u ∈ S.unions) : u.WellFormed S := by
  have hmem : u.union ∈ s.unions := h.unions ▸ List.mem_map_of_mem hu
  have hresolves := h.unionsResolve u hu
  have hunion := hs.unions u.union hmem
  refine ⟨?_, hresolves.tags, hresolves.bounded, fun v hv => ?_⟩
  · have hdistinct := hunion.distinct
    rwa [← hresolves.variants, List.map_map] at hdistinct
  · have hv' : v.variant ∈ u.union.variants := hresolves.variants ▸ List.mem_map_of_mem hv
    exact fieldsWellFormed_of_wellFormedFields hs h.names_eq (hunion.fields _ hv')
      (huniform.unions _ hmem _ hv')

theorem wellFormed : S.WellFormed where
  distinct := h.names_eq ▸ hs.distinct
  records _ hr := h.wellFormed_record hs huniform hr
  unions _ hu := h.wellFormed_union hs huniform hu

end Resolves

theorem ofText_eq_ok_iff [Text.CharacterNames] {text : String} :
    ofText text = .ok S ↔ ∃ s, Schema.parse text = .ok s ∧ ofSchema s = .ok S := by
  unfold ofText
  cases Schema.parse text with
  | error why => exact ⟨nofun, fun ⟨_, h, _⟩ => nomatch h⟩
  | ok s =>
    simp only [Except.ok.injEq, exists_eq_left']
    cases ofSchema s with
    | error why => exact ⟨nofun, nofun⟩
    | ok S' => simp only [Except.ok.injEq]

theorem ofSchema_of_ofText [Text.CharacterNames] {text : String} (hs : Schema.parse text = .ok s)
    (h : ofText text = .ok S) : ofSchema s = .ok S := by
  obtain ⟨s', hs', hS⟩ := ofText_eq_ok_iff.1 h
  obtain rfl := Except.ok.inj (hs.symm.trans hs')
  exact hS

/-- A text that has a layout is known to pass the checks. -/
theorem parse_of_ofText [Text.CharacterNames] {text : String} (h : ofText text = .ok S)
    {s₀ : Schema}
    (hread : Schema.read text = .ok s₀) (hs : s₀.unescape? = some s) :
    Schema.parse text = .ok s := by
  obtain ⟨s', hs', -⟩ := ofText_eq_ok_iff.1 h
  obtain ⟨s₁, hread', hunescape, -⟩ := Schema.parse_eq_ok_iff.1 hs'
  obtain rfl := Except.ok.inj (hread.symm.trans hread')
  obtain rfl := Option.some.inj (hs.symm.trans hunescape)
  exact hs'

/-- The layout of a text is that of a schema. -/
theorem exists_schema_of_ofText [Text.CharacterNames] {text : String} (h : ofText text = .ok S) :
    ∃ s : Schema, s.WellFormed ∧ s.Uniform ∧ S.Resolves s := by
  obtain ⟨s, hparse, hresolve⟩ := ofText_eq_ok_iff.1 h
  obtain ⟨hs, huniform⟩ := Schema.of_parse hparse
  exact ⟨s, hs, huniform, resolves_of_ofSchema hresolve⟩

/-- The layout of a text is well formed. -/
theorem wellFormed_of_ofText [Text.CharacterNames] {text : String} (h : ofText text = .ok S) :
    S.WellFormed := by
  obtain ⟨s, hs, huniform, hresolves⟩ := exists_schema_of_ofText h
  exact hresolves.wellFormed hs huniform

end Layout

end WireSchema
