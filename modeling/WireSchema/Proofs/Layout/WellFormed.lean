import WireSchema.Wire.Typed

/-!
# Well-formed layouts

What holds of the declarations of a layout that comes from a schema: names are distinct and refer to
declarations, the order of the wire has the same fields, tags are distinct and fit their width, and
ignored fields have a default. Everything that is proved of coding rests on these facts alone, and
not on how a schema is read and resolved.
-/

namespace WireSchema

/-- Among distinct keys, what is found by the key of a member is that member. -/
theorem find?_eq_of_nodup {α β : Type} [DecidableEq β] {key : α → β} {l : List α}
    (h : (l.map key).Nodup) {a : α} (ha : a ∈ l) : l.find? (fun x => key x = key a) = some a := by
  induction l with
  | nil => cases ha
  | cons x l ih =>
    rw [List.map_cons, List.nodup_cons] at h
    rcases List.mem_cons.1 ha with rfl | ha
    · simp
    · have hne : key x ≠ key a := fun hx => h.1 (hx ▸ List.mem_map_of_mem ha)
      rw [List.find?_cons_of_neg (by simpa using hne)]
      exact ih h.2 ha

/-- What is found by a key is a member with this key. -/
theorem mem_of_find?_key {α β : Type} [DecidableEq β] {key : α → β} {l : List α} {b : β} {a : α}
    (h : l.find? (fun x => key x = b) = some a) : a ∈ l ∧ key a = b :=
  ⟨List.mem_of_find?_eq_some h, by simpa using List.find?_some h⟩

/-! ## Codecs of a layout -/

/-- Codecs whose values can be the keys of a map. -/
inductive Codec.IsKey : Codec → Prop
  | int (k : IntKind) : IsKey (.int k)
  | bool : IsKey .bool
  | string : IsKey .string
  | optional {c : Codec} : IsKey c → IsKey (.optional c)

theorem Codec.isKey_ofPrimitive (p : Primitive) : (Codec.ofPrimitive p).IsKey := by
  cases p with
  | bool => exact .bool
  | int k => exact .int k
  | string => exact .string

namespace Layout

variable (S : Layout)

/-- Codecs that refer to nothing but declarations, and whose maps have keys. -/
inductive Admits : Codec → Prop
  | int (k : IntKind) : Admits (.int k)
  | bool : Admits .bool
  | string : Admits .string
  | packedBools : Admits .packedBools
  | optional {c : Codec} : Admits c → Admits (.optional c)
  | list {c : Codec} : Admits c → Admits (.list c)
  | array {c : Codec} (n : Nat) : Admits c → Admits (.array c n)
  | map {k c : Codec} : k.IsKey → Admits c → Admits (.map k c)
  | declared {name : String} : name ∈ S.names → Admits (.declared name)

variable {S} in
theorem Admits.of_isKey {c : Codec} (h : c.IsKey) : S.Admits c := by
  induction h with
  | int k => exact .int k
  | bool => exact .bool
  | string => exact .string
  | optional _ ih => exact .optional ih

/-! ## Declarations of a layout -/

/-- What holds of the fields of a record or variant. The name left out is one that every object can
be asked for. -/
structure FieldsWellFormed (fields : List Field) : Prop where
  distinct : (fields.map Field.ident).Nodup
  free : ∀ f ∈ fields, f.ident ≠ "__class__"
  admits : ∀ f ∈ fields, S.Admits f.codec

end Layout

structure RecordLayout.WellFormed (S : Layout) (r : RecordLayout) : Prop where
  order : r.order.Perm r.fields
  fields : S.FieldsWellFormed (r.fields.map FieldLayout.field)
  default : ∀ f ∈ r.fields, f.attributes.ignore = true → (S.fieldDefault? f.field).isSome

structure UnionLayout.WellFormed (S : Layout) (u : UnionLayout) : Prop where
  distinct : (u.variants.map VariantLayout.name).Nodup
  tags : (u.variants.map VariantLayout.tag).Nodup
  bounded : ∀ v ∈ u.variants, v.tag ≤ u.width.maxValue
  fields : ∀ v ∈ u.variants, S.FieldsWellFormed v.variant.fields

structure Layout.WellFormed (S : Layout) : Prop where
  distinct : S.names.Nodup
  records : ∀ r ∈ S.records, r.WellFormed S
  unions : ∀ u ∈ S.unions, u.WellFormed S

namespace RecordLayout

variable {S : Layout} {r : RecordLayout}

theorem mem_wireFields {f : Field} :
    f ∈ r.wireFields ↔ ∃ l ∈ r.order, l.attributes.ignore = false ∧ l.field = f := by
  simp [wireFields, and_assoc]

namespace WellFormed

variable (hr : r.WellFormed S)
include hr

theorem mem_wireFields_iff {f : Field} :
    f ∈ r.wireFields ↔ ∃ l ∈ r.fields, l.attributes.ignore = false ∧ l.field = f := by
  simp only [RecordLayout.mem_wireFields, hr.order.mem_iff]

/-- The fields on the wire are fields of the record. -/
theorem mem_fields_of_mem_wireFields {f : Field} (hf : f ∈ r.wireFields) :
    f ∈ r.fields.map FieldLayout.field := by
  obtain ⟨l, hl, -, rfl⟩ := hr.mem_wireFields_iff.1 hf
  exact List.mem_map_of_mem hl

theorem wireFields : S.FieldsWellFormed r.wireFields where
  distinct := by
    have hperm := (hr.order.map FieldLayout.field).map Field.ident
    have hsub : (r.wireFields.map Field.ident).Sublist
        ((r.order.map FieldLayout.field).map Field.ident) :=
      ((List.filter_sublist).map FieldLayout.field).map Field.ident
    exact hsub.nodup (hperm.nodup_iff.2 hr.fields.distinct)
  free f hf := hr.fields.free f (hr.mem_fields_of_mem_wireFields hf)
  admits f hf := hr.fields.admits f (hr.mem_fields_of_mem_wireFields hf)

/-- The field of a name is one only. -/
theorem eq_of_ident_eq {f g : FieldLayout} (hf : f ∈ r.fields) (hg : g ∈ r.fields)
    (h : f.field.ident = g.field.ident) : f = g := by
  have hd := hr.fields.distinct
  rw [List.map_map] at hd
  have hfind := find?_eq_of_nodup hd hf
  simp only [Function.comp, h] at hfind
  exact Option.some.inj (hfind.symm.trans (find?_eq_of_nodup hd hg))

end WellFormed

end RecordLayout

/-! ## Looking up declarations -/

namespace Layout

variable (S : Layout)

/-- The declarations of the layout. -/
def Declares : Declaration → Prop
  | .record r => r ∈ S.records
  | .union u => u ∈ S.unions

variable {S}

theorem mem_of_record? {name : String} {r : RecordLayout} (h : S.record? name = some r) :
    r ∈ S.records ∧ r.name = name :=
  mem_of_find?_key h

theorem mem_of_union? {name : String} {u : UnionLayout} (h : S.union? name = some u) :
    u ∈ S.unions ∧ u.name = name :=
  mem_of_find?_key h

theorem mem_of_variant? {union name : String} {u : UnionLayout} {v : VariantLayout}
    (h : S.variant? union name = some (u, v)) :
    u ∈ S.unions ∧ u.name = union ∧ v ∈ u.variants ∧ v.name = name := by
  unfold variant? at h
  obtain ⟨u', hu, h⟩ := Option.bind_eq_some_iff.1 h
  obtain ⟨v', hv, h⟩ := Option.bind_eq_some_iff.1 h
  cases h
  obtain ⟨hu, huname⟩ := mem_of_union? hu
  obtain ⟨hv, hvname⟩ := mem_of_find?_key hv
  exact ⟨hu, huname, hv, hvname⟩

theorem mem_names_of_record {r : RecordLayout} (hr : r ∈ S.records) : r.name ∈ S.names :=
  List.mem_append.2 (.inl (List.mem_map_of_mem hr))

theorem mem_names_of_union {u : UnionLayout} (hu : u ∈ S.unions) : u.name ∈ S.names :=
  List.mem_append.2 (.inr (List.mem_map_of_mem hu))

/-- The values of a record with one field, which is on the wire, are those of the field's type. -/
theorem HasType.record_of_single {most : Nat} {type name : String} {c : Codec} {v : Value}
    {r : RecordLayout} (hr : S.record? type = some r)
    (hfields : r.fields.map (fun l => l.field.ident) = [name])
    (hcodec : ∀ f ∈ r.wireFields, f.codec = c) (hv : S.HasType most c v) :
    S.HasType most (.declared type) (.object (.record type) [(name, v)]) := by
  obtain ⟨-, rfl⟩ := mem_of_record? hr
  refine .record hr hfields.symm fun f hf e he _ => ?_
  rwa [hcodec f hf, List.mem_singleton.1 he]

/-- The values of a variant with one field are those of the field's type. -/
theorem HasType.variant_of_single {most : Nat} {union variant name : String} {c : Codec} {v : Value}
    {x : UnionLayout × VariantLayout} (hx : S.variant? union variant = some x)
    (hfields : x.2.variant.fields.map (fun f => (f.ident, f.codec)) = [(name, c)])
    (hv : S.HasType most c v) :
    S.HasType most (.declared union) (.object (.variant union variant) [(name, v)]) := by
  obtain ⟨-, rfl, -, rfl⟩ := mem_of_variant? hx
  have hidents := congrArg (List.map Prod.fst) hfields
  rw [List.map_map] at hidents
  refine .variant hx hidents.symm fun f hf e he _ => ?_
  have hmem := List.mem_map_of_mem (f := fun f : Field => (f.ident, f.codec)) hf
  rw [hfields, List.mem_singleton] at hmem
  rwa [(Prod.mk.inj hmem).2, List.mem_singleton.1 he]

end Layout

namespace Layout.WellFormed

variable {S : Layout} (hS : S.WellFormed)
include hS

theorem record?_eq_some {r : RecordLayout} (hr : r ∈ S.records) : S.record? r.name = some r :=
  find?_eq_of_nodup (List.nodup_append.1 hS.distinct).1 hr

theorem union?_eq_some {u : UnionLayout} (hu : u ∈ S.unions) : S.union? u.name = some u :=
  find?_eq_of_nodup (List.nodup_append.1 hS.distinct).2.1 hu

/-- No record has the name of a union. -/
theorem record?_eq_none {u : UnionLayout} (hu : u ∈ S.unions) : S.record? u.name = none := by
  cases h : S.record? u.name with
  | none => rfl
  | some r =>
    obtain ⟨hr, hname⟩ := mem_of_record? h
    exact absurd hname ((List.nodup_append.1 hS.distinct).2.2 r.name (List.mem_map_of_mem hr) u.name
      (List.mem_map_of_mem hu))

theorem variant?_eq_some {u : UnionLayout} {v : VariantLayout} (hu : u ∈ S.unions)
    (hv : v ∈ u.variants) : S.variant? u.name v.name = some (u, v) := by
  have hfind : u.variants.find? (fun x => x.name = v.name) = some v :=
    find?_eq_of_nodup (hS.unions u hu).distinct hv
  simp only [variant?, hS.union?_eq_some hu, Option.bind_eq_bind, Option.bind_some, hfind]
  rfl

theorem declaration?_record {r : RecordLayout} (hr : r ∈ S.records) :
    S.declaration? r.name = some (.record r) := by
  rw [declaration?, hS.record?_eq_some hr]

theorem declaration?_union {u : UnionLayout} (hu : u ∈ S.unions) :
    S.declaration? u.name = some (.union u) := by
  rw [declaration?, hS.record?_eq_none hu, hS.union?_eq_some hu]

theorem declaration?_eq_some {d : Declaration} (hd : S.Declares d) :
    S.declaration? d.name = some d := by
  cases d with
  | record r => exact hS.declaration?_record hd
  | union u => exact hS.declaration?_union hd

/-- Every name stands for a declaration. -/
theorem exists_declaration {name : String} (h : name ∈ S.names) :
    ∃ d, S.Declares d ∧ d.name = name ∧ S.declaration? name = some d := by
  rcases List.mem_append.1 h with h | h
  · obtain ⟨r, hr, rfl⟩ := List.mem_map.1 h
    exact ⟨.record r, hr, rfl, hS.declaration?_record hr⟩
  · obtain ⟨u, hu, rfl⟩ := List.mem_map.1 h
    exact ⟨.union u, hu, rfl, hS.declaration?_union hu⟩

end Layout.WellFormed

/-! ## Layouts without hooks -/

theorem TypeAttributes.hooks_eq_nil_iff {a : TypeAttributes} :
    a.hooks = [] ↔ a.preEncode = none ∧ a.postEncode = none ∧ a.preDecode = none ∧
      a.postDecode = none := by
  simp only [hooks, List.filterMap_eq_nil_iff, List.mem_cons, List.not_mem_nil, or_false, id_eq,
    forall_eq_or_imp, forall_eq]

namespace Layout

instance (S : Layout) : Decidable S.HookFree :=
  inferInstanceAs (Decidable (∀ a ∈ S.typeAttributes, a.hooks = []))

variable {S : Layout}

theorem Declares.attributes_mem {d : Declaration} (hd : S.Declares d) :
    d.attributes ∈ S.typeAttributes := by
  cases d with
  | record r => exact List.mem_append.2 (.inl (List.mem_map_of_mem hd))
  | union u => exact List.mem_append.2 (.inr (List.mem_map_of_mem hd))

theorem HookFree.hooks_eq_nil (h : S.HookFree) {d : Declaration} (hd : S.Declares d) :
    d.attributes.preEncode = none ∧ d.attributes.postEncode = none ∧
      d.attributes.preDecode = none ∧ d.attributes.postDecode = none :=
  TypeAttributes.hooks_eq_nil_iff.1 (h _ hd.attributes_mem)

end Layout

end WireSchema
