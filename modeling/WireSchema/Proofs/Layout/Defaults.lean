import Mathlib.Data.List.Perm.Subperm
import WireSchema.Proofs.Layout.Resolving
import WireSchema.Proofs.Layout.WellFormed

/-!
# Ignored fields have defaults

The names of records with a default are found one after the other, each from those found before. So
the default of the last one needs no more nested defaults than there are names before it, and as the
names are distinct there are no more of them than records.
-/

namespace WireSchema

/-! ## Names of declarations among types -/

namespace FreeTypeName

variable {name : String} (h : FreeTypeName name)
include h

theorem ofName?_eq_none : Primitive.ofName? name = none := by
  cases hp : Primitive.ofName? name with
  | none => rfl
  | some p => exact absurd (Primitive.name_of_ofName? hp).symm (h.2.2.1 p)

theorem genericArity?_eq_none : genericArity? name = none := by
  cases harity : genericArity? name with
  | none => rfl
  | some arity =>
    refine absurd ?_ h.2.2.2
    rcases genericArity?_eq_some harity with ⟨rfl | rfl, -⟩ | ⟨rfl, -⟩ <;> decide

theorem codec_named : (TypeExpr.named name).codec = .declared name := by
  simp only [TypeExpr.codec, h.ofName?_eq_none]

theorem hasDefault_named (known : List String) :
    (TypeExpr.named name).hasDefault known = known.contains name := by
  simp only [TypeExpr.hasDefault, isPrimitiveName, h.ofName?_eq_none, h.genericArity?_eq_none,
    Option.isSome_none, Bool.false_or]

end FreeTypeName

theorem TypeExpr.codec_primitive (p : Primitive) :
    (TypeExpr.named p.name).codec = Codec.ofPrimitive p := by
  simp only [codec, Primitive.ofName?_name]

/-! ## Defaults of types -/

/-- A default that is found from those of some declared types is found from those of more. -/
theorem Codec.default?_mono {f g : String → Option Value}
    (h : ∀ name v, f name = some v → g name = some v) {c : Codec} {v : Value}
    (hc : c.default? f = some v) : c.default? g = some v := by
  induction c generalizing v with
  | int | bool | string | packedBools | optional | list | map => exact hc
  | array c n ih =>
    rw [default?, Option.map_eq_some_iff] at hc ⊢
    obtain ⟨w, hw, rfl⟩ := hc
    exact ⟨w, ih hw, rfl⟩
  | declared name => exact h name v hc

theorem Codec.isSome_default?_ofArray {f : String → Option Value} {c : Codec} (n : Nat)
    (hc : (c.default? f).isSome) : ((Codec.ofArray c n).default? f).isSome := by
  unfold ofArray
  split
  · rfl
  · rw [default?, Option.isSome_map]
    exact hc

/-- A type that is said to have a default has one, if the declared types do. -/
theorem TypeExpr.WellFormed.isSome_default? {declared known : List String}
    (hfree : ∀ name ∈ declared, FreeTypeName name) {f : String → Option Value}
    (hf : ∀ name ∈ known, (f name).isSome) {t : TypeExpr} (ht : t.WellFormed declared)
    (h : t.hasDefault known = true) : (t.codec.default? f).isSome := by
  induction ht with
  | primitive p =>
    rw [codec_primitive]
    cases p <;> rfl
  | @declared name hname =>
    rw [(hfree name hname).hasDefault_named, List.contains_iff_mem] at h
    rw [(hfree name hname).codec_named]
    exact hf name h
  | optional => rfl
  | list => rfl
  | map => rfl
  | array n _ ih => exact Codec.isSome_default?_ofArray n (ih h)

/-! ## Finding the records with a default -/

/-- Names of records found one after the other, the last in front. The fields of each have a default
by those found before. -/
inductive Grown (records : List Record) : List String → Prop
  | nil : Grown records []
  | cons {known : List String} {r : Record} :
    Grown records known → r ∈ records → r.name ∉ known →
      (∀ f ∈ r.fields, f.type.hasDefault known = true) → Grown records (r.name :: known)

namespace Grown

variable {records : List Record} {known : List String}

theorem nodup (h : Grown records known) : known.Nodup := by
  induction h with
  | nil => exact List.nodup_nil
  | cons _ _ hnew _ ih => exact List.nodup_cons.2 ⟨hnew, ih⟩

theorem subset (h : Grown records known) : known ⊆ records.map Record.name := by
  induction h with
  | nil => exact List.nil_subset _
  | cons _ hr _ _ ih => exact List.cons_subset.2 ⟨List.mem_map_of_mem hr, ih⟩

theorem length_le (h : Grown records known) : known.length ≤ records.length := by
  have hle := (h.nodup.subperm h.subset).length_le
  rwa [List.length_map] at hle

theorem foldl_addDefaultable (h : Grown records known) {rs : List Record} (hrs : rs ⊆ records) :
    Grown records (addDefaultable rs known) := by
  induction rs generalizing known with
  | nil => exact h
  | cons r rs ih =>
    obtain ⟨hr, hrs⟩ := List.cons_subset.1 hrs
    rw [addDefaultable, List.foldl_cons]
    refine ih ?_ hrs
    split
    next => exact h
    next hnew =>
      split
      next hfields =>
        rw [List.all_eq_true] at hfields
        exact .cons h hr (by simpa using hnew) hfields
      next => exact h

theorem growDefaultable (h : Grown records known) (n : Nat) :
    Grown records (growDefaultable records n known) := by
  induction n generalizing known with
  | zero => exact h
  | succ n ih =>
    unfold WireSchema.growDefaultable
    extract_lets more
    split
    next => exact h
    next => exact ih (h.foldl_addDefaultable (List.Subset.refl _))

theorem of_defaultable (records : List Record) : Grown records (defaultable records) :=
  Grown.nil.growDefaultable (records.length + 1)

end Grown

/-! ## Defaults of records -/

namespace Layout

variable {S : Layout}

/-- The default of a record is made of those of its fields. -/
theorem defaultAt_succ_eq_some {depth : Nat} {name : String} {r : RecordLayout}
    (hr : S.record? name = some r) (hdefault : r.hasDefault = true) {g : FieldLayout → Value}
    (hg : ∀ f ∈ r.fields, f.field.codec.default? (S.defaultAt depth) = some (g f)) :
    S.defaultAt (depth + 1) name =
      some (.object (.record name) (r.fields.map fun f => (f.field.ident, g f))) := by
  have hfields : (r.fields.mapM fun (f : FieldLayout) =>
      (f.field.codec.default? (S.defaultAt depth)).map fun v => (f.field.ident, v)) =
        some (r.fields.map fun f => (f.field.ident, g f)) := by
    refine mapM_eq_some_map fun f hf => ?_
    rw [hg f hf, Option.map_some]
  simp only [defaultAt, hr, hdefault, if_true, hfields, Option.map_some]

theorem isSome_defaultAt_succ_iff {depth : Nat} {name : String} :
    (S.defaultAt (depth + 1) name).isSome ↔ ∃ r, S.record? name = some r ∧ r.hasDefault = true ∧
      ∀ f ∈ r.fields, (f.field.codec.default? (S.defaultAt depth)).isSome := by
  rw [defaultAt]
  cases S.record? name with
  | none => simp
  | some r => by_cases h : r.hasDefault <;> simp [h, isSome_mapM_iff]

theorem exists_of_defaultAt_succ {depth : Nat} {name : String} {v : Value}
    (h : S.defaultAt (depth + 1) name = some v) :
    ∃ (r : RecordLayout) (g : FieldLayout → Value), S.record? name = some r ∧
      r.hasDefault = true ∧
      (∀ f ∈ r.fields, f.field.codec.default? (S.defaultAt depth) = some (g f)) ∧
      v = .object (.record name) (r.fields.map fun f => (f.field.ident, g f)) := by
  obtain ⟨r, hr, hdefault, hfields⟩ := isSome_defaultAt_succ_iff.1 (Option.isSome_of_eq_some h)
  have hg : ∀ f ∈ r.fields, f.field.codec.default? (S.defaultAt depth) =
      some ((f.field.codec.default? (S.defaultAt depth)).getD .none) := by
    intro f hf
    obtain ⟨w, hw⟩ := Option.isSome_iff_exists.1 (hfields f hf)
    rw [hw, Option.getD_some]
  have hv := defaultAt_succ_eq_some hr hdefault hg
  exact ⟨r, _, hr, hdefault, hg, Option.some.inj (h.symm.trans hv)⟩

/-- A default that needs few nested defaults is the same if more are allowed. -/
theorem defaultAt_mono {depth depth' : Nat} (h : depth ≤ depth') {name : String} {v : Value}
    (hv : S.defaultAt depth name = some v) : S.defaultAt depth' name = some v := by
  induction depth generalizing depth' name v with
  | zero => cases hv
  | succ depth ih =>
    obtain ⟨depth', rfl⟩ : ∃ n, depth' = n + 1 := ⟨depth' - 1, by omega⟩
    obtain ⟨r, g, hr, hdefault, hg, rfl⟩ := exists_of_defaultAt_succ hv
    exact defaultAt_succ_eq_some hr hdefault fun f hf =>
      Codec.default?_mono (fun _ _ => ih (Nat.le_of_succ_le_succ h)) (hg f hf)

theorem isSome_defaultAt_mono {depth depth' : Nat} (h : depth ≤ depth') {name : String}
    (hname : (S.defaultAt depth name).isSome) : (S.defaultAt depth' name).isSome := by
  obtain ⟨v, hv⟩ := Option.isSome_iff_exists.1 hname
  exact Option.isSome_of_eq_some (defaultAt_mono h hv)

namespace Resolves

variable {s : Schema} (h : S.Resolves s)
include h

/-- The layout of a schema declares the names that the schema does. -/
theorem names_eq : S.names = s.names := by
  simp only [names, Schema.names, Schema.declaredNames, ← h.records, ← h.unions, List.map_append,
    List.map_map]
  rfl

theorem length_records : s.records.length = S.records.length := by
  rw [← h.records, List.length_map]

/-- Every record of the schema has a layout that is found by its name. -/
theorem exists_record? (hs : s.WellFormed) {r : Record} (hr : r ∈ s.records) :
    ∃ l ∈ S.records, l.record = r ∧ S.record? r.name = some l := by
  rw [← h.records] at hr
  obtain ⟨l, hl, rfl⟩ := List.mem_map.1 hr
  have hdistinct := hs.distinct
  rw [← h.names_eq] at hdistinct
  exact ⟨l, hl, rfl, find?_eq_of_nodup (List.nodup_append.1 hdistinct).1 hl⟩

/-- Each record found has a default that needs no more nested defaults than there are
records found. -/
theorem isSome_defaultAt (hs : s.WellFormed) {known : List String} (hknown : Grown s.records known)
    (hsub : known ⊆ defaultable s.records) :
    ∀ name ∈ known, (S.defaultAt known.length name).isSome := by
  induction hknown with
  | nil => exact nofun
  | @cons known r _ hr _ hfields ih =>
    obtain ⟨hname, hsub⟩ := List.cons_subset.1 hsub
    have hknown := ih hsub
    intro name hmem
    rcases List.mem_cons.1 hmem with rfl | hmem
    · obtain ⟨l, hl, rfl, hfind⟩ := h.exists_record? hs hr
      have hl := h.recordsResolve l hl
      refine isSome_defaultAt_succ_iff.2 ⟨l, hfind, ?_, fun f hf => ?_⟩
      · rw [hl.hasDefault]
        exact List.contains_iff_mem.2 hname
      · have hmem : f.field ∈ l.record.fields := hl.fields ▸ List.mem_map_of_mem hf
        exact ((hs.records l.record hr).types f.field hmem).isSome_default? hs.free hknown
          (hfields f.field hmem)
    · exact isSome_defaultAt_mono (Nat.le_succ _) (hknown name hmem)

/-- Fields of a type that is said to have a default have one. -/
theorem isSome_fieldDefault? (hs : s.WellFormed) {f : Field} (hf : f.type.WellFormed s.names)
    (hdefault : f.type.hasDefault (defaultable s.records) = true) : (S.fieldDefault? f).isSome := by
  have hgrown := Grown.of_defaultable s.records
  refine hf.isSome_default? hs.free (fun name hname => ?_) hdefault
  refine isSome_defaultAt_mono ?_ (h.isSome_defaultAt hs hgrown (List.Subset.refl _) name hname)
  exact h.length_records ▸ hgrown.length_le

end Resolves

end Layout

end WireSchema
