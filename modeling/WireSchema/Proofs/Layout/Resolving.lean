import WireSchema.Proofs.Schema.Checking
import WireSchema.Layout.Basic

/-!
# What resolving ensures

A layout has the declarations of its schema, in order and with the fields and variants declared. The
order of the wire rearranges the fields of a record, ignored fields are of types with a default, and
the tags of a union are natural numbers that differ and fit.
-/

namespace WireSchema

/-! ## Lists resolved one by one -/

section

variable {ε α β γ : Type} {f : α → Except ε β} {as : List α} {bs : List β}

theorem mapM_cons_eq_ok {a : α} (h : (a :: as).mapM f = .ok bs) :
    ∃ b bs', f a = .ok b ∧ as.mapM f = .ok bs' ∧ bs = b :: bs' := by
  rw [List.mapM_cons] at h
  obtain ⟨b, hb, h⟩ := exists_of_bind_eq_ok h
  obtain ⟨bs', hbs', h⟩ := exists_of_bind_eq_ok h
  cases h
  exact ⟨b, bs', hb, hbs', rfl⟩

theorem exists_of_mem_mapM_ok (h : as.mapM f = .ok bs) {b : β} (hb : b ∈ bs) :
    ∃ a ∈ as, f a = .ok b := by
  induction as generalizing bs with
  | nil =>
    cases h
    cases hb
  | cons a as ih =>
    obtain ⟨b', bs', hb', hbs', rfl⟩ := mapM_cons_eq_ok h
    rcases List.mem_cons.1 hb with rfl | hb
    · exact ⟨a, .head _, hb'⟩
    · obtain ⟨a', ha', hfa'⟩ := ih hbs' hb
      exact ⟨a', .tail _ ha', hfa'⟩

theorem map_eq_of_mapM_ok (g : β → γ) (g' : α → γ) (hg : ∀ a b, f a = .ok b → g b = g' a)
    (h : as.mapM f = .ok bs) : bs.map g = as.map g' := by
  induction as generalizing bs with
  | nil =>
    cases h
    rfl
  | cons a as ih =>
    obtain ⟨b, bs', hb, hbs', rfl⟩ := mapM_cons_eq_ok h
    rw [List.map_cons, List.map_cons, hg a b hb, ih hbs']

theorem length_of_mapM_ok (h : as.mapM f = .ok bs) : bs.length = as.length := by
  have hlen := congrArg List.length (map_eq_of_mapM_ok (fun _ => ()) (fun _ => ())
    (fun _ _ _ => rfl) h)
  simpa using hlen

end

/-! ## Annotation blocks -/

namespace Vocabulary

variable {α : Type} {V : Vocabulary α} {P : α → Prop}

theorem forall_of_foldlM {β : Type} {f : β → Resolved α}
    (hmerge : ∀ a b, P a → P b → P (V.merge a b))
    (hf : ∀ b a, f b = .ok a → P a) {bs : List β} {a b : α} (ha : P a)
    (h : bs.foldlM (fun acc b => return V.merge acc (← f b)) a = .ok b) : P b := by
  induction bs generalizing a with
  | nil =>
    cases h
    exact ha
  | cons c bs ih =>
    rw [List.foldlM_cons] at h
    obtain ⟨a', ha', h⟩ := exists_of_bind_eq_ok h
    obtain ⟨a'', ha'', ha'⟩ := exists_of_bind_eq_ok ha'
    cases ha'
    exact ih (hmerge a a'' ha (hf c a'' ha'')) h

/-- What holds without blocks, is kept by merging and holds of each argument holds of all blocks. -/
theorem forall_of_resolve (hempty : P V.empty) (hmerge : ∀ a b, P a → P b → P (V.merge a b))
    (hargument : ∀ l x a, V.argument l x = .ok a → P a) {blocks : List AnnotationBlock} {a : α}
    (h : V.resolve blocks = .ok a) : P a := by
  obtain ⟨_, -, h⟩ := exists_of_bind_eq_ok h
  refine forall_of_foldlM hmerge (fun b a hb => ?_) hempty h
  exact forall_of_foldlM hmerge (fun x a hx => hargument b.location x a hx) hempty hb

end Vocabulary

/-- No variant is given a negative value. -/
def VariantAttributes.IsNatural (a : VariantAttributes) : Prop := ∀ n, a.value = some n → 0 ≤ n

theorem VariantAttributes.isNatural_of_resolve {blocks : List AnnotationBlock}
    {a : VariantAttributes} (h : VariantAttributes.resolve blocks = .ok a) : a.IsNatural := by
  refine Vocabulary.forall_of_resolve (V := vocabulary) (P := IsNatural) nofun ?_ ?_ h
  · intro a b ha hb n hn
    cases hb' : b.value with
    | none => exact ha n (by simpa [vocabulary, merge, hb'] using hn)
    | some m =>
      have hmn : m = n := by simpa [vocabulary, merge, hb'] using hn
      exact hmn ▸ hb m hb'
  · intro l x a ha n hn
    obtain ⟨_, -, ha⟩ := exists_of_bind_eq_ok ha
    obtain ⟨m, -, ha⟩ := exists_of_bind_eq_ok ha
    cases ha
    cases hn
    exact Int.natCast_nonneg m

/-! ## Tags -/

theorem ownTag_nonneg {options : UnionOptions} {last : Option Int} {v : Variant}
    {a : VariantAttributes} (ha : a.IsNatural) {tag : Int}
    (h : ownTag options last v a = .ok tag) : 0 ≤ tag := by
  unfold ownTag at h
  split at h
  next value _ hvalue =>
    cases h
    exact ha tag hvalue
  next =>
    obtain ⟨n, -, h⟩ := exists_of_bind_eq_ok h
    cases h
    exact Int.natCast_nonneg n
  next =>
    split at h
    next =>
      cases h
      cases last with
      | none => exact Int.le_refl 0
      | some last => exact Int.emod_nonneg _ (by decide)
    next => cases h

/-- A tag is that of the variant itself, new and small enough, and then come the others. -/
theorem of_assignFrom_cons {options : UnionOptions} {used tags : List Int}
    {x : Variant × VariantAttributes} {xs : List (Variant × VariantAttributes)}
    (h : assignFrom options used (x :: xs) = .ok tags) :
    ∃ tag rest, ownTag options used.head? x.1 x.2 = .ok tag ∧ tag ∉ used ∧
      tag ≤ options.width.maxValue ∧ assignFrom options (tag :: used) xs = .ok rest ∧
      tags = tag :: rest := by
  rw [assignFrom] at h
  obtain ⟨tag, htag, h⟩ := exists_of_bind_eq_ok h
  split at h
  next => cases h
  next hused =>
    split at h
    next => cases h
    next hfits =>
      obtain ⟨rest, hrest, h⟩ := exists_of_bind_eq_ok h
      cases h
      rw [List.contains_iff_mem] at hused
      exact ⟨tag, rest, htag, hused, by omega, hrest, rfl⟩

theorem length_of_assignFrom {options : UnionOptions} {used tags : List Int}
    {variants : List (Variant × VariantAttributes)}
    (h : assignFrom options used variants = .ok tags) : tags.length = variants.length := by
  induction variants generalizing used tags with
  | nil =>
    cases h
    rfl
  | cons v variants ih =>
    obtain ⟨tag, rest, -, -, -, hrest, rfl⟩ := of_assignFrom_cons h
    rw [List.length_cons, List.length_cons, ih hrest]

/-- Tags are natural numbers, distinct and new, and they fit their width. -/
theorem of_assignFrom {options : UnionOptions} {used tags : List Int}
    {variants : List (Variant × VariantAttributes)} (hvalues : ∀ v ∈ variants, v.2.IsNatural)
    (h : assignFrom options used variants = .ok tags) :
    tags.Nodup ∧ ∀ t ∈ tags, t ∉ used ∧ 0 ≤ t ∧ t ≤ options.width.maxValue := by
  induction variants generalizing used tags with
  | nil =>
    cases h
    exact ⟨List.nodup_nil, nofun⟩
  | cons v variants ih =>
    obtain ⟨tag, rest, htag, hused, hfits, hrest, rfl⟩ := of_assignFrom_cons h
    obtain ⟨hdistinct, hall⟩ := ih (fun v hv => hvalues v (.tail _ hv)) hrest
    refine ⟨?_, ?_⟩
    · rw [List.nodup_cons]
      exact ⟨fun hmem => (hall tag hmem).1 (.head _), hdistinct⟩
    · intro t ht
      rcases List.mem_cons.1 ht with rfl | ht
      · exact ⟨hused, ownTag_nonneg (hvalues v (.head _)) htag, hfits⟩
      · obtain ⟨hnew, hbounds⟩ := hall t ht
        exact ⟨fun hmem => hnew (.tail _ hmem), hbounds⟩

/-! ## Records and unions -/

/-- What a record of a layout has from the schema. -/
structure RecordLayout.Resolves (known : List String) (r : RecordLayout) : Prop where
  fields : r.fields.map FieldLayout.field = r.record.fields
  order : r.order.Perm r.fields
  hasDefault : r.hasDefault = known.contains r.name
  ignored : ∀ f ∈ r.fields, f.attributes.ignore = true → f.field.type.hasDefault known = true

/-- What a union of a layout has from the schema. -/
structure UnionLayout.Resolves (u : UnionLayout) : Prop where
  variants : u.variants.map VariantLayout.variant = u.union.variants
  tags : (u.variants.map VariantLayout.tag).Nodup
  bounded : ∀ v ∈ u.variants, v.tag ≤ u.width.maxValue

namespace RecordLayout

theorem of_checkIgnored {known : List String} {fields : List FieldLayout}
    (h : checkIgnored known fields = .ok ()) :
    ∀ f ∈ fields, f.attributes.ignore = true → f.field.type.hasDefault known = true := by
  induction fields with
  | nil => exact nofun
  | cons f fs ih =>
    rw [checkIgnored] at h
    split at h
    next => cases h
    next hf =>
      intro g hg hi
      rcases List.mem_cons.1 hg with rfl | hg
      · simpa [hi] using hf
      · exact ih h g hg hi

theorem of_orderFields {fields order : List FieldLayout} (h : orderFields fields = .ok order) :
    order.Perm fields := by
  obtain ⟨_, -, h⟩ := exists_of_bind_eq_ok h
  cases h
  exact List.mergeSort_perm fields _

theorem resolves_of_ofRecord {known : List String} {r : Record} {l : RecordLayout}
    (h : ofRecord known r = .ok l) : l.record = r ∧ l.Resolves known := by
  obtain ⟨attributes, -, h⟩ := exists_of_bind_eq_ok h
  extract_lets rest at h
  -- Whatever the options, what comes after their check is the same.
  have hrest : rest () = .ok l := by
    split at h
    next => cases h
    next => cases h
    next => exact h
  obtain ⟨fields, hfields, h⟩ := exists_of_bind_eq_ok hrest
  obtain ⟨_, hignored, h⟩ := exists_of_bind_eq_ok h
  obtain ⟨order, horder, h⟩ := exists_of_bind_eq_ok h
  cases h
  refine ⟨rfl, ?_, of_orderFields horder, rfl, of_checkIgnored hignored⟩
  have hmap := map_eq_of_mapM_ok FieldLayout.field id (fun f l hl => ?_) hfields
  · rwa [List.map_id] at hmap
  · obtain ⟨_, -, hl⟩ := exists_of_bind_eq_ok hl
    cases hl
    rfl

end RecordLayout

namespace UnionLayout

/-- A variant with its attributes and its tag. -/
def variantLayout (x : Variant × VariantAttributes × Int) : VariantLayout :=
  ⟨x.1, x.2.1, x.2.2.toNat⟩

/-- Laid out side by side with their attributes and tags, variants have those tags. -/
theorem map_tag_zip {variants : List Variant} {values : List VariantAttributes} {tags : List Int}
    (hvalues : values.length = variants.length) (htags : tags.length = variants.length) :
    ((variants.zip (values.zip tags)).map variantLayout).map VariantLayout.tag =
      tags.map Int.toNat := by
  have hzip : (values.zip tags).length = variants.length := by
    rw [List.length_zip, hvalues, htags, Nat.min_self]
  have hsnd : (variants.zip (values.zip tags)).map Prod.snd = values.zip tags :=
    List.map_snd_zip (Nat.le_of_eq hzip)
  have htags' : (values.zip tags).map Prod.snd = tags :=
    List.map_snd_zip (Nat.le_of_eq (htags.trans hvalues.symm))
  calc _ = (variants.zip (values.zip tags)).map fun x => x.2.2.toNat := by
        rw [List.map_map]
        rfl
    _ = (((variants.zip (values.zip tags)).map Prod.snd).map Prod.snd).map Int.toNat := by
        rw [List.map_map, List.map_map]
        rfl
    _ = tags.map Int.toNat := by rw [hsnd, htags']

/-- What a union is resolved to. -/
theorem exists_of_ofUnion {u : Union} {l : UnionLayout} (h : ofUnion u = .ok l) :
    ∃ attributes values tags, TypeAttributes.resolve u.annotations = .ok attributes ∧
      u.variants.mapM (fun v => VariantAttributes.resolve v.annotations) = .ok values ∧
      assignTags (attributes.unionOptions.getD .empty) (u.variants.zip values) = .ok tags ∧
      values.length = u.variants.length ∧ tags.length = u.variants.length ∧
      l = ⟨u, attributes, (attributes.unionOptions.getD .empty).width,
        (u.variants.zip (values.zip tags)).map variantLayout⟩ := by
  obtain ⟨attributes, hattributes, h⟩ := exists_of_bind_eq_ok h
  obtain ⟨_, -, h⟩ := exists_of_bind_eq_ok h
  obtain ⟨values, hvalues, h⟩ := exists_of_bind_eq_ok h
  obtain ⟨tags, htags, h⟩ := exists_of_bind_eq_ok h
  cases h
  have hvlen := length_of_mapM_ok hvalues
  have hlen := length_of_assignFrom htags
  rw [List.length_zip, hvlen, Nat.min_self] at hlen
  exact ⟨attributes, values, tags, hattributes, hvalues, htags, hvlen, hlen, rfl⟩

theorem resolves_of_ofUnion {u : Union} {l : UnionLayout} (h : ofUnion u = .ok l) :
    l.union = u ∧ l.Resolves := by
  obtain ⟨attributes, values, tags, -, hvalues, htags, hvlen, hlen, rfl⟩ := exists_of_ofUnion h
  have hnatural : ∀ v ∈ u.variants.zip values, v.2.IsNatural := by
    intro v hv
    obtain ⟨w, -, hw⟩ := exists_of_mem_mapM_ok hvalues (List.of_mem_zip hv).2
    exact VariantAttributes.isNatural_of_resolve hw
  obtain ⟨hdistinct, hall⟩ := of_assignFrom hnatural htags
  have hzip : (values.zip tags).length = u.variants.length := by
    rw [List.length_zip, hvlen, hlen, Nat.min_self]
  have htagsMap := map_tag_zip hvlen hlen
  refine ⟨rfl, ?_, ?_, ?_⟩
  · rw [List.map_map]
    exact List.map_fst_zip (Nat.le_of_eq hzip.symm)
  · rw [htagsMap, List.nodup_iff_pairwise_ne, List.pairwise_map]
    refine (List.nodup_iff_pairwise_ne.1 hdistinct).imp_of_mem fun ha hb hne heq => hne ?_
    have hna := (hall _ ha).2.1
    have hnb := (hall _ hb).2.1
    omega
  · intro v hv
    have hmem := List.mem_map_of_mem (f := VariantLayout.tag) hv
    rw [htagsMap] at hmem
    obtain ⟨t, ht, htag⟩ := List.mem_map.1 hmem
    have hmax := (hall t ht).2.2
    rw [← htag]
    dsimp only
    omega

end UnionLayout

namespace Layout

/-- A layout resolves a schema if its declarations do. -/
structure Resolves (s : Schema) (S : Layout) : Prop where
  records : S.records.map RecordLayout.record = s.records
  unions : S.unions.map UnionLayout.union = s.unions
  recordsResolve : ∀ r ∈ S.records, r.Resolves (defaultable s.records)
  unionsResolve : ∀ u ∈ S.unions, u.Resolves

theorem resolves_of_ofSchema {s : Schema} {S : Layout} (h : ofSchema s = .ok S) :
    S.Resolves s := by
  obtain ⟨records, hrecords, h⟩ := exists_of_bind_eq_ok h
  obtain ⟨unions, hunions, h⟩ := exists_of_bind_eq_ok h
  cases h
  refine ⟨?_, ?_, fun r hr => ?_, fun u hu => ?_⟩
  · have hmap := map_eq_of_mapM_ok RecordLayout.record id
      (fun _ _ hl => (RecordLayout.resolves_of_ofRecord hl).1) hrecords
    rwa [List.map_id] at hmap
  · have hmap := map_eq_of_mapM_ok UnionLayout.union id
      (fun _ _ hl => (UnionLayout.resolves_of_ofUnion hl).1) hunions
    rwa [List.map_id] at hmap
  · obtain ⟨_, -, hr⟩ := exists_of_mem_mapM_ok hrecords hr
    exact (RecordLayout.resolves_of_ofRecord hr).2
  · obtain ⟨_, -, hu⟩ := exists_of_mem_mapM_ok hunions hu
    exact (UnionLayout.resolves_of_ofUnion hu).2

end Layout

end WireSchema
